import Mathlib.Data.Nat.Notation
import Mathlib.Algebra.Order.Ring.Nat

/-! Decimal numbers padded with zeros to a fixed width. They have as many digits as the width, no
two numbers have the same ones, and their alphabetic order is the order of the numbers. -/
namespace TinyKeeper

/-- The number that decimal digits stand for. -/
def digitsValue (digits : List Char) : ℕ := Nat.ofDigitChars 10 digits 0

theorem digitsValue_cons (c : Char) (digits : List Char) : digitsValue (c :: digits) =
    10 ^ digits.length * (c.toNat - '0'.toNat) + digitsValue digits := by
  rw [digitsValue, Nat.ofDigitChars_cons, Nat.mul_zero, Nat.zero_add,
    Nat.ofDigitChars_eq_ofDigitChars_zero]
  rfl

theorem isDigit_iff (c : Char) : c.isDigit = true ↔ '0'.toNat ≤ c.toNat ∧ c.toNat ≤ '9'.toNat := by
  rw [Char.isDigit, Bool.and_eq_true, decide_eq_true_eq, decide_eq_true_eq, ge_iff_le,
    UInt32.le_iff_toNat_le, UInt32.le_iff_toNat_le]
  rfl

theorem digitsValue_lt {digits : List Char} (all : ∀ c ∈ digits, c.isDigit) :
    digitsValue digits < 10 ^ digits.length := by
  induction digits with
  | nil => exact Nat.one_pos
  | cons c digits ih =>
    have rest := ih fun c mem => all c (List.mem_cons_of_mem _ mem)
    obtain ⟨-, high⟩ := (isDigit_iff c).mp (all c List.mem_cons_self)
    have digit : c.toNat - '0'.toNat ≤ 9 := Nat.sub_le_of_le_add high
    have first := Nat.mul_le_mul_left (10 ^ digits.length) digit
    rw [digitsValue_cons, List.length_cons, Nat.pow_succ]
    omega

/-- Of two numbers with equally many digits the smaller one comes first. -/
theorem lt_of_digitsValue_lt {digits digits' : List Char} (all : ∀ c ∈ digits, c.isDigit)
    (all' : ∀ c ∈ digits', c.isDigit) (length : digits.length = digits'.length)
    (less : digitsValue digits < digitsValue digits') : digits < digits' := by
  induction digits generalizing digits' with
  | nil =>
    rw [List.eq_nil_of_length_eq_zero length.symm] at less
    exact absurd less (Nat.lt_irrefl _)
  | cons c digits ih =>
    cases digits' with
    | nil => cases length
    | cons c' digits' =>
      have same : digits.length = digits'.length := Nat.succ.inj length
      have rest : ∀ c ∈ digits, c.isDigit := fun c mem => all c (List.mem_cons_of_mem _ mem)
      have rest' : ∀ c ∈ digits', c.isDigit := fun c mem => all' c (List.mem_cons_of_mem _ mem)
      obtain ⟨low, -⟩ := (isDigit_iff c).mp (all c List.mem_cons_self)
      obtain ⟨low', -⟩ := (isDigit_iff c').mp (all' c' List.mem_cons_self)
      rw [digitsValue_cons, digitsValue_cons, ← same] at less
      rw [List.cons_lt_cons_iff]
      obtain first | equal | first := Nat.lt_trichotomy c.toNat c'.toNat
      · exact .inl first
      · refine .inr ⟨Char.toNat_inj.mp equal, ih rest rest' same ?_⟩
        rw [equal] at less
        exact Nat.lt_of_add_lt_add_left less
      · have bound := digitsValue_lt rest'
        rw [← same] at bound
        have step : c'.toNat - '0'.toNat + 1 ≤ c.toNat - '0'.toNat := by omega
        have first := Nat.mul_le_mul_left (10 ^ digits.length) step
        rw [Nat.mul_succ] at first
        omega

/-- The decimal digits of `n`, padded with zeros to `width`. -/
def padded (width n : ℕ) : List Char := (Nat.toDigits 10 n).leftpad width '0'

theorem isDigit_of_mem_padded {width n : ℕ} {c : Char} (mem : c ∈ padded width n) :
    c.isDigit = true := by
  rw [padded, List.leftpad, List.mem_append] at mem
  obtain zero | digit := mem
  · rw [List.eq_of_mem_replicate zero]
    rfl
  · exact Nat.isDigit_of_mem_toDigits (by decide) (by decide) digit

@[simp] theorem digitsValue_padded (width n : ℕ) : digitsValue (padded width n) = n := by
  rw [digitsValue, padded, List.leftpad, Nat.ofDigitChars_append, Nat.ofDigitChars_replicate_zero,
    Nat.mul_zero, Nat.ofDigitChars_ten_toDigits]

theorem length_padded {width n : ℕ} (pos : 0 < width) (small : n < 10 ^ width) :
    (padded width n).length = width := by
  rw [padded, List.length_leftpad]
  exact Nat.max_eq_left ((Nat.length_toDigits_le_iff (by decide) pos).mpr small)

theorem padded_injective {width n n' : ℕ} (same : padded width n = padded width n') : n = n' := by
  have values := congrArg digitsValue same
  rwa [digitsValue_padded, digitsValue_padded] at values

theorem padded_lt {width n n' : ℕ} (pos : 0 < width) (less : n < n') (small : n' < 10 ^ width) :
    padded width n < padded width n' := by
  apply lt_of_digitsValue_lt
  · exact fun c mem => isDigit_of_mem_padded mem
  · exact fun c mem => isDigit_of_mem_padded mem
  · rw [length_padded pos small, length_padded pos (less.trans small)]
  · rwa [digitsValue_padded, digitsValue_padded]

end TinyKeeper
