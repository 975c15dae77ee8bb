import Mathlib.Data.List.Basic

/-! Readers that take values off the front of a buffer. A reader panics when it takes more than the
buffer holds; it may also give up, and leaves the buffer where it stopped. -/
namespace TinyKeeper

/-- What a reader does to a buffer: a panic, or a value, `none` when it gives up, and what is left
of the buffer. -/
def Reader (σ ε α : Type) : Type := List σ → Except ε (Option α × List σ)

namespace Reader
variable {σ ε α β : Type}

instance : Monad (Reader σ ε) where
  pure a := fun buf => .ok (some a, buf)
  bind r f := fun buf =>
    match r buf with
    | .error e => .error e
    | .ok (none, rest) => .ok (none, rest)
    | .ok (some a, rest) => f a rest

def fail : Reader σ ε α := fun buf => .ok (none, buf)

def ofOption : Option α → Reader σ ε α
  | none => fail
  | some a => pure a

/-- Go on only if the condition holds. -/
def check (condition : Prop) [Decidable condition] : Reader σ ε Unit :=
  if condition then pure () else fail

def remaining : Reader σ ε ℕ := fun buf => .ok (some buf.length, buf)

/-- The first `n` symbols, or a panic. -/
def take (n : ℕ) (e : ε) : Reader σ ε (List σ) := fun buf =>
  if n ≤ buf.length then .ok (some (buf.take n), buf.drop n) else .error e

/-- Read on a cursor, which moves the buffer only when the reader does not give up. -/
def onCursor (r : Reader σ ε α) : Reader σ ε α := fun buf =>
  match r buf with
  | .ok (none, _) => .ok (none, buf)
  | result => result

theorem then_then {γ : Type} (r : Reader σ ε α) (f : α → Reader σ ε β) (g : β → Reader σ ε γ) :
    (r >>= f) >>= g = r >>= fun a => f a >>= g := by
  funext buf
  simp only [bind]
  obtain e | ⟨_ | a, rest⟩ := r buf <;> rfl

/-- The reader does not panic. -/
def Safe (r : Reader σ ε α) (buf : List σ) : Prop := ∃ result, r buf = .ok result

/-- The reader takes this value. -/
def Reads (r : Reader σ ε α) (buf : List σ) (a : α) (rest : List σ) : Prop :=
  r buf = .ok (some a, rest)

variable {r : Reader σ ε α} {f : α → Reader σ ε β} {buf rest : List σ} {a : α} {b : β} {e : ε}
variable {n : ℕ} {front : List σ} {condition : Prop} [Decidable condition]

theorem Reads.safe (h : r.Reads buf a rest) : r.Safe buf := ⟨_, h⟩

theorem Reads.unique {a' : α} {rest' : List σ} (h : r.Reads buf a rest)
    (h' : r.Reads buf a' rest') : a = a' ∧ rest = rest' := by
  have same := Except.ok.inj (h.symm.trans h')
  rw [Prod.mk.injEq, Option.some.injEq] at same
  exact same

@[simp] theorem safe_pure : (pure a : Reader σ ε α).Safe buf := ⟨_, rfl⟩

@[simp] theorem safe_fail : (fail : Reader σ ε α).Safe buf := ⟨_, rfl⟩

@[simp] theorem safe_remaining : (remaining : Reader σ ε ℕ).Safe buf := ⟨_, rfl⟩

@[simp] theorem safe_ofOption (o : Option α) : (ofOption o : Reader σ ε α).Safe buf := by
  cases o with
  | none => exact safe_fail
  | some a => exact safe_pure

@[simp] theorem safe_check : (check condition : Reader σ ε Unit).Safe buf := by
  unfold check
  split_ifs
  · exact safe_pure
  · exact safe_fail

@[simp] theorem safe_take_iff : (take n e : Reader σ ε (List σ)).Safe buf ↔ n ≤ buf.length := by
  unfold Safe take
  split_ifs with enough <;> simp [enough]

/-- Two readers in a row panic when the first one does, or the second one on what is left. -/
theorem safe_bind_iff : (r >>= f).Safe buf ↔
    r.Safe buf ∧ ∀ a rest, r.Reads buf a rest → (f a).Safe rest := by
  have unfolded : (r >>= f) buf = match r buf with
      | .error e => .error e
      | .ok (none, rest) => .ok (none, rest)
      | .ok (some a, rest) => f a rest := rfl
  unfold Safe Reads
  rw [unfolded]
  obtain e | ⟨_ | a, rest⟩ := r buf <;> simp

@[simp] theorem reads_pure_iff {a' : α} : (pure a' : Reader σ ε α).Reads buf a rest ↔
    a' = a ∧ buf = rest := by
  have unfolded : (pure a' : Reader σ ε α) buf = .ok (some a', buf) := rfl
  simp [Reads, unfolded]

@[simp] theorem not_reads_fail : ¬ (fail : Reader σ ε α).Reads buf a rest := by
  simp [Reads, fail]

@[simp] theorem reads_remaining_iff : (remaining : Reader σ ε ℕ).Reads buf n rest ↔
    buf.length = n ∧ buf = rest := by
  simp [Reads, remaining]

@[simp] theorem reads_ofOption_iff (o : Option α) : (ofOption o : Reader σ ε α).Reads buf a rest ↔
    o = some a ∧ buf = rest := by
  cases o with
  | none => simp [ofOption]
  | some a' => simp [ofOption]

@[simp] theorem reads_check_iff {u : Unit} : (check condition : Reader σ ε Unit).Reads buf u rest ↔
    condition ∧ buf = rest := by
  unfold check
  split_ifs with holds <;> simp [holds]

@[simp] theorem reads_take_iff : (take n e : Reader σ ε (List σ)).Reads buf front rest ↔
    buf = front ++ rest ∧ front.length = n := by
  unfold Reads take
  constructor
  · intro h
    split_ifs at h with enough
    simp only [Except.ok.injEq, Prod.mk.injEq, Option.some.injEq] at h
    obtain ⟨rfl, rfl⟩ := h
    exact ⟨(List.take_append_drop n buf).symm, List.length_take_of_le enough⟩
  · rintro ⟨rfl, rfl⟩
    simp

theorem reads_bind_iff : (r >>= f).Reads buf b rest ↔
    ∃ a middle, r.Reads buf a middle ∧ (f a).Reads middle b rest := by
  have unfolded : (r >>= f) buf = match r buf with
      | .error e => .error e
      | .ok (none, rest) => .ok (none, rest)
      | .ok (some a, rest) => f a rest := rfl
  unfold Reads
  rw [unfolded]
  obtain e | ⟨_ | a, middle⟩ := r buf <;> simp

/-- When the first reader does not give up, its value decides how to go on. -/
theorem safe_bind_of_total (total : r.Safe buf → ∃ a rest, r.Reads buf a rest) :
    (r >>= f).Safe buf ↔ ∃ a rest, r.Reads buf a rest ∧ (f a).Safe rest := by
  rw [safe_bind_iff]
  constructor
  · rintro ⟨safe, next⟩
    obtain ⟨a, rest, reads⟩ := total safe
    exact ⟨a, rest, reads, next a rest reads⟩
  · rintro ⟨a, rest, reads, next⟩
    refine ⟨reads.safe, fun a' rest' reads' => ?_⟩
    obtain ⟨rfl, rfl⟩ := reads.unique reads'
    exact next

theorem safe_bind_pure_iff {g : α → β} : (r >>= fun a => pure (g a)).Safe buf ↔ r.Safe buf := by
  simp [safe_bind_iff]

theorem safe_check_bind_iff {f : Unit → Reader σ ε β} :
    (check condition >>= f).Safe buf ↔ (condition → (f ()).Safe buf) := by
  simp only [safe_bind_iff, safe_check, reads_check_iff, true_and]
  constructor
  · exact fun next holds => next () buf ⟨holds, rfl⟩
  · rintro next _ _ ⟨holds, rfl⟩
    exact next holds

theorem safe_remaining_bind_iff {f : ℕ → Reader σ ε β} :
    (remaining >>= f).Safe buf ↔ (f buf.length).Safe buf := by
  simp [safe_bind_iff]

theorem safe_ofOption_bind_iff {o : Option α} :
    (ofOption o >>= f).Safe buf ↔ ∀ a, o = some a → (f a).Safe buf := by
  simp [safe_bind_iff]

theorem safe_take_bind_iff {f : List σ → Reader σ ε β} :
    (take n e >>= f).Safe buf ↔ n ≤ buf.length ∧
      ∀ front rest, buf = front ++ rest → front.length = n → (f front).Safe rest := by
  simp [safe_bind_iff]

theorem take_total (safe : (take n e : Reader σ ε (List σ)).Safe buf) :
    ∃ front rest, (take n e : Reader σ ε (List σ)).Reads buf front rest :=
  ⟨buf.take n, buf.drop n, reads_take_iff.mpr
    ⟨(List.take_append_drop n buf).symm, List.length_take_of_le (safe_take_iff.mp safe)⟩⟩

@[simp] theorem safe_onCursor_iff : r.onCursor.Safe buf ↔ r.Safe buf := by
  unfold Safe onCursor
  obtain e | ⟨_ | a, rest⟩ := r buf <;> simp

@[simp] theorem reads_onCursor_iff : r.onCursor.Reads buf a rest ↔ r.Reads buf a rest := by
  unfold Reads onCursor
  obtain e | ⟨_ | a, rest⟩ := r buf <;> simp

/-- The reader only takes from the buffer. -/
def Shrinks (r : Reader σ ε α) : Prop :=
  ∀ buf a rest, r.Reads buf a rest → rest.length ≤ buf.length

theorem shrinks_pure : (pure a : Reader σ ε α).Shrinks := by
  intro buf a rest reads
  exact Nat.le_of_eq (congrArg List.length (reads_pure_iff.mp reads).2.symm)

theorem shrinks_fail : (fail : Reader σ ε α).Shrinks :=
  fun _ _ _ reads => absurd reads not_reads_fail

theorem shrinks_remaining : (remaining : Reader σ ε ℕ).Shrinks := by
  intro buf a rest reads
  exact Nat.le_of_eq (congrArg List.length (reads_remaining_iff.mp reads).2.symm)

theorem shrinks_ofOption (o : Option α) : (ofOption o : Reader σ ε α).Shrinks := by
  intro buf a rest reads
  exact Nat.le_of_eq (congrArg List.length ((reads_ofOption_iff o).mp reads).2.symm)

theorem shrinks_check : (check condition : Reader σ ε Unit).Shrinks := by
  intro buf a rest reads
  exact Nat.le_of_eq (congrArg List.length (reads_check_iff.mp reads).2.symm)

theorem shrinks_take : (take n e : Reader σ ε (List σ)).Shrinks := by
  intro buf a rest reads
  rw [(reads_take_iff.mp reads).1, List.length_append]
  exact Nat.le_add_left _ _

theorem shrinks_bind (first : r.Shrinks) (next : ∀ a, (f a).Shrinks) : (r >>= f).Shrinks := by
  intro buf b rest reads
  obtain ⟨a, middle, reads, reads'⟩ := reads_bind_iff.mp reads
  exact Nat.le_trans (next a middle b rest reads') (first buf a middle reads)

theorem shrinks_onCursor (h : r.Shrinks) : r.onCursor.Shrinks :=
  fun buf a rest reads => h buf a rest (reads_onCursor_iff.mp reads)

/-- The reader takes exactly these symbols for this value, whatever follows them. -/
def Takes (r : Reader σ ε α) (front : List σ) (a : α) : Prop := ∀ rest, r.Reads (front ++ rest) a rest

section Takes
variable {front' : List σ}

theorem takes_pure : (pure a : Reader σ ε α).Takes [] a :=
  fun _ => reads_pure_iff.mpr ⟨rfl, rfl⟩

theorem takes_ofOption {o : Option α} (h : o = some a) : (ofOption o : Reader σ ε α).Takes [] a :=
  fun _ => (reads_ofOption_iff o).mpr ⟨h, rfl⟩

theorem takes_take (length : front.length = n) :
    (take n e : Reader σ ε (List σ)).Takes front front :=
  fun _ => reads_take_iff.mpr ⟨rfl, length⟩

theorem Takes.bind (first : r.Takes front a) (next : (f a).Takes front' b) :
    (r >>= f).Takes (front ++ front') b := by
  intro rest
  rw [List.append_assoc]
  exact reads_bind_iff.mpr ⟨a, front' ++ rest, first (front' ++ rest), next rest⟩

/-- The last reader of a row. -/
theorem Takes.map {g : α → β} (first : r.Takes front a) :
    (r >>= fun a => pure (g a)).Takes front (g a) := by
  have both : (r >>= fun a => pure (g a)).Takes (front ++ []) (g a) := first.bind takes_pure
  rwa [List.append_nil] at both

theorem takes_check_bind {f : Unit → Reader σ ε β} (holds : condition)
    (next : (f ()).Takes front b) : (check condition >>= f).Takes front b :=
  fun rest => reads_bind_iff.mpr ⟨(), front ++ rest, reads_check_iff.mpr ⟨holds, rfl⟩, next rest⟩

/-- The number of the symbols that are left does not matter as long as there are enough. -/
theorem takes_remaining_bind {f : ℕ → Reader σ ε β}
    (next : ∀ n, front.length ≤ n → (f n).Takes front b) : (remaining >>= f).Takes front b := by
  intro rest
  have enough : front.length ≤ (front ++ rest).length := by simp
  exact reads_bind_iff.mpr ⟨(front ++ rest).length, front ++ rest,
    reads_remaining_iff.mpr ⟨rfl, rfl⟩, next _ enough rest⟩

theorem Takes.onCursor (h : r.Takes front a) : r.onCursor.Takes front a :=
  fun rest => reads_onCursor_iff.mpr (h rest)

end Takes

/-- The reader takes this many symbols, or panics. -/
def Fixed (r : Reader σ ε α) (n : ℕ) : Prop :=
  ∀ buf, (r.Safe buf → n ≤ buf.length) ∧ (n ≤ buf.length → ∃ a, r.Reads buf a (buf.drop n))

theorem fixed_take_bind_pure {g : List σ → α} :
    (take n e >>= fun front => pure (g front)).Fixed n := by
  intro buf
  refine ⟨fun safe => safe_take_iff.mp (safe_bind_pure_iff.mp safe), fun enough => ?_⟩
  exact ⟨_, reads_bind_iff.mpr ⟨_, _, reads_take_iff.mpr ⟨(List.take_append_drop n buf).symm,
    List.length_take_of_le enough⟩, reads_pure_iff.mpr ⟨rfl, rfl⟩⟩⟩

/-- Fixed fields in a row are safe to read where all their symbols are. -/
theorem Fixed.safe_bind {m : ℕ} (first : r.Fixed n)
    (next : ∀ a rest, (f a).Safe rest ↔ m ≤ rest.length) :
    (r >>= f).Safe buf ↔ n + m ≤ buf.length := by
  obtain ⟨needs, gives⟩ := first buf
  rw [safe_bind_of_total fun safe => (gives (needs safe)).imp fun a reads => ⟨_, reads⟩]
  constructor
  · rintro ⟨a, rest, reads, safe⟩
    have enough := needs reads.safe
    obtain ⟨a', reads'⟩ := gives enough
    obtain ⟨-, rfl⟩ := reads.unique reads'
    have left := (next a _).mp safe
    rw [List.length_drop] at left
    omega
  · intro enough
    obtain ⟨a, reads⟩ := gives (by omega)
    exact ⟨a, _, reads, (next a _).mpr (by rw [List.length_drop]; omega)⟩

/-- A reader on a cursor that gives up has not moved the buffer. -/
theorem onCursor_none (h : r.onCursor buf = .ok (none, rest)) : rest = buf := by
  unfold onCursor at h
  generalize r buf = result at h
  obtain e | ⟨_ | a, rest'⟩ := result
  · cases h
  · cases h
    rfl
  · cases h

end Reader
end TinyKeeper
