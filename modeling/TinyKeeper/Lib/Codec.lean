import Mathlib.Data.List.Infix
import TinyKeeper.Lib.Run

/-! Record formats on a stream: writing records one after another, scanning them back, and what a
scan recovers from a stream that was cut. -/
namespace TinyKeeper
variable {α ρ ν ε : Type*}

/-- A record format. `decode` takes one record off the front of the stream: `none` is a stream too
short for a record. -/
structure Codec (α ρ ν ε : Type*) where
  encode : ρ → List α
  decode : List α → Except ε (Option (ν × List α))
  progress : ∀ s v rest, decode s = .ok (some (v, rest)) → rest.length < s.length

namespace Codec
variable (C : Codec α ρ ν ε)

def encodeAll (rs : List ρ) : List α := rs.flatMap C.encode

def scan : ℕ → List α → List ν × Option ε
  | 0, _ => ([], none)
  | fuel + 1, s =>
    match C.decode s with
    | .error e => ([], some e)
    | .ok none => ([], none)
    | .ok (some (v, rest)) => (v :: (scan fuel rest).1, (scan fuel rest).2)

/-- Decode to the end of the stream: the records read and the error that stopped the scan. Every
record takes at least one symbol, so the fuel never runs out. -/
def decodeAll (s : List α) : List ν × Option ε := C.scan (s.length + 1) s

theorem scan_eq_of_length_lt (n m : ℕ) (s : List α) (hn : s.length < n) (hm : s.length < m) :
    C.scan n s = C.scan m s := by
  induction n generalizing m s with
  | zero => omega
  | succ n ih =>
    obtain ⟨m, rfl⟩ := Nat.exists_eq_succ_of_ne_zero (by omega : m ≠ 0)
    simp only [scan]
    cases h : C.decode s with
    | error e => rfl
    | ok o =>
      cases o with
      | none => rfl
      | some p =>
        obtain ⟨v, rest⟩ := p
        have shorter := C.progress s v rest h
        simp only [ih m rest (by omega) (by omega)]

theorem decodeAll_error (s : List α) (e : ε) (h : C.decode s = .error e) :
    C.decodeAll s = ([], some e) := by
  simp [decodeAll, scan, h]

theorem decodeAll_none (s : List α) (h : C.decode s = .ok none) : C.decodeAll s = ([], none) := by
  simp [decodeAll, scan, h]

theorem decodeAll_some (s : List α) (v : ν) (rest : List α)
    (h : C.decode s = .ok (some (v, rest))) :
    C.decodeAll s = (v :: (C.decodeAll rest).1, (C.decodeAll rest).2) := by
  have shorter := C.progress s v rest h
  rw [decodeAll, scan, h]
  simp only [decodeAll, C.scan_eq_of_length_lt s.length (rest.length + 1) rest shorter (by omega)]

theorem decodeAll_eq_cons (s : List α) (v : ν) (vs : List ν) (o : Option ε)
    (h : C.decodeAll s = (v :: vs, o)) : ∃ rest, C.decode s = .ok (some (v, rest)) := by
  cases hd : C.decode s with
  | error e => simp [C.decodeAll_error s e hd] at h
  | ok r =>
    cases r with
    | none => simp [C.decodeAll_none s hd] at h
    | some p =>
      rw [C.decodeAll_some s p.1 p.2 hd] at h
      obtain ⟨rfl, -⟩ := List.cons.inj (congrArg Prod.fst h)
      exact ⟨p.2, rfl⟩

theorem exists_decode_of_mem {s : List α} {v : ν}
    (h : v ∈ (C.decodeAll s).1) : ∃ s' rest, C.decode s' = .ok (some (v, rest)) := by
  induction hn : s.length using Nat.strong_induction_on generalizing s with
  | _ n ih =>
    cases hd : C.decode s with
    | error e => simp [C.decodeAll_error s e hd] at h
    | ok o =>
      cases o with
      | none => simp [C.decodeAll_none s hd] at h
      | some p =>
        rw [C.decodeAll_some s p.1 p.2 hd] at h
        obtain rfl | later := List.mem_cons.mp h
        · exact ⟨s, p.2, hd⟩
        · exact ih p.2.length (hn ▸ C.progress s p.1 p.2 hd) later rfl

@[simp] theorem encodeAll_nil : C.encodeAll [] = [] := rfl

@[simp] theorem encodeAll_cons (r : ρ) (rs : List ρ) :
    C.encodeAll (r :: rs) = C.encode r ++ C.encodeAll rs := rfl

theorem encodeAll_append (rs rs' : List ρ) :
    C.encodeAll (rs ++ rs') = C.encodeAll rs ++ C.encodeAll rs' := by
  simp [encodeAll]

/-- The records that lie wholly within the first `k` symbols of their stream. -/
def intact : ℕ → List ρ → List ρ
  | _, [] => []
  | k, r :: rs =>
    if (C.encode r).length ≤ k then r :: intact (k - (C.encode r).length) rs else []

theorem intact_initial (k : ℕ) (rs : List ρ) : C.intact k rs <+: rs := by
  induction rs generalizing k with
  | nil => simp [intact]
  | cons r rs ih =>
    rw [intact]
    split_ifs
    · exact List.cons_prefix_cons.mpr ⟨rfl, ih _⟩
    · exact List.nil_prefix

theorem intact_append_of_le (k : ℕ) (rs rs' : List ρ) :
    C.intact ((C.encodeAll rs).length + k) (rs ++ rs') = rs ++ C.intact k rs' := by
  induction rs with
  | nil => simp
  | cons r rs ih =>
    have shift : (C.encodeAll (r :: rs)).length + k - (C.encode r).length =
        (C.encodeAll rs).length + k := by simp; omega
    rw [List.cons_append, intact, if_pos (by simp; omega), shift, ih, List.cons_append]

theorem length_encodeAll_congr {α' ν' ε' : Type*} (C' : Codec α' ρ ν' ε')
    (size : ∀ r, (C'.encode r).length = (C.encode r).length) (rs : List ρ) :
    (C'.encodeAll rs).length = (C.encodeAll rs).length := by
  simp [encodeAll, size]

/-- Which records survive a cut depends on the sizes of the records only. -/
theorem intact_congr {α' ν' ε' : Type*} (C' : Codec α' ρ ν' ε')
    (size : ∀ r, (C'.encode r).length = (C.encode r).length) (k : ℕ) (rs : List ρ) :
    C'.intact k rs = C.intact k rs := by
  induction rs generalizing k with
  | nil => rfl
  | cons r rs ih => simp only [intact, size, ih]

theorem intact_of_le (k : ℕ) (rs : List ρ) (hk : (C.encodeAll rs).length ≤ k) :
    C.intact k rs = rs := by
  have fill := C.intact_append_of_le (k - (C.encodeAll rs).length) rs []
  rw [Nat.add_sub_cancel' hk, List.append_nil] at fill
  simpa [intact] using fill

/-- A record is intact exactly when the stream up to its end is no longer than the cut. -/
theorem lt_length_intact_iff (k : ℕ) (rs : List ρ) (i : ℕ) (hi : i < rs.length) :
    i < (C.intact k rs).length ↔ (C.encodeAll (rs.take (i + 1))).length ≤ k := by
  induction rs generalizing k i with
  | nil => simp at hi
  | cons r rs ih =>
    rw [List.take_succ_cons, encodeAll_cons, List.length_append, intact]
    split_ifs with fits
    · cases i with
      | zero => simpa using fits
      | succ i =>
        have later : i < rs.length := by simpa using hi
        rw [List.length_cons, Nat.succ_lt_succ_iff, ih _ _ later]
        omega
    · simp only [List.length_nil, Nat.not_lt_zero, false_iff]
      omega

/-- Cutting a stream keeps its intact records and a proper prefix of the next one. -/
theorem take_encodeAll (k : ℕ) (rs : List ρ) :
    ∃ torn, (C.encodeAll rs).take k = C.encodeAll (C.intact k rs) ++ torn ∧
      (torn = [] ∨ ∃ r ∈ rs, torn <+: C.encode r ∧ torn ≠ C.encode r) := by
  induction rs generalizing k with
  | nil => exact ⟨[], by simp [intact], .inl rfl⟩
  | cons r rs ih =>
    rw [encodeAll_cons, intact]
    split_ifs with fits
    · obtain ⟨torn, cut, kind⟩ := ih (k - (C.encode r).length)
      refine ⟨torn, ?_, kind.imp_right ?_⟩
      · rw [List.take_append, List.take_of_length_le fits, cut, encodeAll_cons,
          List.append_assoc]
      · rintro ⟨r', mem, proper⟩
        exact ⟨r', List.mem_cons_of_mem _ mem, proper⟩
    · have short : k ≤ (C.encode r).length := by omega
      refine ⟨(C.encode r).take k, ?_, .inr ⟨r, by simp, List.take_prefix _ _, ?_⟩⟩
      · rw [List.take_append_of_le_length short]
        rfl
      · intro full
        have := congrArg List.length full
        simp only [List.length_take] at this
        omega

/-- Records that fit the format are read back whatever follows them, and no proper prefix of one
is taken for a record. -/
structure Lawful (Fits : ρ → Prop) (view : ρ → ν) : Prop where
  decode_nil : C.decode [] = .ok none
  decode_encode : ∀ r s, Fits r → C.decode (C.encode r ++ s) = .ok (some (view r, s))
  decode_cut : ∀ r p, Fits r → p <+: C.encode r → p ≠ C.encode r → C.decode p = .ok none

section Lawful
variable {C} {Fits : ρ → Prop} {view : ρ → ν} (law : C.Lawful Fits view)
include law

theorem Lawful.decodeAll_encodeAll_append (rs : List ρ) (s : List α) (h : ∀ r ∈ rs, Fits r) :
    C.decodeAll (C.encodeAll rs ++ s) =
      (rs.map view ++ (C.decodeAll s).1, (C.decodeAll s).2) := by
  induction rs with
  | nil => simp
  | cons r rs ih =>
    rw [encodeAll_cons, List.append_assoc,
      C.decodeAll_some _ _ _ (law.decode_encode r _ (h r (by simp))),
      ih (fun r' mem => h r' (List.mem_cons_of_mem r mem))]
    rfl

theorem Lawful.decodeAll_encodeAll (rs : List ρ) (h : ∀ r ∈ rs, Fits r) :
    C.decodeAll (C.encodeAll rs) = (rs.map view, none) := by
  have := law.decodeAll_encodeAll_append rs [] h
  simpa [C.decodeAll_none [] law.decode_nil] using this

/-- What a cut leaves of a record is too short to decode. -/
theorem Lawful.decode_torn (torn : List α)
    (kind : torn = [] ∨ ∃ r, Fits r ∧ torn <+: C.encode r ∧ torn ≠ C.encode r) :
    C.decode torn = .ok none := by
  obtain rfl | ⟨r, fits, proper, ne⟩ := kind
  · exact law.decode_nil
  · exact law.decode_cut r torn fits proper ne

theorem Lawful.decodeAll_torn (rs : List ρ) (torn : List α) (h : ∀ r ∈ rs, Fits r)
    (kind : torn = [] ∨ ∃ r, Fits r ∧ torn <+: C.encode r ∧ torn ≠ C.encode r) :
    C.decodeAll (C.encodeAll rs ++ torn) = (rs.map view, none) := by
  rw [law.decodeAll_encodeAll_append rs torn h, C.decodeAll_none torn (law.decode_torn torn kind),
    List.append_nil]

/-- A cut stream scans to its intact records, without an error. -/
theorem Lawful.decodeAll_take (rs : List ρ) (k : ℕ) (h : ∀ r ∈ rs, Fits r) :
    C.decodeAll ((C.encodeAll rs).take k) = ((C.intact k rs).map view, none) := by
  obtain ⟨torn, cut, kind⟩ := C.take_encodeAll k rs
  rw [cut]
  apply law.decodeAll_torn
  · intro r mem
    exact h r ((C.intact_initial k rs).subset mem)
  · exact kind.imp_right fun ⟨r, mem, proper⟩ => ⟨r, h r mem, proper⟩

/-- One record taken off the front of a stream. -/
def Takes (s : List α) (v : ν) (rest : List α) : Prop := C.decode s = .ok (some (v, rest))

theorem Lawful.run_encodeAll_append (rs : List ρ) (s : List α) (h : ∀ r ∈ rs, Fits r) :
    Run C.Takes (C.encodeAll rs ++ s) (rs.map view) s := by
  induction rs with
  | nil => exact .nil
  | cons r rs ih =>
    rw [encodeAll_cons, List.append_assoc, List.map_cons, Run.cons_iff]
    refine ⟨C.encodeAll rs ++ s, law.decode_encode r _ (h r (by simp)), ih ?_⟩
    intro r' mem
    exact h r' (List.mem_cons_of_mem r mem)

/-- Record by record, a cut stream gives its intact records and then ends. -/
theorem Lawful.run_take (rs : List ρ) (k : ℕ) (h : ∀ r ∈ rs, Fits r) :
    ∃ torn, (C.encodeAll rs).take k = C.encodeAll (C.intact k rs) ++ torn ∧
      Run C.Takes ((C.encodeAll rs).take k) ((C.intact k rs).map view) torn ∧
      C.decode torn = .ok none := by
  obtain ⟨torn, cut, kind⟩ := C.take_encodeAll k rs
  have fits : ∀ r ∈ C.intact k rs, Fits r :=
    fun r mem => h r ((C.intact_initial k rs).subset mem)
  refine ⟨torn, cut, ?_, ?_⟩
  · rw [cut]
    exact law.run_encodeAll_append (C.intact k rs) torn fits
  · apply law.decode_torn
    exact kind.imp_right fun ⟨r, mem, proper⟩ => ⟨r, h r mem, proper⟩

/-- The front of a stream of records is too short for the next record, or starts with it. -/
theorem Lawful.decode_front (rs : List ρ) (s future : List α) (h : ∀ r ∈ rs, Fits r)
    (stream : s ++ future = C.encodeAll rs) :
    (C.decode s = .ok none ∧ (future = [] → rs = [])) ∨
      ∃ r rs' rest, rs = r :: rs' ∧ C.decode s = .ok (some (view r, rest)) ∧
        rest ++ future = C.encodeAll rs' := by
  cases rs with
  | nil =>
    obtain ⟨rfl, -⟩ := List.append_eq_nil_iff.mp stream
    exact .inl ⟨law.decode_nil, fun _ => rfl⟩
  | cons r rs =>
    have fits := h r (by simp)
    rw [encodeAll_cons, List.append_eq_append_iff] at stream
    obtain ⟨ahead, whole, behind⟩ | ⟨rest, rfl, behind⟩ := stream
    · cases ahead with
      | nil =>
        have all : C.encode r ++ [] = s := by simpa using whole
        refine .inr ⟨r, rs, [], rfl, ?_, by simpa using behind⟩
        rw [← all, law.decode_encode r [] fits]
      | cons a ahead =>
        have proper : s ≠ C.encode r := by simp [whole]
        refine .inl ⟨law.decode_cut r s fits ⟨_, whole.symm⟩ proper, ?_⟩
        intro nothing
        simp [nothing] at behind
    · exact .inr ⟨r, rs, rest, rfl, law.decode_encode r rest fits, behind.symm⟩

end Lawful
end Codec
end TinyKeeper
