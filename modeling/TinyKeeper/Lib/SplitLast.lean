import Mathlib.Data.List.Basic

/-! Splitting at the last separator: the list function, and the string function built on it. -/
namespace TinyKeeper
variable {α : Type*} [DecidableEq α]

/-- What stands before and after the last `sep`; `none` when there is no `sep`. -/
def splitLast (sep : α) : List α → Option (List α × List α)
  | [] => none
  | x :: xs =>
    match splitLast sep xs with
    | some (p, c) => some (x :: p, c)
    | none => if x = sep then some ([], xs) else none

theorem splitLast_eq_none_iff (sep : α) (l : List α) : splitLast sep l = none ↔ sep ∉ l := by
  induction l with
  | nil => simp [splitLast]
  | cons x xs ih =>
    cases h : splitLast sep xs with
    | some pc =>
      have hm : sep ∈ xs := by
        by_contra hn
        rw [ih.mpr hn] at h
        contradiction
      simp [splitLast, h, hm]
    | none => simp [splitLast, h, ih.mp h, eq_comm]

theorem splitLast_append (sep : α) (p c : List α) (h : sep ∉ c) :
    splitLast sep (p ++ sep :: c) = some (p, c) := by
  induction p with
  | nil => simp [splitLast, (splitLast_eq_none_iff sep c).mpr h]
  | cons x p ih => simp [splitLast, ih]

/-- The split is the one decomposition whose second part is free of the separator. -/
theorem splitLast_eq_some_iff (sep : α) (l p c : List α) :
    splitLast sep l = some (p, c) ↔ l = p ++ sep :: c ∧ sep ∉ c := by
  constructor
  · intro h
    induction l generalizing p with
    | nil => simp [splitLast] at h
    | cons x xs ih =>
      cases hs : splitLast sep xs with
      | some pc =>
        obtain ⟨q, d⟩ := pc
        simp only [splitLast, hs, Option.some.injEq, Prod.mk.injEq] at h
        obtain ⟨rfl, rfl⟩ := h
        obtain ⟨rfl, hd⟩ := ih q hs
        exact ⟨rfl, hd⟩
      | none =>
        have hn := (splitLast_eq_none_iff sep xs).mp hs
        simp only [splitLast, hs] at h
        split at h
        · rename_i hx
          simp only [Option.some.injEq, Prod.mk.injEq] at h
          obtain ⟨rfl, rfl⟩ := h
          exact ⟨by simp [hx], hn⟩
        · contradiction
  · rintro ⟨rfl, hc⟩
    exact splitLast_append sep p c hc

/-- The string version, as `rsplit_once` computes it for a one-character separator. -/
def rsplitOnce (sep : Char) (s : String) : Option (String × String) :=
  (splitLast sep s.toList).map fun pc => (String.ofList pc.1, String.ofList pc.2)

theorem rsplitOnce_eq_some_iff (sep : Char) (s p c : String) :
    rsplitOnce sep s = some (p, c) ↔
      s.toList = p.toList ++ sep :: c.toList ∧ sep ∉ c.toList := by
  rw [← splitLast_eq_some_iff]
  simp only [rsplitOnce, Option.map_eq_some_iff, Prod.mk.injEq]
  constructor
  · rintro ⟨⟨q, d⟩, h, rfl, rfl⟩
    simpa using h
  · intro h
    exact ⟨_, h, by simp, by simp⟩

/-- Text without a separator, added at the end, goes to the second part. -/
theorem rsplitOnce_append (sep : Char) {s p c : String} (t : String)
    (h : rsplitOnce sep s = some (p, c)) (ht : sep ∉ t.toList) :
    rsplitOnce sep (s ++ t) = some (p, c ++ t) := by
  rw [rsplitOnce_eq_some_iff] at h ⊢
  obtain ⟨hs, hc⟩ := h
  simp [String.toList_append, hs, hc, ht]

end TinyKeeper
