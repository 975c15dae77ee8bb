import Mathlib.Logic.Function.Iterate
import TinyKeeper.Lib.Run

/-! Cells that carry a version, changed on condition of it. Over any run a version counts the
changes since its cell was created, so no two of these changes can have expected the same one. -/
namespace TinyKeeper
variable {κ V : Type*}

/-- What happens to a cell, with the version that was expected of it, if any was. -/
inductive CellEvent (κ V : Type*)
  | created (k : κ)
  | set (k : κ) (expected : Option V)
  | removed (k : κ) (expected : Option V)
  | checked (k : κ) (expected : Option V)

/-- A version of a cell was expected. -/
def CellEvent.Expects (k : κ) (e : V) : CellEvent κ V → Prop
  | .created _ => False
  | .set k' expected | .removed k' expected | .checked k' expected =>
    k' = k ∧ expected = some e

section Counts
variable {first : V} {next : V → V}

/-- The versions are the numbers of changes, and each change expected the version it met. -/
structure Counts (first : V) (next : V → V) (lives : κ → Option (List (Option V)))
    (v : κ → Option V) : Prop where
  version : ∀ k, v k = (lives k).map fun seen => next^[seen.length] first
  met : ∀ k seen, lives k = some seen → ∀ (i : ℕ) e, seen[i]? = some (some e) →
    e = next^[i] first

namespace Counts
variable {lives : κ → Option (List (Option V))} {v : κ → Option V}

/-- A version that is expected of a cell is the number of its changes. -/
theorem expected (h : Counts first next lives v) {k : κ} {n e : V} (stored : v k = some n)
    (met : e = n) : ∃ seen, lives k = some seen ∧ e = next^[seen.length] first := by
  rw [h.version k] at stored
  obtain ⟨seen, there, rfl⟩ := Option.map_eq_some_iff.mp stored
  exact ⟨seen, there, met⟩

/-- At most one change of a cell expected a given version, as long as versions do not repeat. -/
theorem unique (h : Counts first next lives v) {k : κ} {seen : List (Option V)}
    (life : lives k = some seen)
    (distinct : ∀ i < seen.length, ∀ j < seen.length, next^[i] first = next^[j] first → i = j)
    {e : V} {i j : ℕ} (hi : seen[i]? = some (some e)) (hj : seen[j]? = some (some e)) : i = j := by
  obtain ⟨inside_i, -⟩ := List.getElem?_eq_some_iff.mp hi
  obtain ⟨inside_j, -⟩ := List.getElem?_eq_some_iff.mp hj
  have same := (h.met k seen life i e hi).symm.trans (h.met k seen life j e hj)
  exact distinct i inside_i j inside_j same

end Counts
end Counts

section Cells
variable [DecidableEq κ] {first : V} {next : V → V}

/-- The cells go by their versions; an absent cell has none. -/
inductive CellStep (first : V) (next : V → V) (v : κ → Option V) :
    CellEvent κ V → (κ → Option V) → Prop
  | created {k : κ} (absent : v k = none) :
      CellStep first next v (.created k) (Function.update v k (some first))
  | set {k : κ} {expected : Option V} {n : V} (stored : v k = some n)
      (met : ∀ e, expected = some e → e = n) :
      CellStep first next v (.set k expected) (Function.update v k (some (next n)))
  | removed {k : κ} {expected : Option V} {n : V} (stored : v k = some n)
      (met : ∀ e, expected = some e → e = n) :
      CellStep first next v (.removed k expected) (Function.update v k none)
  | checked {k : κ} {expected : Option V} {n : V} (stored : v k = some n)
      (met : ∀ e, expected = some e → e = n) :
      CellStep first next v (.checked k expected) v

/-- What each cell has seen since it was created: what its changes expected, in order. -/
def extendLives (lives : κ → Option (List (Option V))) :
    CellEvent κ V → κ → Option (List (Option V))
  | .created k => Function.update lives k (some [])
  | .set k expected => Function.update lives k ((lives k).map (· ++ [expected]))
  | .removed k _ => Function.update lives k none
  | .checked _ _ => lives

def livesAfter (lives : κ → Option (List (Option V))) (trace : List (CellEvent κ V)) :
    κ → Option (List (Option V)) := trace.foldl extendLives lives

@[simp] theorem livesAfter_concat (lives : κ → Option (List (Option V)))
    (trace : List (CellEvent κ V)) (x : CellEvent κ V) :
    livesAfter lives (trace ++ [x]) = extendLives (livesAfter lives trace) x := by
  simp [livesAfter]

namespace Counts
variable {lives : κ → Option (List (Option V))} {v v' : κ → Option V}

theorem of_update (h : Counts first next lives v) {k : κ} {version : Option V}
    {life : Option (List (Option V))} (same : version = life.map fun seen => next^[seen.length] first)
    (met : ∀ seen, life = some seen → ∀ (i : ℕ) e, seen[i]? = some (some e) →
      e = next^[i] first) :
    Counts first next (Function.update lives k life) (Function.update v k version) := by
  refine ⟨fun k' => ?_, fun k' => ?_⟩
  · by_cases here : k' = k
    · subst here
      rw [Function.update_self, Function.update_self, same]
    · rw [Function.update_of_ne here, Function.update_of_ne here, h.version k']
  · by_cases here : k' = k
    · subst here
      rw [Function.update_self]
      exact met
    · rw [Function.update_of_ne here]
      exact h.met k'

theorem step (h : Counts first next lives v) {x : CellEvent κ V}
    (last : CellStep first next v x v') : Counts first next (extendLives lives x) v' := by
  cases last with
  | created absent =>
    refine h.of_update rfl ?_
    rintro seen ⟨⟩ i e there
    cases there
  | @set k expected n stored met =>
    rw [h.version k] at stored
    obtain ⟨seen, there, rfl⟩ := Option.map_eq_some_iff.mp stored
    refine h.of_update ?_ ?_
    · rw [there, Option.map_some, Option.map_some, List.length_append, List.length_singleton,
        Function.iterate_succ_apply']
    · rw [there]
      rintro seen' ⟨⟩ i e at_i
      obtain inside | rfl | outside := Nat.lt_trichotomy i seen.length
      · rw [List.getElem?_append_left inside] at at_i
        exact h.met k seen there i e at_i
      · rw [List.getElem?_concat_length] at at_i
        exact met e (Option.some.inj at_i)
      · rw [List.getElem?_eq_none (by simp; omega)] at at_i
        cases at_i
  | removed stored met =>
    refine h.of_update rfl ?_
    rintro seen ⟨⟩
  | checked stored met => exact h

theorem run (h : Counts first next lives v) {trace : List (CellEvent κ V)}
    (path : Run (CellStep first next) v trace v') :
    Counts first next (livesAfter lives trace) v' := by
  induction path with
  | nil => exact h
  | snoc _ last ih =>
    rw [livesAfter_concat]
    exact ih.step last

/-- What an event of the run expected is the number of changes of its cell at that point. -/
theorem expected_of_run (h : Counts first next lives v) {before after : List (CellEvent κ V)}
    {x : CellEvent κ V} (path : Run (CellStep first next) v (before ++ x :: after) v') {k : κ}
    {e : V} (expects : x.Expects k e) :
    ∃ seen, livesAfter lives before k = some seen ∧ e = next^[seen.length] first := by
  obtain ⟨u, init, rest⟩ := path.append_split
  obtain ⟨w, last, -⟩ := Run.cons_iff.mp rest
  have counts := h.run init
  cases last with
  | created absent => cases expects
  | set stored met =>
    obtain ⟨rfl, here⟩ := expects
    exact counts.expected stored (met e here)
  | removed stored met =>
    obtain ⟨rfl, here⟩ := expects
    exact counts.expected stored (met e here)
  | checked stored met =>
    obtain ⟨rfl, here⟩ := expects
    exact counts.expected stored (met e here)

end Counts
end Cells
end TinyKeeper
