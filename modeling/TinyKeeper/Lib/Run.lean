import Mathlib.Algebra.BigOperators.Group.List.Basic
import Mathlib.Algebra.Order.Ring.Nat
import Mathlib.Data.List.Infix

/-! Runs of a labelled transition relation: the rule for invariants, and the rule that turns a
condition on single steps into the exact condition on whole runs. -/
namespace TinyKeeper
variable {σ ε : Type*}

/-- The runs from `s`, with their labels in order. -/
inductive Run (Step : σ → ε → σ → Prop) (s : σ) : List ε → σ → Prop
  | nil : Run Step s [] s
  | snoc {es t e u} (init : Run Step s es t) (last : Step t e u) : Run Step s (es ++ [e]) u

namespace Run
variable {Step : σ → ε → σ → Prop} {s : σ}

theorem single {e : ε} {t : σ} (h : Step s e t) : Run Step s [e] t := snoc nil h

theorem trans {es fs : List ε} {t u : σ} (h : Run Step s es t) (h' : Run Step t fs u) :
    Run Step s (es ++ fs) u := by
  induction h' with
  | nil => simpa using h
  | snoc _ last ih =>
    rw [← List.append_assoc]
    exact snoc ih last

/-- What holds at the start and is kept by every step holds in every state a run reaches. -/
theorem invariant (I : σ → Prop) (start : I s)
    (step : ∀ t e u, I t → Step t e u → I u) {es : List ε} {t : σ} (h : Run Step s es t) : I t := by
  induction h with
  | nil => exact start
  | snoc _ last ih => exact step _ _ _ ih last

theorem mono {Step' : σ → ε → σ → Prop} (sub : ∀ t e u, Step t e u → Step' t e u)
    {es : List ε} {t : σ} (h : Run Step s es t) : Run Step' s es t := by
  induction h with
  | nil => exact nil
  | snoc _ last ih => exact snoc ih (sub _ _ _ last)

/-- A run may use what holds of all its labels in every step. -/
theorem restrict {P : ε → Prop} {es : List ε} {t : σ} (h : Run Step s es t)
    (all : ∀ e ∈ es, P e) : Run (fun t e u => Step t e u ∧ P e) s es t := by
  induction h with
  | nil => exact nil
  | @snoc es t e u init last ih =>
    have before : ∀ e ∈ es, P e := fun e mem => all e (List.mem_append_left _ mem)
    exact snoc (ih before) ⟨last, all e (by simp)⟩

/-- Every label of a run is that of a step. -/
theorem mem_step {es : List ε} {t : σ} (h : Run Step s es t) {e : ε} (mem : e ∈ es) :
    ∃ u v, Step u e v := by
  induction h with
  | nil => cases mem
  | snoc init last ih =>
    obtain mem | mem := List.mem_append.mp mem
    · exact ih mem
    · cases List.mem_singleton.mp mem
      exact ⟨_, _, last⟩

/-- A run seen through a function on its states. -/
theorem map {τ φ : Type*} {Step' : τ → φ → τ → Prop} (f : σ → τ) (g : ε → φ)
    (sim : ∀ t e u, Step t e u → Step' (f t) (g e) (f u)) {es : List ε} {t : σ}
    (h : Run Step s es t) : Run Step' (f s) (es.map g) (f t) := by
  induction h with
  | nil => exact nil
  | snoc _ last ih =>
    rw [List.map_append]
    exact snoc ih (sim _ _ _ last)

/-- A refinement: every step is one step of the abstract machine, or none that it can see. -/
theorem refines {τ φ : Type*} {Step' : τ → φ → τ → Prop} (f : σ → τ) (g : ε → Option φ)
    (I : σ → Prop) (start : I s) (keep : ∀ t e u, I t → Step t e u → I u)
    (seen : ∀ t e u a, I t → Step t e u → g e = some a → Step' (f t) a (f u))
    (unseen : ∀ t e u, I t → Step t e u → g e = none → f u = f t) {es : List ε} {t : σ}
    (h : Run Step s es t) : Run Step' (f s) (es.filterMap g) (f t) := by
  induction h with
  | nil => exact nil
  | @snoc es t e u init last ih =>
    have before : I t := init.invariant I start keep
    rw [List.filterMap_append]
    cases label : g e with
    | none =>
      rw [unseen t e u before last label]
      simpa [label] using ih
    | some a =>
      have one : [e].filterMap g = [a] := by simp [label]
      rw [one]
      exact snoc ih (seen t e u a before last label)

/-- A refinement of the steps: every one is a run of the finer machine. -/
theorem expand {τ φ : Type*} {Step' : τ → φ → τ → Prop} (f : σ → τ) (g : ε → List φ)
    (sim : ∀ t e u, Step t e u → Run Step' (f t) (g e) (f u)) {es : List ε} {t : σ}
    (h : Run Step s es t) : Run Step' (f s) (es.flatMap g) (f t) := by
  induction h with
  | nil => exact nil
  | @snoc es t e u init last ih =>
    rw [List.flatMap_append, List.flatMap_singleton]
    exact ih.trans (sim t e u last)

theorem nil_eq {t : σ} (h : Run Step s [] t) : t = s := by
  generalize he : ([] : List ε) = es at h
  cases h with
  | nil => rfl
  | snoc _ _ => simp at he

theorem snoc_split {es : List ε} {e : ε} {u : σ} (h : Run Step s (es ++ [e]) u) :
    ∃ t, Run Step s es t ∧ Step t e u := by
  generalize he : es ++ [e] = fs at h
  cases h with
  | nil => simp at he
  | snoc init last =>
    obtain ⟨rfl, rfl⟩ := List.append_singleton_inj.mp he
    exact ⟨_, init, last⟩

/-- A run over a longer list of labels passes through every prefix of it. -/
theorem append_split {es fs : List ε} {u : σ} (h : Run Step s (es ++ fs) u) :
    ∃ t, Run Step s es t ∧ Run Step t fs u := by
  induction fs using List.reverseRecOn generalizing u with
  | nil => exact ⟨u, by simpa using h, nil⟩
  | append_singleton fs e ih =>
    rw [← List.append_assoc] at h
    obtain ⟨v, hv, last⟩ := snoc_split h
    obtain ⟨t, ht, hf⟩ := ih hv
    exact ⟨t, ht, snoc hf last⟩

theorem cons_iff {e : ε} {es : List ε} {u : σ} :
    Run Step s (e :: es) u ↔ ∃ t, Step s e t ∧ Run Step t es u := by
  constructor
  · intro h
    have split : Run Step s ([e] ++ es) u := h
    obtain ⟨t, first, rest⟩ := append_split split
    have single : Run Step s ([] ++ [e]) t := first
    obtain ⟨s', start, last⟩ := snoc_split single
    cases nil_eq start
    exact ⟨t, last, rest⟩
  · rintro ⟨t, first, rest⟩
    exact (single first).trans rest

/-- If from every state that has a measure left some step makes it smaller, then a run uses it
up. -/
theorem exhaust (I : σ → Prop) (measure : σ → ℕ)
    (go : ∀ t, I t → measure t ≠ 0 → ∃ e u, Step t e u ∧ I u ∧ measure u < measure t) (start : I s) :
    ∃ es t, Run Step s es t ∧ I t ∧ measure t = 0 := by
  induction left : measure s using Nat.strong_induction_on generalizing s with
  | _ n ih =>
    by_cases done : n = 0
    · exact ⟨[], s, nil, start, left.trans done⟩
    · obtain ⟨e, u, first, kept, less⟩ := go s start (left ▸ done)
      obtain ⟨es, t, rest, last, none⟩ := ih (measure u) (left ▸ less) kept rfl
      exact ⟨[e] ++ es, t, (single first).trans rest, last, none⟩

/-- What the labels give is bounded by what they cost and the start had, if every step pays for
what it gives. -/
theorem balance (weight : σ → ℕ) (gain cost : ε → ℕ)
    (pays : ∀ t e u, Step t e u → gain e + weight u ≤ weight t + cost e) {es : List ε} {t : σ}
    (h : Run Step s es t) : (es.map gain).sum + weight t ≤ weight s + (es.map cost).sum := by
  induction h with
  | nil => simp
  | @snoc es t e u _ last ih =>
    have paid := pays t e u last
    simp only [List.map_append, List.sum_append, List.map_singleton, List.sum_singleton]
    omega

section Weight
variable (weight : σ → ℕ) (cost : ε → ℕ)
  (bound : ∀ t e u, Step t e u → weight u ≤ weight t + cost e)
include bound

theorem weight_le {es : List ε} {t : σ} (h : Run Step s es t) :
    weight t ≤ weight s + (es.map cost).sum := by
  have total := balance weight (fun _ => 0) cost (by simpa using bound) h
  omega

/-- A run that gains the whole cost of its labels gains it in every step. -/
theorem full_weight {es : List ε} {t : σ} (h : Run Step s es t)
    (full : weight s + (es.map cost).sum ≤ weight t) :
    Run (fun t e u => Step t e u ∧ weight u = weight t + cost e) s es t := by
  induction h with
  | nil => exact nil
  | @snoc es t e u init last ih =>
    have gain := bound t e u last
    have before := weight_le weight cost bound init
    rw [List.map_append, List.sum_append, List.map_singleton, List.sum_singleton] at full
    exact snoc (ih (by omega)) ⟨last, by omega⟩

end Weight

section Deterministic
variable (det : ∀ t e u v, Step t e u → Step t e v → u = v)
include det

theorem deterministic {es : List ε} {t u : σ} (h : Run Step s es t) (h' : Run Step s es u) :
    t = u := by
  induction h generalizing u with
  | nil => exact (nil_eq h').symm
  | snoc _ last ih =>
    obtain ⟨v, hv, last'⟩ := snoc_split h'
    cases ih hv
    exact det _ _ _ _ last last'

/-- If from a good state a step leads to a good state exactly when it meets `C`, then the states
of a run are all good exactly when all its steps meet `C`. The invariant `I` may be used to
establish the equivalence for one step. -/
theorem all_states_iff_all_steps (I P : σ → Prop) (C : σ → ε → Prop) (hI : I s) (hP : P s)
    (keep : ∀ t e u, I t → Step t e u → I u)
    (exact_step : ∀ t e u, I t → P t → Step t e u → (P u ↔ C t e))
    {es : List ε} {u : σ} (h : Run Step s es u) :
    (∀ fs t, fs <+: es → Run Step s fs t → P t) ↔
      (∀ fs e t, fs ++ [e] <+: es → Run Step s fs t → C t e) := by
  constructor
  · intro all fs e t hp ht
    obtain ⟨rest, rfl⟩ := hp
    obtain ⟨v, hv, _⟩ := append_split h
    obtain ⟨t', ht', last⟩ := snoc_split hv
    cases deterministic det ht ht'
    have good : P t := all fs t ⟨[e] ++ rest, by simp⟩ ht
    exact (exact_step t e v (invariant I hI keep ht) good last).mp (all _ v ⟨rest, rfl⟩ hv)
  · intro all fs t hp ht
    induction ht with
    | nil => exact hP
    | @snoc fs t e v init last ih =>
      have good : P t := ih ((List.prefix_append fs [e]).trans hp)
      exact (exact_step t e v (invariant I hI keep init) good last).mpr (all fs e t hp init)

end Deterministic
end Run
end TinyKeeper
