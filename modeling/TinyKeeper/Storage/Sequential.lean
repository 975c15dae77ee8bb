import TinyKeeper.Storage.Timeline

/-! Sequential names. The number at the end of a name is the number of children that were made and
removed since the parent was made, so it grows as long as the parent stays. -/
namespace TinyKeeper

/-- The path that a sequential create below `q` asks for, and the path that it makes. -/
def Change.sequentialUnder (q : String) : Change → Option (String × String)
  | .created req path =>
    if isSequential req.flags ∧ (parentOf path).map Prod.fst = some q then some (req.path, path)
    else none
  | _ => none

def sequentialUnder (q : String) (trace : List Change) : List (String × String) :=
  trace.filterMap (Change.sequentialUnder q)

/-- The second path is the first with the number `k`. -/
def Numbered (k : ℕ) (x : String × String) : Prop := x.2 = x.1 ++ formatSeq (Int32.ofNat k)

/-- The paths are numbered in order, with numbers below `bound`. -/
structure NumberedBelow (bound : ℕ) (xs : List (String × String)) : Prop where
  below : ∀ x ∈ xs, ∃ k < bound, Numbered k x
  ordered : xs.Pairwise fun x y => ∃ k k', k < k' ∧ k' < bound ∧ Numbered k x ∧ Numbered k' y

namespace Numbered
variable {k k' : ℕ} {x y : String × String}

theorem small_width {k : ℕ} (small : k < 2 ^ 31) : k < 10 ^ 10 := small.trans (by decide)

theorem digits (h : Numbered k x) (small : k < 2 ^ 31) : ∃ digits : List Char,
    digits.length = 10 ∧ (∀ d ∈ digits, d.isDigit) ∧ x.2 = x.1 ++ String.ofList digits :=
  ⟨padded 10 k, length_padded (by decide) (small_width small),
    fun _ mem => isDigit_of_mem_padded mem, by rw [h, formatSeq_ofNat small]⟩

/-- The last ten digits tell the number. -/
theorem unique {path stem stem' : String} (small : k < 2 ^ 31) (small' : k' < 2 ^ 31)
    (h : Numbered k (stem, path)) (h' : Numbered k' (stem', path)) : k = k' := by
  have same : stem ++ formatSeq (Int32.ofNat k) = stem' ++ formatSeq (Int32.ofNat k') :=
    h.symm.trans h'
  rw [formatSeq_ofNat small, formatSeq_ofNat small', ← String.toList_inj, String.toList_append,
    String.toList_append, String.toList_ofList, String.toList_ofList] at same
  apply padded_injective
  apply List.append_inj_right' same
  rw [length_padded (by decide) (small_width small), length_padded (by decide) (small_width small')]

/-- A smaller number comes first. -/
theorem lt (h : Numbered k x) (h' : Numbered k' y) (stem : x.1 = y.1) (less : k < k')
    (small : k' < 2 ^ 31) : x.2 < y.2 := by
  rw [h, h', stem, formatSeq_ofNat small, formatSeq_ofNat (less.trans small), String.lt_iff,
    String.toList_append, String.toList_append, String.toList_ofList, String.toList_ofList]
  apply List.append_left_lt
  exact padded_lt (by decide) less (small_width small)

end Numbered

namespace NumberedBelow
variable {bound bound' : ℕ} {xs : List (String × String)}

theorem nil (bound : ℕ) : NumberedBelow bound [] := ⟨by simp, .nil⟩

theorem mono (h : NumberedBelow bound xs) (more : bound ≤ bound') : NumberedBelow bound' xs where
  below x mem := by
    obtain ⟨k, less, numbered⟩ := h.below x mem
    exact ⟨k, less.trans_le more, numbered⟩
  ordered := h.ordered.imp fun ⟨k, k', less, small, numbered, numbered'⟩ =>
    ⟨k, k', less, small.trans_le more, numbered, numbered'⟩

/-- The next number goes to the end. -/
theorem concat (h : NumberedBelow bound xs) {x : String × String} (next : Numbered bound x) :
    NumberedBelow (bound + 1) (xs ++ [x]) where
  below y mem := by
    obtain mem | mem := List.mem_append.mp mem
    · exact (h.mono (Nat.le_succ bound)).below y mem
    · rw [List.mem_singleton.mp mem]
      exact ⟨bound, Nat.lt_succ_self bound, next⟩
  ordered := by
    refine List.pairwise_append.mpr
      ⟨(h.mono (Nat.le_succ bound)).ordered, List.pairwise_singleton _ x, fun y mem z last => ?_⟩
    obtain ⟨k, less, numbered⟩ := h.below y mem
    rw [List.mem_singleton.mp last]
    exact ⟨k, bound, less, Nat.lt_succ_self bound, numbered, next⟩

end NumberedBelow

section Runs
variable {zxid : ℕ} {m m' : Table String Node} {c : Change} {trace : List Change} {q : String}

/-- A node that is not removed stays, and its counter does not go back. -/
theorem TreeStep.keeps (h : TreeStep zxid m c m') (trace : List Change) (there : m.get q ≠ none)
    (kept : c.removes ≠ some q) :
    m'.get q ≠ none ∧ childChanges q trace ≤ childChanges q (trace ++ [c]) := by
  have step := h.node q
  obtain ⟨n, there⟩ := Option.ne_none_iff_exists'.mp there
  rw [there] at step
  obtain ⟨n', after, -⟩ := step.evolves_of_stays kept
  refine ⟨by simp [after], changesSince_le fun c' mem => ?_⟩
  rw [List.mem_singleton.mp mem]
  exact step.not_creates

/-- A child counts for its parent. -/
theorem TreeStep.childChanges_of_creates (h : TreeStep zxid m c m') (trace : List Change)
    {p name : String} (this : c.creates = some p) (split : parentOf p = some (q, name)) :
    m.get q ≠ none ∧ childChanges q (trace ++ [c]) = childChanges q trace + 1 := by
  obtain ⟨parent, below, other⟩ := h.of_creates this split
  have elsewhere : c.creates ≠ some q := fun same => other (Option.some.inj (same.symm.trans this))
  refine ⟨parent, ?_⟩
  rw [childChanges, changesSince_concat, if_neg elsewhere, if_pos below]

theorem Change.of_sequentialUnder {x : String × String} (h : c.sequentialUnder q = some x) :
    ∃ req name, c = .created req x.2 ∧ x.1 = req.path ∧ isSequential req.flags ∧
      parentOf x.2 = some (q, name) := by
  cases c with
  | created req path =>
    rw [sequentialUnder] at h
    split_ifs at h with this
    obtain ⟨⟨p, name⟩, split, rfl⟩ := Option.map_eq_some_iff.mp this.2
    rw [← Option.some.inj h]
    exact ⟨req, name, rfl, rfl, this.1, split⟩
  | _ => cases h

/-- A sequential create takes the counter of its parent. -/
theorem TreeStep.numbered (counted : Counted trace m) {req : CreateRequest} {path name : String}
    (h : TreeStep zxid m (.created req path) m') (sequential : isSequential req.flags)
    (split : parentOf path = some (q, name)) :
    Numbered (childChanges q trace) (req.path, path) := by
  cases h with
  | created asked split' name_ne parent persistent suffixed absent fresh =>
    cases split'.symm.trans split
    rw [createdPath, if_pos sequential, (counted _ _ parent).2] at suffixed
    exact suffixed

/-- As long as `q` is not removed, the sequential creates below it are numbered in order. -/
theorem numbered_of_run {intervalMs : Int} {before life : List Change}
    (start : Run TreeChange (KeeperStorage.new intervalMs).map before m)
    (h : Run TreeChange m life m') (stays : ∀ c ∈ life, c.removes ≠ some q) :
    NumberedBelow (childChanges q (before ++ life)) (sequentialUnder q life) ∧
      (sequentialUnder q life ≠ [] → m'.get q ≠ none) := by
  induction h with
  | nil => exact ⟨.nil _, fun some => absurd rfl some⟩
  | @snoc life t c u init last ih =>
    obtain ⟨numbered, stored⟩ := ih fun c mem => stays c (List.mem_append_left _ mem)
    have kept : c.removes ≠ some q := stays c (by simp)
    obtain ⟨zxid, last⟩ := last
    have counted := counted_of_run (start.trans init)
    rw [sequentialUnder, List.filterMap_append, ← sequentialUnder, ← List.append_assoc]
    cases here : c.sequentialUnder q with
    | none =>
      rw [List.filterMap_cons_none here, List.filterMap_nil, List.append_nil]
      by_cases empty : sequentialUnder q life = []
      · rw [empty]
        exact ⟨.nil _, fun some => absurd rfl some⟩
      · obtain ⟨there, grows⟩ := last.keeps (before ++ life) (stored empty) kept
        exact ⟨numbered.mono grows, fun _ => there⟩
    | some x =>
      obtain ⟨req, name, rfl, stem, sequential, split⟩ := Change.of_sequentialUnder here
      obtain ⟨there, count⟩ := last.childChanges_of_creates (before ++ life) rfl split
      have next : Numbered (childChanges q (before ++ life)) x := by
        rw [Numbered, stem]
        exact last.numbered counted sequential split
      rw [List.filterMap_cons_some here, List.filterMap_nil, count]
      obtain ⟨there, -⟩ := last.keeps (before ++ life) there kept
      exact ⟨numbered.concat next, fun _ => there⟩

/-- A create that is not sequential made the name with the number `k` when `q` had not counted up to
it, and the node still stands. -/
def StandsAhead (q stem : String) (k : ℕ) (trace : List Change) : Prop :=
  ∃ before req after, trace = before ++ .created req (stem ++ formatSeq (Int32.ofNat k)) :: after ∧
    ¬ isSequential req.flags ∧ childChanges q before < k ∧
    ∀ c ∈ after, c.removes ≠ some (stem ++ formatSeq (Int32.ofNat k))

/-- The numbers in the stored names below `q` are behind its counter, or run ahead of it. -/
def NumbersBehind (q : String) (trace : List Change) (m : Table String Node) : Prop :=
  ∀ stem name k, parentOf stem = some (q, name) → name ≠ "" → k < 2 ^ 31 →
    m.get (stem ++ formatSeq (Int32.ofNat k)) ≠ none →
    m.get q ≠ none ∧ (k < childChanges q trace ∨ StandsAhead q stem k trace)

theorem NumbersBehind.step (behind : NumbersBehind q trace m) (counted : Counted trace m)
    (h : TreeStep zxid m c m') : NumbersBehind q (trace ++ [c]) m' := by
  intro stem name k split name_ne small stored
  let path := stem ++ formatSeq (Int32.ofNat k)
  have below : parentOf path = some (q, name ++ formatSeq (Int32.ofNat k)) :=
    parentOf_append _ split (not_slash_mem_formatSeq _)
  by_cases old : m.get path = none
  · have step := h.node path
    obtain ⟨n, made⟩ := Option.ne_none_iff_exists'.mp stored
    rw [old, made] at step
    have creates := step.made_of_none.1
    obtain ⟨parent, count⟩ := h.childChanges_of_creates trace creates below
    obtain ⟨there, -⟩ := h.keeps trace parent (by simp [Change.removes_of_creates creates])
    refine ⟨there, ?_⟩
    by_cases late : childChanges q trace < k
    · cases c with
      | created req path' =>
        obtain rfl : path' = path := Option.some.inj creates
        by_cases sequential : isSequential req.flags
        · have numbered := h.numbered counted sequential below
          exact absurd (numbered.unique (late.trans small) small rfl) late.ne
        · exact .inr ⟨trace, req, [], rfl, sequential, late, by simp⟩
      | _ => cases creates
    · rw [count]
      exact .inl (Nat.lt_succ_of_le (Nat.le_of_not_lt late))
  · obtain ⟨parent, number⟩ := behind stem name k split name_ne small old
    have kept : c.removes ≠ some q := by
      intro removes
      refine (h.of_removes removes).2 path _ old (parentOf_ne_root below ?_) below
      simp [name_ne]
    obtain ⟨there, grows⟩ := h.keeps trace parent kept
    refine ⟨there, number.imp (fun late => late.trans_le grows) ?_⟩
    rintro ⟨before, req, after, rfl, sequential, late, stays⟩
    refine ⟨before, req, after ++ [c], by simp, sequential, late, fun c' mem removes => ?_⟩
    obtain mem | mem := List.mem_append.mp mem
    · exact stays c' mem removes
    · rw [List.mem_singleton.mp mem] at removes
      exact stored (h.removes_get removes).2

theorem numbersBehind_of_run {intervalMs : Int}
    (h : Run TreeChange (KeeperStorage.new intervalMs).map trace m) :
    NumbersBehind q trace m := by
  induction h with
  | nil =>
    intro stem name k split name_ne small stored
    rw [KeeperStorage.new_get] at stored
    have below := parentOf_append _ split (not_slash_mem_formatSeq (Int32.ofNat k))
    split_ifs at stored with root
    · have empty := (parentOf_det parentOf_root (root ▸ below)).2
      simp [name_ne] at empty
    · exact absurd rfl stored
  | @snoc trace t c u init last ih =>
    obtain ⟨zxid, last⟩ := last
    exact ih.step (counted_of_run init) last

theorem TreeStep.creates_get (h : TreeStep zxid m c m') {p : String} (this : c.creates = some p) :
    m'.get p ≠ none := by
  intro gone
  have step := h.node p
  rw [gone] at step
  generalize m.get p = o at step
  cases step with
  | gone removes => simp [Change.removes_of_creates this] at removes
  | same elsewhere creates sets removes => exact creates this

/-- What a run makes and does not remove is there at its end. -/
theorem stored_of_created {path : String} {req : CreateRequest}
    (h : Run TreeChange m (.created req path :: trace) m')
    (stays : ∀ c ∈ trace, c.removes ≠ some path) : m'.get path ≠ none := by
  obtain ⟨t, ⟨zxid, first⟩, rest⟩ := Run.cons_iff.mp h
  have made := first.creates_get rfl
  clear h first
  induction rest with
  | nil => exact made
  | @snoc trace t' c u init last ih =>
    obtain ⟨zxid, last⟩ := last
    have there := ih fun c mem => stays c (List.mem_append_left _ mem)
    exact (last.keeps [] there (stays c (by simp))).1

/-- The next sequential name is free unless a name that ran ahead of the counter stands there. -/
theorem next_free_iff {intervalMs : Int}
    (h : Run TreeChange (KeeperStorage.new intervalMs).map trace m) {path name : String} {n : Node}
    (split : parentOf path = some (q, name)) (name_ne : name ≠ "") (parent : m.get q = some n)
    (few : childChanges q trace < 2 ^ 31) : m.get (path ++ formatSeq n.stat.cversion) = none ↔
      ¬ StandsAhead q path (childChanges q trace) trace := by
  rw [(counted_of_run h q n parent).2]
  constructor
  · rintro free ⟨before, req, after, here, -, -, stays⟩
    rw [here] at h
    obtain ⟨t, -, rest⟩ := h.append_split
    exact stored_of_created rest stays free
  · intro clear
    by_contra stored
    obtain late | ahead := (numbersBehind_of_run h path name _ split name_ne few stored).2
    · exact Nat.lt_irrefl _ late
    · exact clear ahead

end Runs
end TinyKeeper
