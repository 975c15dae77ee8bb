import TinyKeeper.Storage.Changes

/-! The stamps of the nodes. Changes under a counter that does not go back keep the stamps of every
node in order, and those of a child between the stamps of its parent. -/
namespace TinyKeeper

/-- The zxids in the stat of a node are in order, and none is above `zxid`. -/
structure Node.Ordered (n : Node) (zxid : ℕ) : Prop where
  modified : n.stat.czxid ≤ n.stat.mzxid
  mzxid_le : n.stat.mzxid ≤ zxid
  changed : n.stat.czxid ≤ n.stat.pzxid
  pzxid_le : n.stat.pzxid ≤ zxid

/-- The node lives on: its origin stays, and its stamps stay or become `zxid`. -/
structure Node.Evolves (n n' : Node) (zxid : ℕ) : Prop where
  czxid : n'.stat.czxid = n.stat.czxid
  ctime : n'.stat.ctime = n.stat.ctime
  owner : n'.stat.ephemeralOwner = n.stat.ephemeralOwner
  mzxid : n'.stat.mzxid = n.stat.mzxid ∨ n'.stat.mzxid = zxid
  pzxid : n'.stat.pzxid = n.stat.pzxid ∨ n'.stat.pzxid = zxid

namespace Node
variable {n n' n'' : Node} {zxid zxid' : ℕ}

theorem Ordered.mono (h : n.Ordered zxid) (later : zxid ≤ zxid') : n.Ordered zxid' :=
  ⟨h.modified, h.mzxid_le.trans later, h.changed, h.pzxid_le.trans later⟩

theorem Fresh.ordered (h : n.Fresh zxid) : n.Ordered zxid := by
  refine ⟨?_, h.mzxid.le, ?_, h.pzxid.le⟩
  · rw [h.czxid, h.mzxid]
  · rw [h.czxid, h.pzxid]

theorem Evolves.refl (n : Node) (zxid : ℕ) : n.Evolves n zxid :=
  ⟨rfl, rfl, rfl, .inl rfl, .inl rfl⟩

theorem Evolves.trans (h : n.Evolves n' zxid) (h' : n'.Evolves n'' zxid) : n.Evolves n'' zxid where
  czxid := h'.czxid.trans h.czxid
  ctime := h'.ctime.trans h.ctime
  owner := h'.owner.trans h.owner
  mzxid := h'.mzxid.elim (fun same => same ▸ h.mzxid) .inr
  pzxid := h'.pzxid.elim (fun same => same ▸ h.pzxid) .inr

/-- A node that evolves under a later zxid stays in order, and its stamps do not go back. -/
theorem Evolves.later (h : n.Evolves n' zxid') (ordered : n.Ordered zxid) (later : zxid ≤ zxid') :
    n.stat.mzxid ≤ n'.stat.mzxid ∧ n.stat.pzxid ≤ n'.stat.pzxid := by
  have mzxid := ordered.mzxid_le
  have pzxid := ordered.pzxid_le
  rcases h.mzxid with m | m <;> rcases h.pzxid with p | p <;> rw [m, p] <;> omega

theorem Evolves.ordered (h : n.Evolves n' zxid') (ordered : n.Ordered zxid)
    (later : zxid ≤ zxid') : n'.Ordered zxid' := by
  obtain ⟨modified, mzxid_le, changed, pzxid_le⟩ := ordered
  have czxid := h.czxid
  constructor <;> rcases h.mzxid with m | m <;> rcases h.pzxid with p | p <;> omega

end Node

section Steps
variable {zxid zxid' : ℕ} {m m' : Table String Node} {c : Change} {p : String} {n n' : Node}

theorem NodeStep.evolves (h : NodeStep zxid c p (some n) (some n')) : n.Evolves n' zxid := by
  cases h with
  | set this data timestamp => exact ⟨rfl, rfl, rfl, .inr rfl, .inl rfl⟩
  | linked below other name => exact ⟨rfl, rfl, rfl, .inl rfl, .inr rfl⟩
  | unlinked below other name => exact ⟨rfl, rfl, rfl, .inl rfl, .inr rfl⟩
  | same elsewhere creates sets removes => exact .refl n zxid

/-- A node that was not there is made. -/
theorem NodeStep.made_of_none (h : NodeStep zxid c p none (some n')) :
    c.creates = some p ∧ n'.Fresh zxid := by
  cases h with
  | made this fresh => exact ⟨this, fresh⟩

theorem NodeStep.removes_of_gone (h : NodeStep zxid c p (some n) none) : c.removes = some p := by
  cases h with
  | gone this => exact this

/-- A stored node is not made again. -/
theorem NodeStep.not_creates {o : Option Node} (h : NodeStep zxid c p (some n) o) :
    c.creates ≠ some p := by
  cases h with
  | set this data timestamp => simp [(Change.of_sets this).1]
  | gone this => simp [Change.creates_of_removes this]
  | linked below other name => exact other
  | unlinked below other name => exact other
  | same elsewhere creates sets removes => exact creates

/-- A node that is not removed evolves. -/
theorem NodeStep.evolves_of_stays {o : Option Node} (h : NodeStep zxid c p (some n) o)
    (stays : c.removes ≠ some p) : ∃ n', o = some n' ∧ n.Evolves n' zxid := by
  cases o with
  | none => exact absurd h.removes_of_gone stays
  | some n' => exact ⟨n', rfl, h.evolves⟩

/-- A change below a node stamps it. -/
theorem NodeStep.pzxid_of_parent (h : NodeStep zxid c p (some n) (some n'))
    (below : c.parent = some p) : n'.stat.pzxid = zxid := by
  cases h with
  | set this data timestamp => simp [(Change.of_sets this).2] at below
  | linked below other name => rfl
  | unlinked below other name => rfl
  | same elsewhere creates sets removes => exact absurd below elsewhere

/-- A node is made below a stored one, and only a leaf is removed. -/
theorem TreeStep.of_creates (h : TreeStep zxid m c m') (this : c.creates = some p) {q name : String}
    (split : parentOf p = some (q, name)) : m.get q ≠ none ∧ c.parent = some q ∧ q ≠ p := by
  cases h with
  | @created req path q' name' n node asked split' name_ne parent persistent suffixed absent fresh =>
    obtain rfl : path = p := Option.some.inj this
    cases split'.symm.trans split
    exact ⟨by simp [parent], (parentOf_fst_iff split _).mpr rfl, parentOf_ne split name_ne⟩
  | _ => cases this

theorem TreeStep.of_removes (h : TreeStep zxid m c m') (this : c.removes = some p) :
    p ≠ "/" ∧ ∀ child name, m.get child ≠ none → child ≠ "/" →
      parentOf child ≠ some (p, name) := by
  cases h with
  | removed stored met split name_ne parent leaf =>
    cases this
    exact ⟨parentOf_ne_root split name_ne, leaf⟩
  | _ => cases this

theorem TreeStep.removes_get (h : TreeStep zxid m c m') (this : c.removes = some p) :
    m.get p ≠ none ∧ m'.get p = none := by
  cases h with
  | @removed path q name expected n k stored met split name_ne parent leaf =>
    cases this
    have other : p ≠ q := (parentOf_ne split name_ne).symm
    exact ⟨by simp [stored], by rw [Table.get_modify_of_ne _ _ other, Table.get_remove_self]⟩
  | _ => cases this

/-- A node that no change of a run removes evolves, and is not made again. -/
theorem evolves_of_run {trace : List Change} (h : Run (TreeStep zxid) m trace m')
    (stored : m.get p = some n) (stays : ∀ c ∈ trace, c.removes ≠ some p) :
    ∃ n', m'.get p = some n' ∧ n.Evolves n' zxid ∧ ∀ c ∈ trace, c.creates ≠ some p := by
  induction h with
  | nil => exact ⟨n, stored, .refl n zxid, by simp⟩
  | @snoc trace t c u _ last ih =>
    obtain ⟨k, there, evolves, created⟩ := ih (fun c mem => stays c (List.mem_append_left _ mem))
    have step := last.node p
    rw [there] at step
    obtain ⟨n', after, next⟩ := step.evolves_of_stays (stays c (by simp))
    refine ⟨n', after, evolves.trans next, fun c' mem => ?_⟩
    obtain mem | mem := List.mem_append.mp mem
    · exact created c' mem
    · rw [List.mem_singleton.mp mem]
      exact step.not_creates

/-- A node that is not there is there only once it is made. -/
theorem absent_of_run {trace : List Change} (h : Run (TreeStep zxid) m trace m')
    (absent : m.get p = none) (made : ∀ c ∈ trace, c.creates ≠ some p) : m'.get p = none := by
  induction h with
  | nil => exact absent
  | @snoc trace t c u _ last ih =>
    have step := last.node p
    rw [ih fun c mem => made c (List.mem_append_left _ mem)] at step
    cases after : u.get p with
    | none => rfl
    | some n =>
      rw [after] at step
      exact absurd step.made_of_none.1 (made c (by simp))

/-- Every stamp is the zxid of the run, or stood there before. -/
theorem stamped_of_run {trace : List Change} (h : Run (TreeStep zxid) m trace m')
    (stored : m'.get p = some n) : ∀ field ∈ [Stat.czxid, Stat.mzxid, Stat.pzxid],
      field n.stat = zxid ∨ ∃ k, m.get p = some k ∧ field n.stat = field k.stat := by
  induction h generalizing n with
  | nil => exact fun field mem => .inr ⟨n, stored, rfl⟩
  | @snoc trace t c u _ last ih =>
    have step := last.node p
    rw [stored] at step
    intro field mem
    have kinds := mem
    simp only [List.mem_cons, List.not_mem_nil, or_false] at kinds
    cases before : t.get p with
    | none =>
      rw [before] at step
      have fresh := step.made_of_none.2
      obtain rfl | rfl | rfl := kinds
      · exact .inl fresh.czxid
      · exact .inl fresh.mzxid
      · exact .inl fresh.pzxid
    | some k =>
      rw [before] at step
      have evolves := step.evolves
      have old (same : field n.stat = field k.stat) :
          field n.stat = zxid ∨ ∃ k, m.get p = some k ∧ field n.stat = field k.stat := by
        rw [same]
        exact ih before field mem
      obtain rfl | rfl | rfl := kinds
      · exact old evolves.czxid
      · exact evolves.mzxid.elim old .inl
      · exact evolves.pzxid.elim old .inl

/-- A node below which something changes is stamped, if it is not removed. -/
theorem pzxid_of_run {trace : List Change} (h : Run (TreeStep zxid) m trace m')
    (stored : m.get p = some n) (stays : ∀ c ∈ trace, c.removes ≠ some p)
    (below : ∃ c ∈ trace, c.parent = some p) (after : m'.get p = some n') :
    n'.stat.pzxid = zxid := by
  obtain ⟨c, mem, below⟩ := below
  obtain ⟨front, rest, rfl⟩ := List.append_of_mem mem
  obtain ⟨t, init, path⟩ := h.append_split
  obtain ⟨u, step, path⟩ := Run.cons_iff.mp path
  obtain ⟨k, there, -⟩ := evolves_of_run init stored (fun c mem => stays c (by simp [mem]))
  have here := step.node p
  rw [there] at here
  obtain ⟨k', next, -⟩ := here.evolves_of_stays (stays c (by simp))
  rw [next] at here
  obtain ⟨n'', last, evolves, -⟩ :=
    evolves_of_run path next (fun c mem => stays c (by simp [mem]))
  cases after.symm.trans last
  exact evolves.pzxid.elim (fun same => same.trans (here.pzxid_of_parent below)) (fun new => new)

end Steps

/-- Every node is in order, its computed parent is stored, and it was made after its parent and no
later than the last change below that. -/
structure Timeline (zxid : ℕ) (m : Table String Node) : Prop where
  ordered : ∀ p n, m.get p = some n → n.Ordered zxid
  rooted : ∀ p n q name, m.get p = some n → parentOf p = some (q, name) → m.get q ≠ none
  nested : ∀ p n q name k, m.get p = some n → parentOf p = some (q, name) → m.get q = some k →
    k.stat.czxid ≤ n.stat.czxid ∧ n.stat.czxid ≤ k.stat.pzxid

namespace Timeline
variable {zxid zxid' : ℕ} {m m' : Table String Node} {c : Change}

theorem mono (h : Timeline zxid m) (later : zxid ≤ zxid') : Timeline zxid' m :=
  ⟨fun p n stored => (h.ordered p n stored).mono later, h.rooted, h.nested⟩

/-- After a change, a node has its parent, with its own stamps in between. -/
theorem parent_step (h : Timeline zxid m) (later : zxid ≤ zxid') (step : TreeStep zxid' m c m')
    {p q name : String} {n : Node} (stored : m'.get p = some n)
    (split : parentOf p = some (q, name)) : ∃ k, m'.get q = some k ∧
      k.stat.czxid ≤ n.stat.czxid ∧ n.stat.czxid ≤ k.stat.pzxid := by
  have at_p := step.node p
  have at_q := step.node q
  rw [stored] at at_p
  cases before : m.get p with
  | none =>
    rw [before] at at_p
    obtain ⟨creates, fresh⟩ := at_p.made_of_none
    obtain ⟨parent, below, -⟩ := step.of_creates creates split
    obtain ⟨k₀, parent⟩ := Option.ne_none_iff_exists'.mp parent
    rw [parent] at at_q
    obtain ⟨k, there, evolves⟩ :=
      at_q.evolves_of_stays (by simp [Change.removes_of_creates creates])
    rw [there] at at_q
    have ordered := h.ordered q k₀ parent
    refine ⟨k, there, ?_, ?_⟩
    · rw [evolves.czxid, fresh.czxid]
      exact (ordered.changed.trans ordered.pzxid_le).trans later
    · rw [fresh.czxid, at_q.pzxid_of_parent below]
  | some n₀ =>
    rw [before] at at_p
    obtain ⟨k₀, parent⟩ := Option.ne_none_iff_exists'.mp (h.rooted p n₀ q name before split)
    have stays : c.removes ≠ some q := by
      intro removes
      obtain ⟨not_root, leaf⟩ := step.of_removes removes
      by_cases root : p = "/"
      · exact not_root (parentOf_det parentOf_root (root ▸ split)).1
      · exact leaf p name (by simp [before]) root split
    rw [parent] at at_q
    obtain ⟨k, there, evolves⟩ := at_q.evolves_of_stays stays
    obtain ⟨lower, upper⟩ := h.nested p n₀ q name k₀ before split parent
    refine ⟨k, there, ?_, ?_⟩
    · rw [evolves.czxid, at_p.evolves.czxid]
      exact lower
    · rw [at_p.evolves.czxid]
      exact upper.trans (evolves.later (h.ordered q k₀ parent) later).2

theorem step (h : Timeline zxid m) (later : zxid ≤ zxid') (step : TreeStep zxid' m c m') :
    Timeline zxid' m' := by
  refine ⟨fun p n stored => ?_, fun p n q name stored split => ?_,
    fun p n q name k stored split parent => ?_⟩
  · have here := step.node p
    rw [stored] at here
    cases before : m.get p with
    | none =>
      rw [before] at here
      exact here.made_of_none.2.ordered
    | some n₀ =>
      rw [before] at here
      exact here.evolves.ordered (h.ordered p n₀ before) later
  · obtain ⟨k, there, -⟩ := h.parent_step later step stored split
    simp [there]
  · obtain ⟨k', there, between⟩ := h.parent_step later step stored split
    cases parent.symm.trans there
    exact between

theorem run (h : Timeline zxid m) (later : zxid ≤ zxid') {trace : List Change}
    (path : Run (TreeStep zxid') m trace m') : Timeline zxid' m' :=
  path.invariant (Timeline zxid') (h.mono later) (fun _ _ _ h last => h.step (le_refl _) last)

theorem new (intervalMs : Int) : Timeline 0 (KeeperStorage.new intervalMs).map := by
  have root {p : String} {n : Node} (stored : (KeeperStorage.new intervalMs).map.get p = some n) :
      p = "/" ∧ n = {} := by
    rw [KeeperStorage.new_get] at stored
    split_ifs at stored with here
    exact ⟨here, (Option.some.inj stored).symm⟩
  refine ⟨fun p n stored => ?_, fun p n q name stored split => ?_,
    fun p n q name k stored split parent => ?_⟩
  · obtain ⟨-, rfl⟩ := root stored
    constructor <;> exact le_refl 0
  · obtain ⟨rfl, -⟩ := root stored
    obtain ⟨rfl, -⟩ := parentOf_det parentOf_root split
    simp [KeeperStorage.new_get]
  · obtain ⟨-, rfl⟩ := root stored
    obtain ⟨-, rfl⟩ := root parent
    exact ⟨le_refl 0, le_refl 0⟩

end Timeline
end TinyKeeper
