import TinyKeeper.Storage.Tree

/-! The correspondence between the child names of a node and the stored paths below it, over
every history of tree calls. -/
namespace TinyKeeper

/-- A call on the tree, by any caller. -/
inductive StorageCall
  | create (path : String) (data : List UInt8) (timestamp : Int) (sessionId : SessionId)
      (flags : Int32)
  | set (path : String) (data : List UInt8) (timestamp : Int)
  | delete (path : String)

namespace KeeperStorage

/-- The state after a mutating call whose result is not looked at. -/
def next {α : Type} (st : KeeperStorage) : Outcome KeeperStorage α → Panics KeeperStorage
  | .ok _ st' => .ok st'
  | .err _ => .ok st
  | .panic message => .error message

def call (st : KeeperStorage) : StorageCall → Panics KeeperStorage
  | .create path data timestamp sessionId flags =>
    st.next (st.create path data timestamp sessionId flags)
  | .set path data timestamp => st.next (st.set path data timestamp)
  | .delete path => st.next (st.delete path)

/-- `p` is a stored path, other than the root, whose computed parent is `q`. -/
def DirectChild (st : KeeperStorage) (q name p : String) : Prop :=
  st.map.get p ≠ none ∧ p ≠ "/" ∧ parentOf p = some (q, name)

structure WellFormed (st : KeeperStorage) : Prop where
  root : st.map.get "/" ≠ none
  listed : ∀ p, st.map.get p ≠ none → p ≠ "/" →
    ∃ q name m, parentOf p = some (q, name) ∧ st.map.get q = some m ∧ name ∈ m.children
  unique : ∀ q m name, st.map.get q = some m → name ∈ m.children → ∃! p, st.DirectChild q name p
  numChildren : ∀ q m, st.map.get q = some m →
    m.children.card = {p | ∃ name, st.DirectChild q name p}.ncard

/-- A create whose checks pass would give a stored path a second spelling: another stored path
has the same computed parent and the same last component. -/
def Aliases (st : KeeperStorage) : StorageCall → Prop
  | .create path _ _ _ flags => ∃ q name created, st.Creatable path flags q name created ∧
      ∃ p, st.DirectChild q name p
  | _ => False

/-- Counting the stored children and counting the names agree once they correspond. -/
theorem wellFormed_of (st : KeeperStorage) (root : st.map.get "/" ≠ none)
    (listed : ∀ p, st.map.get p ≠ none → p ≠ "/" →
      ∃ q name m, parentOf p = some (q, name) ∧ st.map.get q = some m ∧ name ∈ m.children)
    (unique : ∀ q m name, st.map.get q = some m → name ∈ m.children →
      ∃! p, st.DirectChild q name p) : st.WellFormed := by
  refine ⟨root, listed, unique, fun q m hq => ?_⟩
  let lastName : String → String := fun p => ((parentOf p).map Prod.snd).getD ""
  have hname : ∀ {p name}, st.DirectChild q name p → lastName p = name ∧ name ∈ m.children := by
    rintro p name ⟨hp, hr, hs⟩
    refine ⟨by simp [lastName, hs], ?_⟩
    obtain ⟨q', name', m', hs', hq', hm'⟩ := listed p hp hr
    obtain ⟨rfl, rfl⟩ := parentOf_det hs hs'
    rw [hq, Option.some.injEq] at hq'
    exact hq' ▸ hm'
  have himage : (m.children : Set String) = lastName '' {p | ∃ name, st.DirectChild q name p} := by
    ext name
    constructor
    · intro hn
      obtain ⟨p, hp, _⟩ := unique q m name hq hn
      exact ⟨p, ⟨name, hp⟩, (hname hp).1⟩
    · rintro ⟨p, ⟨name', hp⟩, rfl⟩
      rw [(hname hp).1]
      exact (hname hp).2
  rw [← Set.ncard_coe_finset, himage]
  apply Set.InjOn.ncard_image
  rintro p ⟨name, hp⟩ p' ⟨name', hp'⟩ he
  rw [(hname hp).1, (hname hp').1] at he
  subst he
  exact (unique q m name hq (hname hp).2).unique hp hp'

theorem new_wellFormed (intervalMs : Int) : (new intervalMs).WellFormed := by
  apply wellFormed_of
  · simp [new_get]
  · intro p hp hr
    simp [new_get, hr] at hp
  · intro q m name hq hn
    rw [new_get] at hq
    split_ifs at hq
    cases hq
    simp at hn

section Steps
variable {st : KeeperStorage} {data : List UInt8} {timestamp : Int} {sessionId : SessionId}
  {path : String} {flags : Int32} {q name created : String}

/-- Below the created path there is nothing yet, elsewhere the stored children are the old ones
and the created path. -/
theorem directChild_afterCreate (h : st.Creatable path flags q name created)
    (q' name' p : String) :
    (st.afterCreate data timestamp sessionId flags q name created).DirectChild q' name' p ↔
      st.DirectChild q' name' p ∨ (p = created ∧ q' = q ∧ name' = name) := by
  simp only [DirectChild, afterCreate_stored h]
  constructor
  · rintro ⟨rfl | hp, hr, hs⟩
    · exact .inr ⟨rfl, parentOf_det h.createdSplit hs⟩
    · exact .inl ⟨hp, hr, hs⟩
  · rintro (⟨hp, hr, hs⟩ | ⟨rfl, rfl, rfl⟩)
    · exact ⟨.inr hp, hr, hs⟩
    · exact ⟨.inl rfl, parentOf_ne_root h.createdSplit h.name_ne, h.createdSplit⟩

theorem WellFormed.afterCreate (hw : st.WellFormed) (hl : st.Linked)
    (h : st.Creatable path flags q name created) (fresh : ∀ p, ¬ st.DirectChild q name p) :
    (st.afterCreate data timestamp sessionId flags q name created).WellFormed := by
  have hlinked : (st.afterCreate data timestamp sessionId flags q name created).Linked :=
    hl.afterCreate h
  obtain ⟨n, hn, _⟩ := h.parent
  have hqc := h.ne_created hn
  apply wellFormed_of
  · exact (afterCreate_stored h "/").mpr (.inr hw.root)
  · intro p hp hr
    obtain rfl | hp := (afterCreate_stored h p).mp hp
    · refine ⟨q, name, n.addChild name st.lastZxid, h.createdSplit, ?_, Finset.mem_insert_self _ _⟩
      rw [get_afterCreate h, if_neg hqc, if_pos rfl, hn]
      rfl
    · obtain ⟨q', c, m, hs, hm, hmem⟩ := hw.listed p hp hr
      by_cases hqq : q' = q
      · subst hqq
        refine ⟨q', c, m.addChild name st.lastZxid, hs, ?_, Finset.mem_insert_of_mem hmem⟩
        rw [get_afterCreate h, if_neg hqc, if_pos rfl, hm]
        rfl
      · refine ⟨q', c, m, hs, ?_, hmem⟩
        rw [get_afterCreate h, if_neg (h.ne_created hm), if_neg hqq, hm]
  · intro q' m c hq' hc
    have old : ∀ k, st.map.get q' = some k → c ∈ k.children → (q' ≠ q ∨ c ≠ name) →
        ∃! p, (st.afterCreate data timestamp sessionId flags q name created).DirectChild q' c p := by
      intro k hk hck hne
      obtain ⟨p, hp, hu⟩ := hw.unique q' k c hk hck
      refine ⟨p, (directChild_afterCreate h q' c p).mpr (.inl hp), fun p' hp' => ?_⟩
      obtain hp' | ⟨_, rfl, rfl⟩ := (directChild_afterCreate h q' c p').mp hp'
      · exact hu p' hp'
      · exact absurd rfl (hne.resolve_left (by simp))
    obtain ⟨_, rfl⟩ | ⟨rfl, _, k, hk, rfl⟩ | ⟨hne, _, hold⟩ := afterCreate_cases h hq'
    · simp [newNode] at hc
    · by_cases hcn : c = name
      · subst hcn
        refine ⟨created, (directChild_afterCreate h q' c _).mpr (.inr ⟨rfl, rfl, rfl⟩), ?_⟩
        intro p' hp'
        obtain hp' | ⟨rfl, _⟩ := (directChild_afterCreate h q' c p').mp hp'
        · exact absurd hp' (fresh p')
        · rfl
      · exact old k hk ((Finset.mem_insert.mp hc).resolve_left hcn) (.inr hcn)
    · exact old m hold hc (.inl hne)

/-- After a create that aliases a stored path, its name stands for two paths. -/
theorem not_wellFormed_of_alias (h : st.Creatable path flags q name created) {p : String}
    (hp : st.DirectChild q name p) :
    ¬ (st.afterCreate data timestamp sessionId flags q name created).WellFormed := by
  intro hw
  obtain ⟨n, hn, _⟩ := h.parent
  have hq : (st.afterCreate data timestamp sessionId flags q name created).map.get q =
      some (n.addChild name st.lastZxid) := by
    rw [get_afterCreate h, if_neg (h.ne_created hn), if_pos rfl, hn]
    rfl
  have hu := hw.unique q _ name hq (Finset.mem_insert_self _ _)
  have he : p = created := hu.unique
    ((directChild_afterCreate h q name p).mpr (.inl hp))
    ((directChild_afterCreate h q name created).mpr (.inr ⟨rfl, rfl, rfl⟩))
  exact hp.1 (he ▸ h.fresh)

theorem WellFormed.afterDelete (hw : st.WellFormed) (hl : st.Linked)
    (h : st.Deletable path q name) : (st.afterDelete path q name).WellFormed := by
  have hroot := parentOf_ne_root h.split h.name_ne
  have child : ∀ q' c p, (st.afterDelete path q name).DirectChild q' c p ↔
      p ≠ path ∧ st.DirectChild q' c p := by
    intro q' c p
    simp only [DirectChild, afterDelete_stored h]
    tauto
  have here : st.DirectChild q name path := by
    obtain ⟨k, hk, _⟩ := h.node
    exact ⟨by simp [hk], hroot, h.split⟩
  have only : ∀ p, st.DirectChild q name p → p = path := by
    intro p hp
    obtain ⟨q', c, m, hs, hm, hmem⟩ := hw.listed path here.1 hroot
    obtain ⟨rfl, rfl⟩ := parentOf_det hs h.split
    exact (hw.unique q m name hm hmem).unique hp here
  apply wellFormed_of
  · exact (afterDelete_stored h "/").mpr ⟨Ne.symm hroot, hw.root⟩
  · intro p hp hr
    obtain ⟨hpp, hold⟩ := (afterDelete_stored h p).mp hp
    obtain ⟨q', c, m, hs, hm, hmem⟩ := hw.listed p hold hr
    have hq' : q' ≠ path := by
      rintro rfl
      obtain ⟨n, hn⟩ := Option.ne_none_iff_exists'.mp hold
      exact hl.not_parent h hn hr hs
    by_cases hqq : q' = q
    · subst hqq
      have hcn : c ≠ name := by
        rintro rfl
        exact hpp (only p ⟨hold, hr, hs⟩)
      refine ⟨q', c, m.dropChild name st.lastZxid, hs, ?_, Finset.mem_erase.mpr ⟨hcn, hmem⟩⟩
      rw [get_afterDelete h, if_neg hq', if_pos rfl, hm]
      rfl
    · refine ⟨q', c, m, hs, ?_, hmem⟩
      rw [get_afterDelete h, if_neg hq', if_neg hqq, hm]
  · intro q' m c hq' hc
    obtain ⟨_, hcase⟩ := afterDelete_cases h hq'
    have keep : ∀ k, st.map.get q' = some k → c ∈ k.children → (q' ≠ q ∨ c ≠ name) →
        ∃! p, (st.afterDelete path q name).DirectChild q' c p := by
      intro k hk hck hne
      obtain ⟨p, hp, hu⟩ := hw.unique q' k c hk hck
      refine ⟨p, (child q' c p).mpr ⟨?_, hp⟩, fun p' hp' => hu p' ((child q' c p').mp hp').2⟩
      rintro rfl
      obtain ⟨rfl, rfl⟩ := parentOf_det h.split hp.2.2
      exact hne.elim (· rfl) (· rfl)
    obtain ⟨rfl, k, hk, rfl⟩ | ⟨hne, hold⟩ := hcase
    · obtain ⟨hcn, hck⟩ := Finset.mem_erase.mp hc
      exact keep k hk hck (.inr hcn)
    · exact keep m hold hc (.inl hne)

theorem WellFormed.afterSet (hw : st.WellFormed) : (st.afterSet path data timestamp).WellFormed := by
  have old : ∀ {p n}, (st.afterSet path data timestamp).map.get p = some n → ∃ m,
      st.map.get p = some m ∧ n.children = m.children := by
    intro p n hp
    obtain ⟨_, m, hm, rfl⟩ | ⟨_, hm⟩ := afterSet_cases hp
    · exact ⟨m, hm, rfl⟩
    · exact ⟨n, hm, rfl⟩
  have child : ∀ q' c p, (st.afterSet path data timestamp).DirectChild q' c p ↔
      st.DirectChild q' c p := by
    intro q' c p
    simp only [DirectChild, afterSet_stored]
  apply wellFormed_of
  · exact (afterSet_stored "/").mpr hw.root
  · intro p hp hr
    obtain ⟨q', c, m, hs, hm, hmem⟩ := hw.listed p ((afterSet_stored p).mp hp) hr
    have new : (st.afterSet path data timestamp).map.get q' ≠ none :=
      (afterSet_stored q').mpr (by simp [hm])
    obtain ⟨n, hn⟩ := Option.ne_none_iff_exists'.mp new
    obtain ⟨m', hm', hch⟩ := old hn
    rw [hm, Option.some.injEq] at hm'
    subst hm'
    exact ⟨q', c, n, hs, hn, hch ▸ hmem⟩
  · intro q' m c hq' hc
    obtain ⟨k, hk, hch⟩ := old hq'
    simp only [child]
    exact hw.unique q' k c hk (hch ▸ hc)

end Steps

/-- On a linked tree no call panics, and the next tree is linked. -/
theorem Linked.call {st : KeeperStorage} (hl : st.Linked) (c : StorageCall) :
    ∃ st', st.call c = .ok st' ∧ st'.Linked := by
  cases c with
  | create path data timestamp sessionId flags =>
    rcases st.create_eq path data timestamp sessionId flags with
      ⟨q, name, created, hc, he⟩ | ⟨_, he, _⟩
    · exact ⟨_, by rw [KeeperStorage.call, he, next], hl.afterCreate hc⟩
    · exact ⟨st, by rw [KeeperStorage.call, he, next], hl⟩
  | set path data timestamp =>
    obtain ⟨_, _, he⟩ | ⟨_, he⟩ := st.set_eq path data timestamp
    · exact ⟨_, by rw [KeeperStorage.call, he, next], hl.afterSet⟩
    · exact ⟨st, by rw [KeeperStorage.call, he, next], hl⟩
  | delete path =>
    obtain ⟨q, name, hd, he⟩ | ⟨_, he, _⟩ := hl.delete_cases path
    · exact ⟨_, by rw [KeeperStorage.call, he, next], hl.afterDelete hd⟩
    · exact ⟨st, by rw [KeeperStorage.call, he, next], hl⟩

/-- One call keeps the correspondence exactly when it does not alias a stored path. -/
theorem wellFormed_call_iff {st st' : KeeperStorage} (hl : st.Linked) (hw : st.WellFormed)
    {c : StorageCall} (h : st.call c = .ok st') : st'.WellFormed ↔ ¬ st.Aliases c := by
  cases c with
  | create path data timestamp sessionId flags =>
    rcases st.create_eq path data timestamp sessionId flags with
      ⟨q, name, created, hc, he⟩ | ⟨_, he, hn⟩
    · rw [KeeperStorage.call, he, next, Except.ok.injEq] at h
      subst h
      constructor
      · rintro hw' ⟨q', name', created', hc', p, hp⟩
        obtain ⟨rfl, rfl, rfl⟩ := hc.unique hc'
        exact not_wellFormed_of_alias hc hp hw'
      · intro ha
        exact hw.afterCreate hl hc (fun p hp => ha ⟨q, name, created, hc, p, hp⟩)
    · rw [KeeperStorage.call, he, next, Except.ok.injEq] at h
      subst h
      simp only [hw, true_iff]
      rintro ⟨q, name, created, hc, _⟩
      exact hn q name created hc
  | set path data timestamp =>
    simp only [Aliases, not_false_eq_true, iff_true]
    obtain ⟨_, _, he⟩ | ⟨_, he⟩ := st.set_eq path data timestamp <;>
      rw [KeeperStorage.call, he, next, Except.ok.injEq] at h <;> subst h
    · exact hw.afterSet
    · exact hw
  | delete path =>
    simp only [Aliases, not_false_eq_true, iff_true]
    obtain ⟨q, name, hd, he⟩ | ⟨_, he, _⟩ := hl.delete_cases path <;>
      rw [KeeperStorage.call, he, next, Except.ok.injEq] at h <;> subst h
    · exact hw.afterDelete hl hd
    · exact hw

/-- The histories of tree calls, successful or not. -/
abbrev Calls (st : KeeperStorage) (calls : List StorageCall) (st' : KeeperStorage) : Prop :=
  Run (fun s c s' => s.call c = .ok s') st calls st'

theorem calls_linked (intervalMs : Int) {calls : List StorageCall} {st : KeeperStorage}
    (h : Calls (new intervalMs) calls st) : st.Linked := by
  refine Run.invariant Linked (new_linked intervalMs) ?_ h
  intro s c s' hs hc
  obtain ⟨_, he, hl⟩ := hs.call c
  rw [he, Except.ok.injEq] at hc
  exact hc ▸ hl

/-- No history of calls ends in a panic. -/
theorem calls_total (intervalMs : Int) (calls : List StorageCall) :
    ∃ st, Calls (new intervalMs) calls st := by
  induction calls using List.reverseRecOn with
  | nil => exact ⟨_, Run.nil⟩
  | append_singleton calls c ih =>
    obtain ⟨st, h⟩ := ih
    obtain ⟨st', hc, _⟩ := (calls_linked intervalMs h).call c
    exact ⟨st', h.snoc hc⟩

/-- Every history of calls runs to its end, and all its states are well formed exactly when none
of its creates aliases a stored path. -/
theorem wellFormed_throughout_iff (intervalMs : Int) (calls : List StorageCall) :
    (∃ st, Calls (new intervalMs) calls st) ∧
    ((∀ done st, done <+: calls → Calls (new intervalMs) done st → st.WellFormed) ↔
      (∀ done c st, done ++ [c] <+: calls → Calls (new intervalMs) done st → ¬ st.Aliases c)) := by
  obtain ⟨st, h⟩ := calls_total intervalMs calls
  refine ⟨⟨st, h⟩, ?_⟩
  refine Run.all_states_iff_all_steps ?_ Linked WellFormed (fun s c => ¬ s.Aliases c)
    (new_linked intervalMs) (new_wellFormed intervalMs) ?_ ?_ h
  · intro s c s' s'' h' h''
    rw [h', Except.ok.injEq] at h''
    exact h''
  · intro s c s' hl hc
    obtain ⟨_, he, hl'⟩ := hl.call c
    rw [he, Except.ok.injEq] at hc
    exact hc ▸ hl'
  · intro s c s' hl hw hc
    exact wellFormed_call_iff hl hw hc

/-- Creating `/a` and then `//a` gives the root one name for two stored children. -/
theorem doubled_slash_not_wellFormed :
    ∃ st, Calls (new 500) [.create "/a" [] 0 1 0, .create "//a" [] 0 1 0] st ∧
      ¬ st.WellFormed := by
  refine ⟨_, Run.snoc (Run.single rfl) rfl, fun h => ?_⟩
  have one := h.unique "/" _ "a" rfl (by decide)
  have same : "/a" = "//a" := one.unique ⟨by decide, by decide, by decide⟩
    ⟨by decide, by decide, by decide⟩
  exact absurd same (by decide)

end KeeperStorage
end TinyKeeper
