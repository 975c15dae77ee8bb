import Mathlib.Data.Set.Card
import TinyKeeper.Storage
import TinyKeeper.Lib.Run

/-! The two copies of the tree. `Linked` is what every history of calls keeps; the full
correspondence between names and paths is kept exactly as long as no child of the root is created
under both of its spellings. -/
namespace TinyKeeper
namespace KeeperStorage

/-- What survives every call: parents stay stored, below a node other than the root the names
are those of the stored children, and an ephemeral node is a leaf. -/
structure Linked (st : KeeperStorage) : Prop where
  root : ∃ n, st.map.get "/" = some n ∧ n.stat.ephemeralOwner = 0
  parent : ∀ p n, st.map.get p = some n → p ≠ "/" → ∃ q c m, parentOf p = some (q, c) ∧
    c ≠ "" ∧ st.map.get q = some m ∧ (q ≠ "/" → c ∈ m.children)
  listed : ∀ q m c, st.map.get q = some m → c ∈ m.children →
    ∃ p, st.map.get p ≠ none ∧ parentOf p = some (q, c) ∧ c ≠ ""
  leaf : ∀ p n, st.map.get p = some n → n.stat.ephemeralOwner ≠ 0 → n.children = ∅

theorem new_get (intervalMs : Int) (p : String) :
    (new intervalMs).map.get p = if p = "/" then some {} else none := by
  simp [new, Table.get_insert]

theorem new_linked (intervalMs : Int) : (new intervalMs).Linked := by
  refine ⟨⟨{}, by simp [new_get], rfl⟩, ?_, ?_, ?_⟩
  · intro p n hp hr
    simp [new_get, hr] at hp
  · intro q m c hq hc
    rw [new_get] at hq
    split_ifs at hq
    cases hq
    simp at hc
  · intro p n hp ho
    rw [new_get] at hp
    split_ifs at hp
    cases hp
    exact absurd rfl ho

/-- Only the map matters. -/
theorem Linked.of_map {st st' : KeeperStorage} (h : st.Linked) (hm : st'.map = st.map) :
    st'.Linked := by
  obtain ⟨h1, h2, h3, h4⟩ := h
  rw [← hm] at h1 h2 h3 h4
  exact ⟨h1, h2, h3, h4⟩

section Lookups
variable {st : KeeperStorage} {data : List UInt8} {timestamp : Int} {sessionId : SessionId}
  {path : String} {flags : Int32} {q name created : String}

theorem Creatable.ne_created (h : st.Creatable path flags q name created) {p : String} {n : Node}
    (hp : st.map.get p = some n) : p ≠ created := by
  rintro rfl
  rw [h.fresh] at hp
  contradiction

/-- The lookups after a successful create. -/
theorem get_afterCreate (h : st.Creatable path flags q name created) (p : String) :
    (st.afterCreate data timestamp sessionId flags q name created).map.get p =
      if p = created then some (st.newNode data timestamp sessionId flags)
      else if p = q then (st.map.get q).map (·.addChild name st.lastZxid)
      else st.map.get p := by
  obtain ⟨n, hn, _⟩ := h.parent
  have hne := h.ne_created hn
  simp only [afterCreate, Table.get_modify, Table.get_insert, hne, if_false]
  by_cases hp : p = created
  · subst hp
    simp [Ne.symm hne]
  · simp [hp]

/-- The lookups after a successful delete. -/
theorem get_afterDelete (h : st.Deletable path q name) (p : String) :
    (st.afterDelete path q name).map.get p =
      if p = path then none
      else if p = q then (st.map.get q).map (·.dropChild name st.lastZxid)
      else st.map.get p := by
  have hne := parentOf_ne h.split h.name_ne
  simp only [afterDelete, Table.get_modify, Table.get_remove, hne, if_false]
  by_cases hp : p = path
  · subst hp
    simp [Ne.symm hne]
  · simp [hp]

theorem get_afterSet (st : KeeperStorage) (path : String) (data : List UInt8) (timestamp : Int)
    (p : String) :
    (st.afterSet path data timestamp).map.get p =
      if p = path then (st.map.get path).map (·.setData data timestamp st.lastZxid)
      else st.map.get p := by
  simp [afterSet, Table.get_modify]

/-- A node that a create leaves stored is the new one, the updated parent, or untouched. -/
theorem afterCreate_cases (h : st.Creatable path flags q name created) {p : String} {n : Node}
    (hp : (st.afterCreate data timestamp sessionId flags q name created).map.get p = some n) :
    (p = created ∧ n = st.newNode data timestamp sessionId flags) ∨
    (p = q ∧ p ≠ created ∧ ∃ m, st.map.get q = some m ∧ n = m.addChild name st.lastZxid) ∨
    (p ≠ q ∧ p ≠ created ∧ st.map.get p = some n) := by
  rw [get_afterCreate h] at hp
  split_ifs at hp with h1 h2
  · exact .inl ⟨h1, (Option.some.inj hp).symm⟩
  · obtain ⟨m, hm, hn⟩ := Option.map_eq_some_iff.mp hp
    exact .inr (.inl ⟨h2, h1, m, hm, hn.symm⟩)
  · exact .inr (.inr ⟨h2, h1, hp⟩)

theorem afterDelete_cases (h : st.Deletable path q name) {p : String} {n : Node}
    (hp : (st.afterDelete path q name).map.get p = some n) :
    p ≠ path ∧ ((p = q ∧ ∃ m, st.map.get q = some m ∧ n = m.dropChild name st.lastZxid) ∨
      (p ≠ q ∧ st.map.get p = some n)) := by
  rw [get_afterDelete h] at hp
  split_ifs at hp with h1 h2
  · obtain ⟨m, hm, hn⟩ := Option.map_eq_some_iff.mp hp
    exact ⟨h1, .inl ⟨h2, m, hm, hn.symm⟩⟩
  · exact ⟨h1, .inr ⟨h2, hp⟩⟩

theorem afterSet_cases {p : String} {n : Node}
    (hp : (st.afterSet path data timestamp).map.get p = some n) :
    (p = path ∧ ∃ m, st.map.get p = some m ∧ n = m.setData data timestamp st.lastZxid) ∨
    (p ≠ path ∧ st.map.get p = some n) := by
  rw [get_afterSet] at hp
  split_ifs at hp with h1
  · obtain ⟨m, hm, hn⟩ := Option.map_eq_some_iff.mp hp
    exact .inl ⟨h1, m, h1 ▸ hm, hn.symm⟩
  · exact .inr ⟨h1, hp⟩

theorem afterCreate_stored (h : st.Creatable path flags q name created) (p : String) :
    (st.afterCreate data timestamp sessionId flags q name created).map.get p ≠ none ↔
      p = created ∨ st.map.get p ≠ none := by
  obtain ⟨n, hn, _⟩ := h.parent
  rw [get_afterCreate h]
  split_ifs with h1 h2
  · simp [h1]
  · subst h2; simp [hn]
  · simp [h1]

theorem afterDelete_stored (h : st.Deletable path q name) (p : String) :
    (st.afterDelete path q name).map.get p ≠ none ↔ p ≠ path ∧ st.map.get p ≠ none := by
  rw [get_afterDelete h]
  split_ifs with h1 h2
  · simp [h1]
  · subst h2; simp [h1]
  · simp [h1]

theorem afterSet_stored (p : String) :
    (st.afterSet path data timestamp).map.get p ≠ none ↔ st.map.get p ≠ none := by
  rw [get_afterSet]
  split_ifs with h1
  · subst h1; simp
  · rfl

end Lookups

section Steps
variable {st : KeeperStorage} {data : List UInt8} {timestamp : Int} {sessionId : SessionId}
  {path : String} {flags : Int32} {q name created : String}

theorem Linked.afterCreate (hl : st.Linked) (h : st.Creatable path flags q name created) :
    (st.afterCreate data timestamp sessionId flags q name created).Linked := by
  obtain ⟨n, hn, ho, _⟩ := h.parent
  have hq := h.ne_created hn
  refine ⟨?_, ?_, ?_, ?_⟩
  · obtain ⟨r, hr, hro⟩ := hl.root
    rw [get_afterCreate h, if_neg (h.ne_created hr)]
    split_ifs with he
    · subst he
      rw [hr]
      exact ⟨_, rfl, hro⟩
    · exact ⟨r, hr, hro⟩
  · intro p m hp hr
    by_cases hpc : p = created
    · subst hpc
      refine ⟨q, name, n.addChild name st.lastZxid, h.createdSplit, h.name_ne, ?_,
        fun _ => Finset.mem_insert_self _ _⟩
      rw [get_afterCreate h, if_neg hq, if_pos rfl, hn]
      rfl
    · have hstored : st.map.get p ≠ none := by
        have new : (st.afterCreate data timestamp sessionId flags q name created).map.get p ≠
            none := by
          simp [hp]
        exact ((afterCreate_stored h p).mp new).resolve_left hpc
      obtain ⟨m', hm'⟩ := Option.ne_none_iff_exists'.mp hstored
      obtain ⟨q', c, k, hs, hc, hk, hmem⟩ := hl.parent p m' hm' hr
      by_cases hqq : q' = q
      · subst hqq
        refine ⟨q', c, k.addChild name st.lastZxid, hs, hc, ?_, fun h' =>
          Finset.mem_insert_of_mem (hmem h')⟩
        rw [get_afterCreate h, if_neg hq, if_pos rfl, hk]
        rfl
      · refine ⟨q', c, k, hs, hc, ?_, hmem⟩
        rw [get_afterCreate h, if_neg (h.ne_created hk), if_neg hqq, hk]
  · intro q' m c hq' hc
    have keep : (∃ p, st.map.get p ≠ none ∧ parentOf p = some (q', c) ∧ c ≠ "") →
        ∃ p, (st.afterCreate data timestamp sessionId flags q name created).map.get p ≠ none ∧
          parentOf p = some (q', c) ∧ c ≠ "" := by
      rintro ⟨p, hp, hs⟩
      exact ⟨p, (afterCreate_stored h p).mpr (.inr hp), hs⟩
    obtain ⟨_, rfl⟩ | ⟨rfl, _, k, hk, rfl⟩ | ⟨_, _, hold⟩ := afterCreate_cases h hq'
    · simp [newNode] at hc
    · obtain rfl | hc := Finset.mem_insert.mp hc
      · exact ⟨created, (afterCreate_stored h _).mpr (.inl rfl), h.createdSplit, h.name_ne⟩
      · exact keep (hl.listed q' k c hk hc)
    · exact keep (hl.listed q' m c hold hc)
  · intro p m hp hmo
    obtain ⟨_, rfl⟩ | ⟨rfl, _, k, hk, rfl⟩ | ⟨_, _, hold⟩ := afterCreate_cases h hp
    · rfl
    · rw [hn, Option.some.injEq] at hk
      subst hk
      exact absurd ho hmo
    · exact hl.leaf p m hold hmo

/-- A node that can be deleted is nobody's parent. -/
theorem Linked.not_parent (hl : st.Linked) (h : st.Deletable path q name) {p c : String} {n : Node}
    (hp : st.map.get p = some n) (hr : p ≠ "/") (hs : parentOf p = some (path, c)) : False := by
  obtain ⟨q', c', m, hs', _, hm, hmem⟩ := hl.parent p n hp hr
  obtain ⟨rfl, rfl⟩ := parentOf_det hs' hs
  obtain ⟨k, hk, hempty⟩ := h.node
  rw [hk, Option.some.injEq] at hm
  subst hm
  have hroot : path ≠ "/" := parentOf_ne_root h.split h.name_ne
  simpa [hempty] using hmem hroot

theorem Linked.parent_stored (hl : st.Linked) (h : st.Deletable path q name) :
    st.map.get q ≠ none := by
  obtain ⟨k, hk, _⟩ := h.node
  obtain ⟨q', c, m, hs, _, hm, _⟩ := hl.parent path k hk (parentOf_ne_root h.split h.name_ne)
  obtain ⟨rfl, -⟩ := parentOf_det h.split hs
  simp [hm]

/-- On a linked tree a delete whose checks pass succeeds. -/
theorem Linked.delete_ok (hl : st.Linked) (h : st.Deletable path q name) :
    st.delete path = .ok () (st.afterDelete path q name) :=
  delete_of_deletable h (hl.parent_stored h)

/-- On a linked tree a delete succeeds or is refused. -/
theorem Linked.delete_cases (hl : st.Linked) (path : String) :
    (∃ q name, st.Deletable path q name ∧
      st.delete path = .ok () (st.afterDelete path q name)) ∨
    ∃ message, st.delete path = .err message ∧ ∀ q name, ¬ st.Deletable path q name := by
  obtain ⟨q, name, hd, -, he⟩ | refused | ⟨q, name, hd, hq, -⟩ := st.delete_eq path
  · exact .inl ⟨q, name, hd, he⟩
  · exact .inr refused
  · exact absurd hq (hl.parent_stored hd)

theorem Linked.delete_not_panic (hl : st.Linked) (path : String) (message : String) :
    st.delete path ≠ .panic message := by
  obtain ⟨_, _, _, he⟩ | ⟨_, he, _⟩ := hl.delete_cases path <;> simp [he]

theorem Linked.afterDelete (hl : st.Linked) (h : st.Deletable path q name) :
    (st.afterDelete path q name).Linked := by
  have hroot : path ≠ "/" := parentOf_ne_root h.split h.name_ne
  refine ⟨?_, ?_, ?_, ?_⟩
  · obtain ⟨r, hr, hro⟩ := hl.root
    rw [get_afterDelete h, if_neg (Ne.symm hroot)]
    split_ifs with he
    · subst he
      rw [hr]
      exact ⟨_, rfl, hro⟩
    · exact ⟨r, hr, hro⟩
  · intro p n hp hr
    obtain ⟨hpath, hstored⟩ := (afterDelete_stored h p).mp (by simp [hp])
    obtain ⟨n', hn'⟩ := Option.ne_none_iff_exists'.mp hstored
    obtain ⟨q', c, m, hs, hc, hm, hmem⟩ := hl.parent p n' hn' hr
    have hq' : q' ≠ path := by
      rintro rfl
      exact hl.not_parent h hn' hr hs
    by_cases hqq : q' = q
    · subst hqq
      refine ⟨q', c, m.dropChild name st.lastZxid, hs, hc, ?_, fun hne => ?_⟩
      · rw [get_afterDelete h, if_neg hq', if_pos rfl, hm]
        rfl
      · have hcn : c ≠ name := by
          rintro rfl
          exact hpath (parentOf_unique hne hs h.split)
        exact Finset.mem_erase.mpr ⟨hcn, hmem hne⟩
    · refine ⟨q', c, m, hs, hc, ?_, hmem⟩
      rw [get_afterDelete h, if_neg hq', if_neg hqq, hm]
  · intro q' m c hq' hc
    obtain ⟨_, hcase⟩ := afterDelete_cases h hq'
    have keep : ∀ p, st.map.get p ≠ none → parentOf p = some (q', c) → c ≠ "" → p ≠ path →
        ∃ p, (st.afterDelete path q name).map.get p ≠ none ∧ parentOf p = some (q', c) ∧ c ≠ "" :=
      fun p hp hs hne hpp => ⟨p, (afterDelete_stored h p).mpr ⟨hpp, hp⟩, hs, hne⟩
    obtain ⟨rfl, k, hk, rfl⟩ | ⟨hne, hold⟩ := hcase
    · obtain ⟨hcn, hck⟩ := Finset.mem_erase.mp hc
      obtain ⟨p, hp, hs, hcne⟩ := hl.listed q' k c hk hck
      refine keep p hp hs hcne ?_
      rintro rfl
      exact hcn (parentOf_det h.split hs).2
    · obtain ⟨p, hp, hs, hcne⟩ := hl.listed q' m c hold hc
      refine keep p hp hs hcne ?_
      rintro rfl
      exact hne (parentOf_det h.split hs).1
  · intro p n hp hmo
    obtain ⟨_, ⟨rfl, m, hm, rfl⟩ | ⟨_, hold⟩⟩ := afterDelete_cases h hp
    · have : m.children = ∅ := hl.leaf p m hm hmo
      simp [Node.dropChild, this]
    · exact hl.leaf p n hold hmo

theorem Linked.afterSet (hl : st.Linked) : (st.afterSet path data timestamp).Linked := by
  have old : ∀ {p n}, (st.afterSet path data timestamp).map.get p = some n → ∃ m,
      st.map.get p = some m ∧ n.children = m.children ∧
      n.stat.ephemeralOwner = m.stat.ephemeralOwner := by
    intro p n hp
    obtain ⟨_, m, hm, rfl⟩ | ⟨_, hm⟩ := afterSet_cases hp
    · exact ⟨m, hm, rfl, rfl⟩
    · exact ⟨n, hm, rfl, rfl⟩
  have lift : ∀ {p m}, st.map.get p = some m → ∃ n,
      (st.afterSet path data timestamp).map.get p = some n ∧ n.children = m.children ∧
      n.stat.ephemeralOwner = m.stat.ephemeralOwner := by
    intro p m hm
    have new : (st.afterSet path data timestamp).map.get p ≠ none :=
      (afterSet_stored p).mpr (by simp [hm])
    obtain ⟨n, hn⟩ := Option.ne_none_iff_exists'.mp new
    obtain ⟨m', hm', hc, ho⟩ := old hn
    rw [hm, Option.some.injEq] at hm'
    subst hm'
    exact ⟨n, hn, hc, ho⟩
  refine ⟨?_, ?_, ?_, ?_⟩
  · obtain ⟨r, hr, hro⟩ := hl.root
    obtain ⟨n, hn, _, ho⟩ := lift hr
    exact ⟨n, hn, ho.trans hro⟩
  · intro p n hp hr
    obtain ⟨m, hm, _⟩ := old hp
    obtain ⟨q', c, k, hs, hc, hk, hmem⟩ := hl.parent p m hm hr
    obtain ⟨k', hk', hch, _⟩ := lift hk
    exact ⟨q', c, k', hs, hc, hk', fun hne => hch ▸ hmem hne⟩
  · intro q' m c hq' hc
    obtain ⟨k, hk, hch, _⟩ := old hq'
    obtain ⟨p, hp, hs⟩ := hl.listed q' k c hk (hch ▸ hc)
    exact ⟨p, (afterSet_stored p).mpr hp, hs⟩
  · intro p n hp hno
    obtain ⟨m, hm, hch, ho⟩ := old hp
    rw [hch]
    exact hl.leaf p m hm (ho ▸ hno)

end Steps
section Calls
variable {st st' : KeeperStorage}

theorem Linked.create_ok {path created : String} {data : List UInt8} {timestamp : Int}
    {sessionId : SessionId} {flags : Int32} (h : st.Linked)
    (done : st.create path data timestamp sessionId flags = .ok created st') : st'.Linked := by
  obtain ⟨q, name, hc, rfl⟩ := (st.create_ok_iff _ _ _ _ _ _ _).mp done
  exact h.afterCreate hc

theorem Linked.set_ok {path : String} {data : List UInt8} {timestamp : Int} (h : st.Linked)
    (done : st.set path data timestamp = .ok () st') : st'.Linked := by
  obtain ⟨n, hn, he⟩ | ⟨_, he⟩ := st.set_eq path data timestamp
  · rw [he, Outcome.ok.injEq] at done
    rw [← done.2]
    exact h.afterSet
  · rw [he] at done
    contradiction

theorem Linked.of_delete_ok {path : String} (h : st.Linked) (done : st.delete path = .ok () st') :
    st'.Linked := by
  obtain ⟨q, name, hd, -, rfl⟩ := KeeperStorage.delete_ok done
  exact h.afterDelete hd

end Calls
end KeeperStorage
end TinyKeeper
