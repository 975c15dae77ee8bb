import TinyKeeper.Storage.Tree

/-! Ephemeral nodes. The owner of a node stands in its stat and in the index of its session; while
the two agree, ending the session deletes exactly its nodes, in whatever order they come. -/
namespace TinyKeeper

theorem SessionState.owns_addEphemeral (s : SessionState) (id id' : SessionId) (path p : String) :
    (s.addEphemeral id path).Owns id' p ↔ s.Owns id' p ∨ (id' = id ∧ p = path) := by
  unfold Owns addEphemeral
  by_cases h : id' = id
  · subst h
    cases hs : s.ephemerals.get id' with
    | none => simp
    | some paths => simp [or_comm]
  · simp [h]

theorem SessionState.owns_removeEphemeral (s : SessionState) (id id' : SessionId)
    (path p : String) :
    (s.removeEphemeral id path).Owns id' p ↔ s.Owns id' p ∧ ¬ (id' = id ∧ p = path) := by
  unfold Owns removeEphemeral
  cases hs : s.ephemerals.get id with
  | none =>
    by_cases h : id' = id
    · subst h
      simp [hs]
    · simp [h]
  | some paths =>
    simp only
    split_ifs with empty
    · by_cases h : id' = id
      · subst h
        simp only [Table.get_remove_self, hs]
        constructor
        · rintro ⟨_, h, -⟩
          cases h
        · rintro ⟨⟨_, e, hp⟩, hne⟩
          cases e
          have mem := Finset.mem_erase.mpr ⟨fun e => hne ⟨trivial, e⟩, hp⟩
          rw [empty] at mem
          exact absurd mem (Finset.notMem_empty p)
      · simp [h]
    · by_cases h : id' = id
      · subst h
        simp [hs, and_comm]
      · simp [h]

theorem SessionState.mem_closeSession (s : SessionState) (orders : HashOrders) (id : SessionId)
    (p : String) : p ∈ (s.closeSession orders id).2 ↔ s.Owns id p := by
  unfold Owns closeSession
  cases s.ephemerals.get id with
  | none => simp
  | some paths => simp [orders.paths.mem_list]

theorem SessionState.nodup_closeSession (s : SessionState) (orders : HashOrders)
    (id : SessionId) : (s.closeSession orders id).2.Nodup := by
  unfold closeSession
  cases s.ephemerals.get id with
  | none => simp
  | some paths => exact orders.paths.nodup paths

/-- The last component of a path. -/
def lastName (path : String) : String := ((parentOf path).map Prod.snd).getD ""

/-- The bookkeeping in a node whose children at these paths are all unlinked. -/
def Node.reap (n : Node) (gone : Finset String) (zxid : ℕ) : Node :=
  { n with
    children := n.children \ gone.image lastName
    stat := { n.stat with
      cversion := n.stat.cversion + Int32.ofNat gone.card
      pzxid := if gone = ∅ then n.stat.pzxid else zxid } }

@[simp] theorem Node.reap_empty (n : Node) (zxid : ℕ) : n.reap ∅ zxid = n := by
  simp [reap]

theorem Node.reap_dropChild (n : Node) (gone : Finset String) (path : String) (zxid : ℕ)
    (h : path ∉ gone) :
    (n.dropChild (lastName path) zxid).reap gone zxid = n.reap (insert path gone) zxid := by
  have count : n.stat.cversion + 1 + Int32.ofNat gone.card =
      n.stat.cversion + Int32.ofNat (gone.card + 1) := by
    rw [Int32.ofNat_add, Int32.add_assoc, Int32.add_comm 1]
    rfl
  have names : n.children.erase (lastName path) \ gone.image lastName =
      n.children \ (insert path gone).image lastName := by
    ext name
    simp only [Finset.mem_sdiff, Finset.mem_erase, Finset.image_insert, Finset.mem_insert,
      not_or]
    tauto
  simp [reap, dropChild, count, names, Finset.card_insert_of_notMem h]

namespace KeeperStorage

/-- Those of the paths whose computed parent is `q`. -/
def childrenIn (paths : Finset String) (q : String) : Finset String :=
  paths.filter (fun p => (parentOf p).map Prod.fst = some q)

/-- The tree without the nodes at these paths, every parent left with the bookkeeping of all its
deletions. -/
def reaped (st : KeeperStorage) (paths : Finset String) : KeeperStorage :=
  { st with map := ⟨fun p =>
      if p ∈ paths then none
      else (st.map.get p).map (·.reap (childrenIn paths p) st.lastZxid)⟩ }

/-- The owner in the stat of the node stored at a path. -/
def ownerOf (st : KeeperStorage) (p : String) : Option SessionId :=
  (st.map.get p).map fun n => n.stat.ephemeralOwner

/-- A path is in the index of a session exactly if it is stored with that owner. -/
def Indexed (st : KeeperStorage) : Prop :=
  ∀ id p, st.sessionState.Owns id p ↔ id ≠ 0 ∧ st.ownerOf p = some id

/-- The state with the index entry of a deleted node dropped. -/
def disowned (st : KeeperStorage) (owner : SessionId) (path : String) : KeeperStorage :=
  if owner ≠ 0 then { st with sessionState := st.sessionState.removeEphemeral owner path } else st

/-- A delete that succeeds. -/
def Deletes (st : KeeperStorage) (path : String) (st' : KeeperStorage) : Prop :=
  st.delete path = .ok () st'

section Disowned
variable {st : KeeperStorage}

@[simp] theorem disowned_map (owner : SessionId) (path : String) :
    (st.disowned owner path).map = st.map := by
  unfold disowned
  split_ifs <;> rfl

@[simp] theorem disowned_lastZxid (owner : SessionId) (path : String) :
    (st.disowned owner path).lastZxid = st.lastZxid := by
  unfold disowned
  split_ifs <;> rfl

@[simp] theorem disowned_watchState (owner : SessionId) (path : String) :
    (st.disowned owner path).watchState = st.watchState := by
  unfold disowned
  split_ifs <;> rfl

end Disowned

theorem childrenIn_insert {path q name : String} (paths : Finset String) (p : String)
    (h : parentOf path = some (q, name)) :
    childrenIn (insert path paths) p =
      if p = q then insert path (childrenIn paths p) else childrenIn paths p := by
  have parent : (parentOf path).map Prod.fst = some p ↔ p = q := by simp [h, eq_comm]
  by_cases hp : p = q
  · rw [childrenIn, Finset.filter_insert, if_pos (parent.mpr hp), if_pos hp, childrenIn]
  · rw [childrenIn, Finset.filter_insert, if_neg (mt parent.mp hp), if_neg hp, childrenIn]

@[simp] theorem reaped_empty (st : KeeperStorage) : st.reaped ∅ = st := by
  have same : (st.reaped ∅).map = st.map := by
    ext1
    funext p
    simp [reaped, childrenIn]
  calc st.reaped ∅ = { st with map := (st.reaped ∅).map } := rfl
    _ = st := by rw [same]

section Reaping
variable {st : KeeperStorage} {path q name : String}

/-- Deleting one node and then the rest is deleting them together. -/
theorem reaped_afterDelete (h : st.Deletable path q name) {paths : Finset String}
    (fresh : path ∉ paths) :
    (st.afterDelete path q name).reaped paths = st.reaped (insert path paths) := by
  have hlast : lastName path = name := by rw [lastName, h.split]; rfl
  have map : ((st.afterDelete path q name).reaped paths).map =
      (st.reaped (insert path paths)).map := by
    ext1
    funext p
    simp only [reaped, get_afterDelete h, childrenIn_insert paths p h.split]
    by_cases hp : p ∈ paths
    · simp [hp]
    by_cases hpath : p = path
    · simp [hpath]
    have kept : p ∉ insert path paths := by simp [hp, hpath]
    rw [if_neg hp, if_neg hpath, if_neg kept]
    by_cases hq : p = q
    · subst hq
      rw [if_pos rfl, if_pos rfl, Option.map_map]
      congr 1
      funext n
      have notIn : path ∉ childrenIn paths p := fun hm => fresh (Finset.mem_filter.mp hm).1
      rw [Function.comp_apply, ← hlast]
      exact n.reap_dropChild _ path _ notIn
    · rw [if_neg hq, if_neg hq]
      rfl
  calc (st.afterDelete path q name).reaped paths
      = { st with map := ((st.afterDelete path q name).reaped paths).map } := rfl
    _ = st.reaped (insert path paths) := by rw [map]; rfl

/-- An ephemeral node of a linked tree can be deleted. -/
theorem Linked.deletable (hl : st.Linked) {n : Node} (stored : st.map.get path = some n)
    (owner : n.stat.ephemeralOwner ≠ 0) : ∃ q name, st.Deletable path q name := by
  have root : path ≠ "/" := by
    rintro rfl
    obtain ⟨r, hr, ho⟩ := hl.root
    rw [stored, Option.some.injEq] at hr
    exact owner (hr ▸ ho)
  obtain ⟨q, c, -, split, hne, -, -⟩ := hl.parent path n stored root
  exact ⟨q, c, split, hne, n, stored, hl.leaf path n stored owner⟩

/-- Deleting an ephemeral node leaves every other one as it is. -/
theorem Linked.get_afterDelete_owned (hl : st.Linked) (h : st.Deletable path q name)
    {p : String} {n : Node} (ne : p ≠ path) (stored : st.map.get p = some n)
    (owner : n.stat.ephemeralOwner ≠ 0) :
    (st.afterDelete path q name).map.get p = some n := by
  rw [get_afterDelete h, if_neg ne, if_neg ?_, stored]
  rintro rfl
  obtain ⟨m, hm, -⟩ := h.node
  obtain ⟨q', c, k, split, -, hk, listed⟩ :=
    hl.parent path m hm (parentOf_ne_root h.split h.name_ne)
  obtain ⟨rfl, rfl⟩ := parentOf_det split h.split
  rw [stored, Option.some.injEq] at hk
  subst hk
  have root : p ≠ "/" := by
    rintro rfl
    obtain ⟨r, hr, ho⟩ := hl.root
    rw [stored, Option.some.injEq] at hr
    exact owner (hr ▸ ho)
  have mem := listed root
  rw [hl.leaf p n stored owner] at mem
  exact absurd mem (Finset.notMem_empty _)

/-- Ephemeral nodes can be deleted one after another, in any order. -/
theorem Linked.deletes_reaped (hl : st.Linked) {paths : List String} (nodup : paths.Nodup)
    (owned : ∀ p ∈ paths, ∃ n, st.map.get p = some n ∧ n.stat.ephemeralOwner ≠ 0) :
    Run Deletes st paths (st.reaped paths.toFinset) := by
  induction paths generalizing st with
  | nil =>
    rw [List.toFinset_nil, reaped_empty]
    exact .nil
  | cons path paths ih =>
    obtain ⟨fresh, nodup⟩ := List.nodup_cons.mp nodup
    obtain ⟨n, stored, owner⟩ := owned path (by simp)
    obtain ⟨q, name, hd⟩ := hl.deletable stored owner
    have rest := ih (hl.afterDelete hd) nodup (by
      intro p hp
      obtain ⟨m, hm, ho⟩ := owned p (by simp [hp])
      exact ⟨m, hl.get_afterDelete_owned hd (fun e => fresh (e ▸ hp)) hm ho, ho⟩)
    rw [reaped_afterDelete hd (by simpa using fresh)] at rest
    rw [List.toFinset_cons]
    exact (Run.single (hl.delete_ok hd)).trans rest

end Reaping

section Owners
variable {st st' : KeeperStorage} {path q name created : String} {data : List UInt8}
variable {timestamp : Int} {sessionId : SessionId} {flags : Int32}

theorem ownerOf_eq_some (st : KeeperStorage) (p : String) (id : SessionId) :
    st.ownerOf p = some id ↔ ∃ n, st.map.get p = some n ∧ n.stat.ephemeralOwner = id := by
  simp [ownerOf]

theorem ownerOf_afterCreate (h : st.Creatable path flags q name created) (p : String) :
    (st.afterCreate data timestamp sessionId flags q name created).ownerOf p =
      if p = created then some (if isEphemeral flags then sessionId else 0) else st.ownerOf p := by
  rw [ownerOf, get_afterCreate h]
  by_cases hp : p = created
  · simp [hp, newNode]
  rw [if_neg hp, if_neg hp]
  split_ifs with hq
  · subst hq
    simp [ownerOf, Function.comp_def, Node.addChild]
  · rfl

theorem ownerOf_afterSet (p : String) :
    (st.afterSet path data timestamp).ownerOf p = st.ownerOf p := by
  rw [ownerOf, get_afterSet]
  split_ifs with hp
  · subst hp
    simp [ownerOf, Function.comp_def, Node.setData]
  · rfl

theorem ownerOf_afterDelete (h : st.Deletable path q name) (p : String) :
    (st.afterDelete path q name).ownerOf p = if p = path then none else st.ownerOf p := by
  rw [ownerOf, get_afterDelete h]
  by_cases hp : p = path
  · simp [hp]
  rw [if_neg hp, if_neg hp]
  split_ifs with hq
  · subst hq
    simp [ownerOf, Function.comp_def, Node.dropChild]
  · rfl

theorem ownerOf_reaped (paths : Finset String) (p : String) :
    (st.reaped paths).ownerOf p = if p ∈ paths then none else st.ownerOf p := by
  simp only [ownerOf, reaped]
  split_ifs
  · rfl
  · simp [Function.comp_def, Node.reap]

/-- The owner of a node that a successful call left behind. -/
theorem create_ok_ownerOf
    (done : st.create path data timestamp sessionId flags = .ok created st') (p : String) :
    st'.ownerOf p =
      if p = created then some (if isEphemeral flags then sessionId else 0) else st.ownerOf p := by
  obtain ⟨q, name, hc, rfl⟩ := (st.create_ok_iff _ _ _ _ _ _ _).mp done
  exact ownerOf_afterCreate hc p

theorem set_ok_ownerOf (done : st.set path data timestamp = .ok () st') (p : String) :
    st'.ownerOf p = st.ownerOf p := by
  obtain ⟨n, hn, he⟩ | ⟨_, he⟩ := st.set_eq path data timestamp
  · rw [he, Outcome.ok.injEq] at done
    rw [← done.2]
    exact ownerOf_afterSet p
  · rw [he] at done
    contradiction

theorem delete_ok_ownerOf (done : st.delete path = .ok () st') (p : String) :
    st'.ownerOf p = if p = path then none else st.ownerOf p := by
  obtain ⟨q, name, hd, -, rfl⟩ := delete_ok done
  exact ownerOf_afterDelete hd p

/-- What a successful call does to the index. -/
theorem create_ok_sessionState
    (done : st.create path data timestamp sessionId flags = .ok created st') :
    st.map.get created = none ∧ st'.sessionState =
      if isEphemeral flags then st.sessionState.addEphemeral sessionId created
      else st.sessionState := by
  obtain ⟨q, name, hc, rfl⟩ := (st.create_ok_iff _ _ _ _ _ _ _).mp done
  exact ⟨hc.fresh, rfl⟩

theorem set_ok_sessionState (done : st.set path data timestamp = .ok () st') :
    st'.sessionState = st.sessionState := by
  obtain ⟨n, hn, he⟩ | ⟨_, he⟩ := st.set_eq path data timestamp
  · rw [he, Outcome.ok.injEq] at done
    rw [← done.2]
    rfl
  · rw [he] at done
    contradiction

theorem delete_ok_sessionState (done : st.delete path = .ok () st') :
    st'.sessionState = st.sessionState := by
  obtain ⟨q, name, hd, -, rfl⟩ := delete_ok done
  rfl

theorem new_indexed (intervalMs : Int) : (new intervalMs).Indexed := by
  intro id p
  rw [ownerOf_eq_some]
  simp only [new_get]
  constructor
  · rintro ⟨paths, hp, -⟩
    cases hp
  · rintro ⟨hid, n, hn, ho⟩
    split_ifs at hn
    cases hn
    exact absurd ho.symm hid

/-- Only the owners and the index matter. -/
theorem Indexed.congr (h : st.Indexed) (owners : ∀ p, st'.ownerOf p = st.ownerOf p)
    (index : st'.sessionState.ephemerals = st.sessionState.ephemerals) : st'.Indexed := by
  intro id p
  rw [owners, ← h id p, SessionState.Owns, index]
  rfl

theorem Indexed.create_ok (h : st.Indexed) (issued : isEphemeral flags → sessionId ≠ 0)
    (done : st.create path data timestamp sessionId flags = .ok created st') : st'.Indexed := by
  obtain ⟨fresh, sessions⟩ := create_ok_sessionState done
  intro id p
  rw [create_ok_ownerOf done, sessions]
  have absent : st.ownerOf created = none := by simp [ownerOf, fresh]
  by_cases flag : isEphemeral flags = true
  · rw [if_pos flag, if_pos flag, SessionState.owns_addEphemeral, h id p]
    by_cases hp : p = created
    · subst hp
      simp only [absent, if_true, and_true, Option.some.injEq, reduceCtorEq, and_false, false_or]
      constructor
      · rintro rfl
        exact ⟨issued flag, rfl⟩
      · exact fun both => both.2.symm
    · simp [hp]
  · rw [if_neg flag, if_neg flag, h id p]
    by_cases hp : p = created
    · subst hp
      simp only [absent, if_true, Option.some.injEq, reduceCtorEq, and_false, false_iff]
      exact fun both => both.1 both.2.symm
    · simp [hp]

theorem Indexed.set_ok (h : st.Indexed) (done : st.set path data timestamp = .ok () st') :
    st'.Indexed :=
  h.congr (set_ok_ownerOf done) (by rw [set_ok_sessionState done])

theorem Indexed.of_delete_ok {path : String} {n : Node} (hi : st.Indexed)
    (stored : st.map.get path = some n) (done : st.delete path = .ok () st') :
    (st'.disowned n.stat.ephemeralOwner path).Indexed := by
  have owner : st.ownerOf path = some n.stat.ephemeralOwner := by simp [ownerOf, stored]
  have owners (p : String) : (st'.disowned n.stat.ephemeralOwner path).ownerOf p =
      if p = path then none else st.ownerOf p := by
    rw [← delete_ok_ownerOf done p]
    simp [ownerOf]
  intro id p
  rw [owners]
  by_cases owned : n.stat.ephemeralOwner = 0
  · have sessions : (st'.disowned n.stat.ephemeralOwner path).sessionState = st.sessionState := by
      rw [disowned, if_neg (not_not.mpr owned), delete_ok_sessionState done]
    rw [sessions, hi id p]
    by_cases hp : p = path
    · subst hp
      rw [owner, owned, if_pos rfl]
      simp only [Option.some.injEq, reduceCtorEq, and_false, iff_false]
      exact fun h => h.1 h.2.symm
    · rw [if_neg hp]
  · have sessions : (st'.disowned n.stat.ephemeralOwner path).sessionState =
        st.sessionState.removeEphemeral n.stat.ephemeralOwner path := by
      rw [disowned, if_pos owned, delete_ok_sessionState done]
    rw [sessions, SessionState.owns_removeEphemeral, hi id p]
    by_cases hp : p = path
    · subst hp
      rw [owner, if_pos rfl]
      simp only [Option.some.injEq, reduceCtorEq, and_false, iff_false, and_true]
      exact fun h => h.2 h.1.2.symm
    · simp [hp]

/-- Every ephemeral node stands in the index of its owner. The index may list more; a replay does
not take removed nodes out of it. -/
def Covered (st : KeeperStorage) : Prop :=
  ∀ id p, id ≠ 0 → st.ownerOf p = some id → st.sessionState.Owns id p

theorem Indexed.covered (h : st.Indexed) : st.Covered :=
  fun id p hid owner => (h id p).mpr ⟨hid, owner⟩

theorem Covered.create_ok (h : st.Covered)
    (done : st.create path data timestamp sessionId flags = .ok created st') : st'.Covered := by
  intro id p hid owner
  rw [create_ok_ownerOf done] at owner
  rw [(create_ok_sessionState done).2]
  by_cases hp : p = created
  · rw [if_pos hp, Option.some.injEq] at owner
    by_cases flag : isEphemeral flags = true
    · rw [if_pos flag] at owner ⊢
      exact (SessionState.owns_addEphemeral _ _ _ _ _).mpr (.inr ⟨owner.symm, hp⟩)
    · rw [if_neg flag] at owner
      exact absurd owner.symm hid
  · rw [if_neg hp] at owner
    split_ifs
    · exact (SessionState.owns_addEphemeral _ _ _ _ _).mpr (.inl (h id p hid owner))
    · exact h id p hid owner

theorem Covered.set_ok (h : st.Covered) (done : st.set path data timestamp = .ok () st') :
    st'.Covered := by
  intro id p hid owner
  rw [set_ok_ownerOf done] at owner
  rw [set_ok_sessionState done]
  exact h id p hid owner

theorem Covered.delete_ok (h : st.Covered) (done : st.delete path = .ok () st') :
    st'.Covered := by
  intro id p hid owner
  rw [delete_ok_ownerOf done] at owner
  split_ifs at owner
  rw [delete_ok_sessionState done]
  exact h id p hid owner

theorem Covered.disowned (h : st.Covered) (owner : SessionId) (gone : st.ownerOf path = none) :
    (st.disowned owner path).Covered := by
  intro id p hid own
  have same : (st.disowned owner path).ownerOf p = st.ownerOf p := by simp [ownerOf]
  rw [same] at own
  rw [KeeperStorage.disowned]
  split_ifs
  · refine (SessionState.owns_removeEphemeral _ _ _ _ _).mpr ⟨h id p hid own, ?_⟩
    rintro ⟨-, rfl⟩
    rw [gone] at own
    cases own
  · exact h id p hid own

theorem delete_ok_gone (done : st.delete path = .ok () st') : st'.ownerOf path = none := by
  rw [delete_ok_ownerOf done, if_pos rfl]

end Owners
end KeeperStorage
end TinyKeeper
