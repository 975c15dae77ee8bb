import TinyKeeper.Storage.Tree

/-! Changes of the tree. Every successful call is one change of the map, and a change is said once:
what it does to the node at a path, for any path. -/
namespace TinyKeeper

/-- A change of the tree, or a check of a version, with the version that was expected, if any
was. -/
inductive Change
  | created (req : CreateRequest) (path : String)
  | set (path : String) (expected : Option Int32)
  | removed (path : String) (expected : Option Int32)
  | checked (path : String) (expected : Option Int32)
  deriving DecidableEq

/-- The node whose child names change. -/
def Change.parent : Change → Option String
  | .created _ path | .removed path _ => (parentOf path).map Prod.fst
  | _ => none

def Change.creates : Change → Option String
  | .created _ path => some path
  | _ => none

def Change.sets : Change → Option String
  | .set path _ => some path
  | _ => none

def Change.removes : Change → Option String
  | .removed path _ => some path
  | _ => none

theorem Change.of_sets {c : Change} {p : String} (h : c.sets = some p) :
    c.creates = none ∧ c.parent = none := by
  cases c with
  | set path expected => exact ⟨rfl, rfl⟩
  | _ => cases h

theorem Change.sets_of_parent {c : Change} {p : String} (h : c.parent = some p) :
    c.sets = none := by
  cases c with
  | set path expected => cases h
  | _ => rfl

theorem Change.creates_of_removes {c : Change} {p : String} (h : c.removes = some p) :
    c.creates = none := by
  cases c with
  | created req path => cases h
  | _ => rfl

theorem Change.removes_of_creates {c : Change} {p : String} (h : c.creates = some p) :
    c.removes = none := by
  cases c with
  | removed path expected => cases h
  | _ => rfl

/-- The changes of one kind at `p` since its node was made. -/
def changesSince (kind : Change → Option String) (p : String) (trace : List Change) : ℕ :=
  trace.foldl
    (fun n c => if c.creates = some p then 0 else if kind c = some p then n + 1 else n) 0

def dataChanges : String → List Change → ℕ := changesSince Change.sets

def childChanges : String → List Change → ℕ := changesSince Change.parent

/-- A node as a create under this zxid makes it. -/
structure Node.Fresh (n : Node) (zxid : ℕ) : Prop where
  czxid : n.stat.czxid = zxid
  mzxid : n.stat.mzxid = zxid
  pzxid : n.stat.pzxid = zxid
  version : n.stat.version = 0
  cversion : n.stat.cversion = 0

/-- One change under a zxid. -/
inductive TreeStep (zxid : ℕ) (m : Table String Node) : Change → Table String Node → Prop
  | created {req : CreateRequest} {path q name : String} {n node : Node}
      (asked : ∃ c, parentOf req.path = some (q, c) ∧ c ≠ "")
      (split : parentOf path = some (q, name)) (name_ne : name ≠ "")
      (parent : m.get q = some n) (persistent : n.stat.ephemeralOwner = 0)
      (suffixed : path = createdPath req.path req.flags n.stat.cversion)
      (absent : m.get path = none) (fresh : node.Fresh zxid) :
      TreeStep zxid m (.created req path) ((m.insert path node).modify q (·.addChild name zxid))
  | set {path : String} {expected : Option Int32} {n : Node} {data : List UInt8}
      {timestamp : Int} (stored : m.get path = some n)
      (met : ∀ e, expected = some e → e = n.stat.version) :
      TreeStep zxid m (.set path expected) (m.modify path (·.setData data timestamp zxid))
  /-- The removed node is nobody's parent. -/
  | removed {path q name : String} {expected : Option Int32} {n k : Node}
      (stored : m.get path = some n) (met : ∀ e, expected = some e → e = n.stat.version)
      (split : parentOf path = some (q, name)) (name_ne : name ≠ "") (parent : m.get q = some k)
      (leaf : ∀ p c, m.get p ≠ none → p ≠ "/" → parentOf p ≠ some (path, c)) :
      TreeStep zxid m (.removed path expected) ((m.remove path).modify q (·.dropChild name zxid))
  | checked {path : String} {expected : Option Int32} {n : Node} (stored : m.get path = some n)
      (met : ∀ e, expected = some e → e = n.stat.version) :
      TreeStep zxid m (.checked path expected) m

/-- What a change does to the node at `p`. -/
inductive NodeStep (zxid : ℕ) (c : Change) (p : String) : Option Node → Option Node → Prop
  | made {node : Node} (this : c.creates = some p) (fresh : node.Fresh zxid) :
      NodeStep zxid c p none (some node)
  | set {n : Node} (this : c.sets = some p) (data : List UInt8) (timestamp : Int) :
      NodeStep zxid c p (some n) (some (n.setData data timestamp zxid))
  | gone {n : Node} (this : c.removes = some p) : NodeStep zxid c p (some n) none
  | linked {n : Node} (below : c.parent = some p) (other : c.creates ≠ some p) (name : String) :
      NodeStep zxid c p (some n) (some (n.addChild name zxid))
  | unlinked {n : Node} (below : c.parent = some p) (other : c.creates ≠ some p)
      (name : String) : NodeStep zxid c p (some n) (some (n.dropChild name zxid))
  | same {n : Option Node} (elsewhere : c.parent ≠ some p) (creates : c.creates ≠ some p)
      (sets : c.sets ≠ some p) (removes : c.removes ≠ some p) : NodeStep zxid c p n n

section Nodes
variable {zxid : ℕ} {m m' : Table String Node} {c : Change}

theorem parentOf_fst_iff {path q name : String} (split : parentOf path = some (q, name))
    (p : String) : (parentOf path).map Prod.fst = some p ↔ p = q := by
  rw [split, Option.map_some, Option.some.injEq]
  exact eq_comm

/-- The inversion of a change at one path. -/
theorem TreeStep.node (h : TreeStep zxid m c m') (p : String) :
    NodeStep zxid c p (m.get p) (m'.get p) := by
  have other_path {path : String} (there : p ≠ path) : some path ≠ some p :=
    fun same => there (Option.some.inj same).symm
  cases h with
  | @created req path q name n node asked split name_ne parent persistent suffixed absent fresh =>
    have other : q ≠ path := parentOf_ne split name_ne
    have below : (Change.created req path).parent = some p ↔ p = q := parentOf_fst_iff split p
    rw [Table.get_modify, Table.get_insert_of_ne _ _ other, Table.get_insert]
    by_cases parent_here : p = q
    · subst parent_here
      rw [if_pos rfl, parent]
      exact .linked (below.mpr rfl) (other_path other) name
    rw [if_neg parent_here]
    by_cases here : p = path
    · subst here
      rw [if_pos rfl, absent]
      exact .made rfl fresh
    · rw [if_neg here]
      exact .same (fun h => parent_here (below.mp h)) (other_path here) (by simp [Change.sets])
        (by simp [Change.removes])
  | @set path expected n data timestamp stored met =>
    rw [Table.get_modify]
    by_cases here : p = path
    · subst here
      rw [if_pos rfl, stored]
      exact .set rfl data timestamp
    · rw [if_neg here]
      exact .same (by simp [Change.parent]) (by simp [Change.creates]) (other_path here)
        (by simp [Change.removes])
  | @removed path q name expected n k stored met split name_ne parent leaf =>
    have other : q ≠ path := parentOf_ne split name_ne
    have below : (Change.removed path expected).parent = some p ↔ p = q :=
      parentOf_fst_iff split p
    rw [Table.get_modify, Table.get_remove_of_ne _ other, Table.get_remove]
    by_cases parent_here : p = q
    · subst parent_here
      rw [if_pos rfl, parent]
      exact .unlinked (below.mpr rfl) (by simp [Change.creates]) name
    rw [if_neg parent_here]
    by_cases here : p = path
    · subst here
      rw [if_pos rfl, stored]
      exact .gone rfl
    · rw [if_neg here]
      exact .same (fun h => parent_here (below.mp h)) (by simp [Change.creates])
        (by simp [Change.sets]) (other_path here)
  | checked stored met =>
    exact .same (by simp [Change.parent]) (by simp [Change.creates]) (by simp [Change.sets])
      (by simp [Change.removes])

end Nodes

/-- One change under some zxid. -/
def TreeChange (m : Table String Node) (c : Change) (m' : Table String Node) : Prop :=
  ∃ zxid, TreeStep zxid m c m'

theorem TreeStep.run_changes {zxid : ℕ} {m m' : Table String Node} {trace : List Change}
    (h : Run (TreeStep zxid) m trace m') : Run TreeChange m trace m' :=
  h.mono fun _ _ _ step => ⟨zxid, step⟩

section Counting
variable {kind : Change → Option String} {p : String}

theorem changesSince_concat (trace : List Change) (c : Change) :
    changesSince kind p (trace ++ [c]) =
      if c.creates = some p then 0
      else if kind c = some p then changesSince kind p trace + 1 else changesSince kind p trace := by
  rw [changesSince, List.foldl_append]
  rfl

/-- As long as the node is not made again the count goes up. -/
theorem changesSince_le {trace more : List Change} (stays : ∀ c ∈ more, c.creates ≠ some p) :
    changesSince kind p trace ≤ changesSince kind p (trace ++ more) := by
  induction more using List.reverseRecOn with
  | nil => rw [List.append_nil]
  | append_singleton more c ih =>
    have before := ih (fun c mem => stays c (List.mem_append_left _ mem))
    rw [← List.append_assoc, changesSince_concat, if_neg (stays c (by simp))]
    split_ifs <;> omega

variable {zxid : ℕ} {m m' : Table String Node} {c : Change}

/-- The counters of a node are the numbers of its changes since it was made. -/
def Counted (trace : List Change) (m : Table String Node) : Prop :=
  ∀ p n, m.get p = some n → n.stat.version = Int32.ofNat (dataChanges p trace) ∧
    n.stat.cversion = Int32.ofNat (childChanges p trace)

theorem ofNat_succ (k : ℕ) : Int32.ofNat (k + 1) = Int32.ofNat k + 1 := Int32.ofNat_add k 1

theorem Counted.step {trace : List Change} (counted : Counted trace m) (h : TreeStep zxid m c m') :
    Counted (trace ++ [c]) m' := by
  intro p n stored
  have step := h.node p
  have before := counted p
  rw [stored] at step
  generalize m.get p = o at step before
  unfold dataChanges childChanges at before ⊢
  rw [changesSince_concat, changesSince_concat]
  cases step with
  | made this fresh =>
    rw [if_pos this, if_pos this]
    exact ⟨fresh.version, fresh.cversion⟩
  | @set n this data timestamp =>
    obtain ⟨version, cversion⟩ := before n rfl
    obtain ⟨creates, parent⟩ := Change.of_sets this
    simp [creates, parent, this, Node.setData, ofNat_succ, version, cversion]
  | @linked n below other name =>
    obtain ⟨version, cversion⟩ := before n rfl
    simp [other, below, Change.sets_of_parent below, Node.addChild, ofNat_succ, version, cversion]
  | @unlinked n below other name =>
    obtain ⟨version, cversion⟩ := before n rfl
    simp [other, below, Change.sets_of_parent below, Node.dropChild, ofNat_succ, version, cversion]
  | same elsewhere creates sets removes =>
    rw [if_neg creates, if_neg creates, if_neg sets, if_neg elsewhere]
    exact before n rfl

end Counting

theorem counted_new (intervalMs : Int) : Counted [] (KeeperStorage.new intervalMs).map := by
  intro p n stored
  rw [KeeperStorage.new_get] at stored
  split_ifs at stored
  rw [← Option.some.inj stored]
  exact ⟨rfl, rfl⟩

theorem counted_of_run {intervalMs : Int} {trace : List Change} {m : Table String Node}
    (h : Run TreeChange (KeeperStorage.new intervalMs).map trace m) : Counted trace m := by
  induction h with
  | nil => exact counted_new intervalMs
  | snoc _ last ih =>
    obtain ⟨zxid, step⟩ := last
    exact ih.step step

/-- As long as there are less than 2^31 of them, more changes mean a larger counter. -/
theorem ofNat_le_ofNat {k k' : ℕ} (less : k ≤ k') (small : k' < 2 ^ 31) :
    Int32.ofNat k ≤ Int32.ofNat k' := by
  rw [Int32.le_iff_toInt_le, Int32.toInt_ofNat_of_lt small,
    Int32.toInt_ofNat_of_lt (less.trans_lt small)]
  exact Int.ofNat_le.mpr less

namespace KeeperStorage
variable {st st' : KeeperStorage} {path created : String} {data : List UInt8} {timestamp : Int}

theorem create_ok_change {sessionId : SessionId} {flags : Int32}
    (done : st.create path data timestamp sessionId flags = .ok created st') :
    TreeStep st.lastZxid st.map (.created ⟨path, data, flags⟩ created) st'.map := by
  obtain ⟨q, name, hc, rfl⟩ := (create_ok_iff _ _ _ _ _ _ _ _).mp done
  obtain ⟨n, stored, persistent, suffixed⟩ := hc.parent
  exact .created hc.split hc.createdSplit hc.name_ne stored persistent suffixed hc.fresh
    ⟨rfl, rfl, rfl, rfl, rfl⟩

theorem set_ok_stored (done : st.set path data timestamp = .ok () st') :
    ∃ n, st.map.get path = some n := by
  obtain ⟨n, stored, -⟩ | ⟨-, failed⟩ := st.set_eq path data timestamp
  · exact ⟨n, stored⟩
  · rw [failed] at done
    cases done

theorem set_ok_change {n : Node} {expected : Option Int32} (stored : st.map.get path = some n)
    (met : ∀ e, expected = some e → e = n.stat.version)
    (done : st.set path data timestamp = .ok () st') :
    TreeStep st.lastZxid st.map (.set path expected) st'.map := by
  have result := set_of_stored stored data timestamp
  rw [done, Outcome.ok.injEq] at result
  obtain ⟨-, rfl⟩ := result
  exact .set stored met

theorem Linked.delete_ok_change (hl : st.Linked) {n : Node} {expected : Option Int32}
    (stored : st.map.get path = some n) (met : ∀ e, expected = some e → e = n.stat.version)
    (done : st.delete path = .ok () st') :
    TreeStep st.lastZxid st.map (.removed path expected) st'.map := by
  obtain ⟨q, name, hd, parent, rfl⟩ := KeeperStorage.delete_ok done
  obtain ⟨k, parent⟩ := Option.ne_none_iff_exists'.mp parent
  refine .removed stored met hd.split hd.name_ne parent fun p c there ne split => ?_
  obtain ⟨child, there⟩ := Option.ne_none_iff_exists'.mp there
  exact hl.not_parent hd there ne split

end KeeperStorage
end TinyKeeper
