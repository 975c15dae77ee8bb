import TinyKeeper.SessionExpiryQueue
import TinyKeeper.WatchState

/-! The in-memory tree with its sessions and watches. The tree is kept twice, as a flat map from
paths to nodes and as the set of child names in every node. -/
namespace TinyKeeper

structure Node where
  stat : Stat := {}
  data : List UInt8 := []
  children : Finset String := ∅
  deriving DecidableEq

/-- A computation that may panic, with the message of the panic. -/
abbrev Panics (α : Type) := Except String α

theorem Panics.bind_eq_ok {α β : Type} {x : Panics α} {f : α → Panics β} {b : β} :
    (x >>= f) = .ok b ↔ ∃ a, x = .ok a ∧ f a = .ok b := by
  cases x with
  | error message => simp [bind, Except.bind]
  | ok a => simp [bind, Except.bind]

/-- How a call that mutates the tree ends: a value with the new state, an `Err` before the first
mutation, or a panic. -/
inductive Outcome (σ α : Type)
  | ok (value : α) (next : σ)
  | err (message : String)
  | panic (message : String)

def unwrapNone : String := "called Option::unwrap() on a None value"

structure SessionState where
  sessionAndTimeout : Table SessionId Int
  ephemerals : Table SessionId (Finset String)
  nextSessionId : Int
  expiryQueue : SessionExpiryQueue

namespace SessionState

def new (intervalMs : Int) : SessionState := ⟨.empty, .empty, 1, .new intervalMs⟩

def createSession (s : SessionState) (timeoutMs now : Int) : SessionState × SessionId :=
  let id := s.nextSessionId
  ({ s with
    nextSessionId := s.nextSessionId + 1
    sessionAndTimeout := s.sessionAndTimeout.insert id timeoutMs
    expiryQueue := s.expiryQueue.touch id timeoutMs now }, id)

def touchSession (s : SessionState) (id : SessionId) (now : Int) : SessionState :=
  match s.sessionAndTimeout.get id with
  | some timeoutMs => { s with expiryQueue := s.expiryQueue.touch id timeoutMs now }
  | none => s

@[simp] theorem sessionAndTimeout_touchSession (s : SessionState) (id : SessionId) (now : Int) :
    (s.touchSession id now).sessionAndTimeout = s.sessionAndTimeout := by
  unfold touchSession
  split <;> rfl

@[simp] theorem ephemerals_touchSession (s : SessionState) (id : SessionId) (now : Int) :
    (s.touchSession id now).ephemerals = s.ephemerals := by
  unfold touchSession
  split <;> rfl

def addEphemeral (s : SessionState) (id : SessionId) (path : String) : SessionState :=
  { s with ephemerals := s.ephemerals.insert id (insert path ((s.ephemerals.get id).getD ∅)) }

def removeEphemeral (s : SessionState) (id : SessionId) (path : String) : SessionState :=
  match s.ephemerals.get id with
  | none => s
  | some paths =>
    if paths.erase path = ∅ then { s with ephemerals := s.ephemerals.remove id }
    else { s with ephemerals := s.ephemerals.insert id (paths.erase path) }

/-- The session's ephemeral paths are handed to the caller, which deletes the nodes. -/
def closeSession (s : SessionState) (orders : HashOrders) (id : SessionId) :
    SessionState × List String :=
  ({ s with
    sessionAndTimeout := s.sessionAndTimeout.remove id
    expiryQueue := (s.expiryQueue.remove id).1
    ephemerals := s.ephemerals.remove id },
    ((s.ephemerals.get id).map orders.paths.list).getD [])

def getExpired (s : SessionState) (orders : HashOrders) (now : Int) : List SessionId :=
  s.expiryQueue.getExpired orders.sessions now

def restoreSession (s : SessionState) (id : SessionId) (timeoutMs : Int) : SessionState :=
  { s with
    sessionAndTimeout := s.sessionAndTimeout.insert id timeoutMs
    nextSessionId := if id ≥ s.nextSessionId then id + 1 else s.nextSessionId }

/-- Path `p` stands in the ephemeral set of session `id`. -/
def Owns (s : SessionState) (id : SessionId) (p : String) : Prop :=
  ∃ paths, s.ephemerals.get id = some paths ∧ p ∈ paths

end SessionState

structure KeeperStorage where
  map : Table String Node
  lastZxid : ℕ
  sessionState : SessionState
  watchState : WatchState

/-- The bookkeeping in the parent when a child is linked. -/
def Node.addChild (n : Node) (name : String) (zxid : ℕ) : Node :=
  { n with
    children := insert name n.children
    stat := { n.stat with cversion := n.stat.cversion + 1, pzxid := zxid } }

/-- The bookkeeping in the parent when a child is unlinked. -/
def Node.dropChild (n : Node) (name : String) (zxid : ℕ) : Node :=
  { n with
    children := n.children.erase name
    stat := { n.stat with cversion := n.stat.cversion + 1, pzxid := zxid } }

def Node.setData (n : Node) (data : List UInt8) (timestamp : Int) (zxid : ℕ) : Node :=
  { n with
    data := data
    stat := { n.stat with version := n.stat.version + 1, mzxid := zxid, mtime := timestamp } }

/-- Flag bit 0: the node is ephemeral. -/
def isEphemeral (flags : Int32) : Bool := flags &&& 1 != 0

/-- Flag bit 1: the parent's cversion is appended to the name. -/
def isSequential (flags : Int32) : Bool := flags &&& 2 != 0

def createdPath (path : String) (flags seqNum : Int32) : String :=
  if isSequential flags then path ++ formatSeq seqNum else path

namespace KeeperStorage

def new (intervalMs : Int) : KeeperStorage where
  map := Table.empty.insert "/" {}
  lastZxid := 0
  sessionState := .new intervalMs
  watchState := .new

def nextZxid (st : KeeperStorage) : KeeperStorage := { st with lastZxid := st.lastZxid + 1 }

def setLastZxid (st : KeeperStorage) (zxid : ℕ) : KeeperStorage := { st with lastZxid := zxid }

def newNode (st : KeeperStorage) (data : List UInt8) (timestamp : Int) (sessionId : SessionId)
    (flags : Int32) : Node where
  data := data
  stat :=
    { czxid := st.lastZxid
      mzxid := st.lastZxid
      ctime := timestamp
      mtime := timestamp
      ephemeralOwner := if isEphemeral flags then sessionId else 0
      pzxid := st.lastZxid }

def create (st : KeeperStorage) (path : String) (data : List UInt8) (timestamp : Int)
    (sessionId : SessionId) (flags : Int32) : Outcome KeeperStorage String :=
  match splitPath path with
  | none => .err "Invalid path format"
  | some (parent, childName) =>
    if childName = "" then .err "Cannot create root node"
    else
      match st.map.get (parentPath parent) with
      | none => .err "Parent node does not exist"
      | some parentNode =>
        if parentNode.stat.ephemeralOwner ≠ 0 then .err "Cannot create child under ephemeral node"
        else
          let created := createdPath path flags parentNode.stat.cversion
          if st.map.contains created then .err "Node already exists"
          else
            let map := st.map.insert created (st.newNode data timestamp sessionId flags)
            let sessionState :=
              if isEphemeral flags then st.sessionState.addEphemeral sessionId created
              else st.sessionState
            -- The parent is looked up again, and the name is taken from the created path.
            match map.get (parentPath parent), splitPath created with
            | some parentNode, some (_, name) =>
              .ok created { st with
                map := map.insert (parentPath parent) (parentNode.addChild name st.lastZxid)
                sessionState := sessionState }
            | _, _ => .panic unwrapNone

def traverse (st : KeeperStorage) (path : String) : Option Node := st.map.get path

def «exists» (st : KeeperStorage) (path : String) : Bool := st.map.contains path

def set (st : KeeperStorage) (path : String) (data : List UInt8) (timestamp : Int) :
    Outcome KeeperStorage Unit :=
  match st.map.get path with
  | some node =>
    .ok () { st with map := st.map.insert path (node.setData data timestamp st.lastZxid) }
  | none => .err "Node not found"

def delete (st : KeeperStorage) (path : String) : Outcome KeeperStorage Unit :=
  match splitPath path with
  | none => .err "Invalid path format"
  | some (parent, childName) =>
    if childName = "" then .err "Cannot delete root node"
    else
      match st.map.get path with
      | none => .err "Node not found"
      | some node =>
        if node.children ≠ ∅ then .err "Node has children"
        else
          let map := st.map.remove path
          match map.get (parentPath parent) with
          | some parentNode =>
            .ok () { st with
              map := map.insert (parentPath parent) (parentNode.dropChild childName st.lastZxid) }
          | none => .panic unwrapNone

/-! What each operation does, said once. -/

/-- The checks of `create` pass; `q` is the computed parent, `name` the last component of the
path that will be created. -/
structure Creatable (st : KeeperStorage) (path : String) (flags : Int32)
    (q name created : String) : Prop where
  split : ∃ c, parentOf path = some (q, c) ∧ c ≠ ""
  parent : ∃ n, st.map.get q = some n ∧ n.stat.ephemeralOwner = 0 ∧
    created = createdPath path flags n.stat.cversion
  fresh : st.map.get created = none
  createdSplit : parentOf created = some (q, name)

def afterCreate (st : KeeperStorage) (data : List UInt8) (timestamp : Int)
    (sessionId : SessionId) (flags : Int32) (q name created : String) : KeeperStorage :=
  { st with
    map := (st.map.insert created (st.newNode data timestamp sessionId flags)).modify q
      (·.addChild name st.lastZxid)
    sessionState :=
      if isEphemeral flags then st.sessionState.addEphemeral sessionId created
      else st.sessionState }

theorem parentOf_createdPath {path q c : String} (flags seqNum : Int32)
    (h : parentOf path = some (q, c)) (hc : c ≠ "") :
    ∃ name, parentOf (createdPath path flags seqNum) = some (q, name) ∧ name ≠ "" := by
  unfold createdPath
  split_ifs
  · refine ⟨_, parentOf_append _ h (not_slash_mem_formatSeq seqNum), ?_⟩
    intro he
    have := congrArg String.length he
    simp only [String.length_append, String.length_empty] at this
    exact hc (by simpa using Nat.eq_zero_of_add_eq_zero_right this)
  · exact ⟨c, h, hc⟩

theorem Creatable.name_ne {st : KeeperStorage} {path : String} {flags : Int32}
    {q name created : String} (h : st.Creatable path flags q name created) : name ≠ "" := by
  obtain ⟨c, hc, hne⟩ := h.split
  obtain ⟨n, _, _, hcr⟩ := h.parent
  obtain ⟨name', hn, hne'⟩ := parentOf_createdPath flags n.stat.cversion hc hne
  obtain ⟨-, rfl⟩ := parentOf_det h.createdSplit (hcr ▸ hn)
  exact hne'

/-- The checks fix the parent, the name and the created path. -/
theorem Creatable.unique {st : KeeperStorage} {path : String} {flags : Int32}
    {q name created q' name' created' : String} (h : st.Creatable path flags q name created)
    (h' : st.Creatable path flags q' name' created') :
    q' = q ∧ name' = name ∧ created' = created := by
  obtain ⟨c, hs, _⟩ := h.split
  obtain ⟨c', hs', _⟩ := h'.split
  obtain ⟨rfl, rfl⟩ := parentOf_det hs hs'
  obtain ⟨n, hn, _, rfl⟩ := h.parent
  obtain ⟨n', hn', _, rfl⟩ := h'.parent
  obtain rfl : n = n' := Option.some.inj (hn.symm.trans hn')
  exact ⟨rfl, (parentOf_det h.createdSplit h'.createdSplit).2, rfl⟩

theorem create_eq (st : KeeperStorage) (path : String) (data : List UInt8) (timestamp : Int)
    (sessionId : SessionId) (flags : Int32) :
    (∃ q name created, st.Creatable path flags q name created ∧
      st.create path data timestamp sessionId flags =
        .ok created (st.afterCreate data timestamp sessionId flags q name created)) ∨
    (∃ message, st.create path data timestamp sessionId flags = .err message ∧
      ∀ q name created, ¬ st.Creatable path flags q name created) := by
  unfold create
  cases hs : splitPath path with
  | none =>
    right
    refine ⟨_, rfl, fun q name created h => ?_⟩
    obtain ⟨c, hc, _⟩ := h.split
    simp [parentOf, hs] at hc
  | some pc =>
    obtain ⟨p, c⟩ := pc
    have hp : parentOf path = some (parentPath p, c) := by simp [parentOf, hs]
    simp only
    by_cases hc : c = ""
    · rw [if_pos hc]
      right
      refine ⟨_, rfl, fun q name created h => ?_⟩
      obtain ⟨d, hd, hne⟩ := h.split
      exact hne ((parentOf_det hp hd).2.trans hc)
    · rw [if_neg hc]
      cases hn : st.map.get (parentPath p) with
      | none =>
        right
        refine ⟨_, rfl, fun q name created h => ?_⟩
        obtain ⟨d, hd, _⟩ := h.split
        obtain ⟨n, hq, _⟩ := h.parent
        rw [(parentOf_det hp hd).1, hn] at hq
        contradiction
      | some n =>
        have sameParent : ∀ {q name created}, st.Creatable path flags q name created →
            n.stat.ephemeralOwner = 0 ∧ created = createdPath path flags n.stat.cversion := by
          intro q name created h
          obtain ⟨d, hd, _⟩ := h.split
          obtain ⟨m, hq, ho, hcr⟩ := h.parent
          rw [(parentOf_det hp hd).1, hn, Option.some.injEq] at hq
          subst hq
          exact ⟨ho, hcr⟩
        simp only
        by_cases ho : n.stat.ephemeralOwner = 0
        swap
        · rw [if_pos ho]
          right
          exact ⟨_, rfl, fun q name created h => ho (sameParent h).1⟩
        rw [if_neg (not_not.mpr ho)]
        by_cases he : st.map.contains (createdPath path flags n.stat.cversion) = true
        · rw [if_pos he]
          right
          refine ⟨_, rfl, fun q name created h => ?_⟩
          obtain ⟨v, hv⟩ := (Table.contains_eq_true_iff _ _).mp he
          rw [← (sameParent h).2, h.fresh] at hv
          contradiction
        · rw [if_neg he]
          left
          have fresh := (Table.contains_eq_false_iff _ _).mp (Bool.eq_false_iff.mpr he)
          obtain ⟨name, hname, _⟩ := parentOf_createdPath flags n.stat.cversion hp hc
          refine ⟨parentPath p, name, _, ⟨⟨c, hp, hc⟩, ⟨n, hn, ho, rfl⟩, fresh, hname⟩, ?_⟩
          have hne : parentPath p ≠ createdPath path flags n.stat.cversion := by
            intro h
            rw [h, fresh] at hn
            contradiction
          obtain ⟨p', hp', _⟩ := (parentOf_eq_some_iff _ _ _).mp hname
          have hget := hn
          rw [← Table.get_insert_of_ne st.map (st.newNode data timestamp sessionId flags) hne]
            at hget
          simp only [hget, hp', afterCreate]
          rw [Table.insert_eq_modify _ _ _ (·.addChild name st.lastZxid) n hget rfl]

theorem create_ok_iff (st : KeeperStorage) (path : String) (data : List UInt8) (timestamp : Int)
    (sessionId : SessionId) (flags : Int32) (created : String) (st' : KeeperStorage) :
    st.create path data timestamp sessionId flags = .ok created st' ↔
      ∃ q name, st.Creatable path flags q name created ∧
        st' = st.afterCreate data timestamp sessionId flags q name created := by
  constructor
  · intro h
    rcases st.create_eq path data timestamp sessionId flags with
      ⟨q, name, cr, hc, he⟩ | ⟨m, he, _⟩
    · rw [he, Outcome.ok.injEq] at h
      obtain ⟨rfl, rfl⟩ := h
      exact ⟨q, name, hc, rfl⟩
    · rw [he] at h
      contradiction
  · rintro ⟨q, name, hc, rfl⟩
    rcases st.create_eq path data timestamp sessionId flags with
      ⟨q', name', cr, hc', he⟩ | ⟨m, _, hn⟩
    · obtain ⟨rfl, rfl, rfl⟩ := hc.unique hc'
      exact he
    · exact absurd hc (hn q name created)

/-- The checks of `delete` pass; `q` is the computed parent, `name` the last component. -/
structure Deletable (st : KeeperStorage) (path q name : String) : Prop where
  split : parentOf path = some (q, name)
  name_ne : name ≠ ""
  node : ∃ n, st.map.get path = some n ∧ n.children = ∅

def afterDelete (st : KeeperStorage) (path q name : String) : KeeperStorage :=
  { st with map := (st.map.remove path).modify q (·.dropChild name st.lastZxid) }

/-- A delete fails its checks, succeeds, or panics because the parent is missing. -/
theorem delete_eq (st : KeeperStorage) (path : String) :
    (∃ q name, st.Deletable path q name ∧ st.map.get q ≠ none ∧
      st.delete path = .ok () (st.afterDelete path q name)) ∨
    (∃ message, st.delete path = .err message ∧ ∀ q name, ¬ st.Deletable path q name) ∨
    (∃ q name, st.Deletable path q name ∧ st.map.get q = none ∧
      st.delete path = .panic unwrapNone) := by
  unfold delete
  cases hs : splitPath path with
  | none =>
    right; left
    refine ⟨_, rfl, fun q name h => ?_⟩
    have := h.split
    simp [parentOf, hs] at this
  | some pc =>
    obtain ⟨p, c⟩ := pc
    have hp : parentOf path = some (parentPath p, c) := by simp [parentOf, hs]
    simp only
    split_ifs with hc
    · right; left
      refine ⟨_, rfl, fun q name h => ?_⟩
      exact h.name_ne ((parentOf_det hp h.split).2.trans hc)
    · cases hn : st.map.get path with
      | none =>
        right; left
        refine ⟨_, rfl, fun q name h => ?_⟩
        obtain ⟨n, hg, _⟩ := h.node
        rw [hn] at hg
        contradiction
      | some n =>
        simp only
        split_ifs with he
        · right; left
          refine ⟨_, rfl, fun q name h => ?_⟩
          obtain ⟨m, hg, hm⟩ := h.node
          rw [hn, Option.some.injEq] at hg
          subst hg
          exact he hm
        · rw [not_not] at he
          have del : st.Deletable path (parentPath p) c := ⟨hp, hc, n, hn, he⟩
          have hne : parentPath p ≠ path := parentOf_ne hp hc
          have hrem := Table.get_remove_of_ne st.map hne
          cases hq : st.map.get (parentPath p) with
          | none =>
            right; right
            rw [hrem, hq]
            exact ⟨_, _, del, hq, rfl⟩
          | some m =>
            left
            rw [hrem, hq]
            refine ⟨_, _, del, by simp [hq], ?_⟩
            simp only [afterDelete]
            rw [Table.insert_eq_modify _ _ _ (·.dropChild c st.lastZxid) m (hrem.trans hq) rfl]

theorem delete_of_deletable {st : KeeperStorage} {path q name : String}
    (h : st.Deletable path q name) (hq : st.map.get q ≠ none) :
    st.delete path = .ok () (st.afterDelete path q name) := by
  obtain ⟨q', name', h', _, he⟩ | ⟨_, _, hn⟩ | ⟨q', name', h', hq', _⟩ := st.delete_eq path
  · obtain ⟨rfl, rfl⟩ := parentOf_det h.split h'.split
    exact he
  · exact absurd h (hn q name)
  · obtain ⟨rfl, rfl⟩ := parentOf_det h.split h'.split
    exact absurd hq' hq

theorem delete_ok {st st' : KeeperStorage} {path : String} (h : st.delete path = .ok () st') :
    ∃ q name, st.Deletable path q name ∧ st.map.get q ≠ none ∧
      st' = st.afterDelete path q name := by
  obtain ⟨q, name, hd, hq, he⟩ | ⟨_, he, _⟩ | ⟨_, _, _, _, he⟩ := st.delete_eq path
  · rw [he, Outcome.ok.injEq] at h
    exact ⟨q, name, hd, hq, h.2.symm⟩
  · rw [he] at h
    contradiction
  · rw [he] at h
    contradiction

def afterSet (st : KeeperStorage) (path : String) (data : List UInt8) (timestamp : Int) :
    KeeperStorage :=
  { st with map := st.map.modify path (·.setData data timestamp st.lastZxid) }

theorem set_of_stored {st : KeeperStorage} {path : String} {n : Node}
    (h : st.map.get path = some n) (data : List UInt8) (timestamp : Int) :
    st.set path data timestamp = .ok () (st.afterSet path data timestamp) := by
  simp only [set, h, afterSet]
  rw [Table.insert_eq_modify _ _ _ (·.setData data timestamp st.lastZxid) n h rfl]

theorem set_eq (st : KeeperStorage) (path : String) (data : List UInt8) (timestamp : Int) :
    (∃ n, st.map.get path = some n ∧
      st.set path data timestamp = .ok () (st.afterSet path data timestamp)) ∨
    (st.map.get path = none ∧ st.set path data timestamp = .err "Node not found") := by
  cases h : st.map.get path with
  | none => exact .inr ⟨rfl, by simp [set, h]⟩
  | some n => exact .inl ⟨n, rfl, set_of_stored h data timestamp⟩

/-- What a restart has to bring back. -/
@[ext] structure Durable where
  map : Table String Node
  lastZxid : ℕ
  sessionAndTimeout : Table SessionId Int
  ephemerals : Table SessionId (Finset String)

def durable (st : KeeperStorage) : Durable :=
  ⟨st.map, st.lastZxid, st.sessionState.sessionAndTimeout, st.sessionState.ephemerals⟩

end KeeperStorage
end TinyKeeper
