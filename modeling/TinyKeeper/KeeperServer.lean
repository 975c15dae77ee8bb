import Mathlib.Data.Finset.Sort
import Mathlib.Data.String.Basic
import TinyKeeper.KeeperServer.Operation
import TinyKeeper.Storage

/-! The server: the request handlers, the two session ends, and the replay that rebuilds the tree
from the log. -/
namespace TinyKeeper

/-- What the world supplies to one step: the clock, the outcome of the file operations, and the
orders in which hash sets are iterated. -/
structure Env where
  now : Int
  flush : FlushIo
  orders : HashOrders

/-- All files work. -/
noncomputable def Env.working (now : Int) : Env := ⟨now, .succeeds, ⟨.choice, .choice, .choice⟩⟩

structure KeeperServer (recordBytes : LogRecord → ℕ) where
  storage : KeeperStorage
  wal : WalStore (LogRecord.format recordBytes)

/-- The reply to one request, and the notifications to hand to the sessions' channels. -/
structure ApplyResult where
  response : Reply
  watchEvents : List WatchEvent
  deriving DecidableEq

/-- How a step of the server ends: with a result and the next state, in a panic, or by stopping
the process and leaving the state behind. -/
inductive Exec (σ α : Type)
  | done (result : α) (next : σ)
  | panic (message : String)
  | abort (next : σ)

/-- `expect` on the outcome of a mutation. -/
def Outcome.expect {σ α : Type} (message : String) : Outcome σ α → Panics (α × σ)
  | .ok value next => .ok (value, next)
  | .err _ => .error message
  | .panic m => .error m

theorem Outcome.expect_eq_ok {σ α : Type} {message : String} {o : Outcome σ α} {a : α × σ} :
    o.expect message = .ok a ↔ o = .ok a.1 a.2 := by
  obtain ⟨value, next⟩ := a
  cases o <;> simp [expect]

/-- Delete the nodes of an ended session; a delete that fails is ignored. -/
def KeeperStorage.cleanup (st : KeeperStorage) : List String → Panics KeeperStorage
  | [] => .ok st
  | path :: paths =>
    match st.delete path with
    | .ok _ st => st.cleanup paths
    | .err _ => st.cleanup paths
    | .panic message => .error message

/-- The reply code for an error of `create` inside a batch. -/
def createErrorCode (error : String) : ErrorCode :=
  if error = "Parent node does not exist" then .noNode
  else if error = "Node already exists" then .nodeExists
  else if error = "Cannot create child under ephemeral node" then .noChildrenForEphemerals
  else if error = "Invalid path format" ∨ error = "Cannot create root node" then .badArguments
  else .systemError

/-- The progress of a batch on the staged copy of the tree. -/
structure MultiProgress where
  staged : KeeperStorage
  responses : List MultiOpResponse
  walOperations : List MultiWalOperation
  watchEvents : List WatchEvent

namespace MultiProgress

/-- Record a successful operation. -/
def push (m : MultiProgress) (staged : KeeperStorage) (response : MultiOpResponse)
    (logged : List MultiWalOperation) (events : List WatchEvent) : MultiProgress where
  staged := staged
  responses := m.responses ++ [response]
  walOperations := m.walOperations ++ logged
  watchEvents := m.watchEvents ++ events

def check (m : MultiProgress) (req : CheckRequest) : Panics (Except ErrorCode MultiProgress) :=
  match m.staged.traverse req.path with
  | none => .ok (.error .noNode)
  | some node =>
    if req.version ≠ -1 ∧ req.version ≠ node.stat.version then .ok (.error .badVersion)
    else .ok (.ok (m.push m.staged .check [] []))

def set (m : MultiProgress) (env : Env) (req : SetDataRequest) :
    Panics (Except ErrorCode MultiProgress) :=
  match m.staged.traverse req.path with
  | none => .ok (.error .noNode)
  | some node =>
    if req.version ≠ -1 ∧ req.version ≠ node.stat.version then .ok (.error .badVersion)
    else do
      let (_, staged) ← (m.staged.set req.path req.data env.now).expect
        "node was validated to exist"
      let (watchState, events) := staged.watchState.fire env.orders req.path .changed
      let staged := { staged with watchState }
      match staged.traverse req.path with
      | none => .error "Set does not remove the node"
      | some updated =>
        .ok (.ok (m.push staged
          (.set updated.stat (Int32.ofNat updated.data.length)
            (Int32.ofNat updated.children.card))
          [.set req.path req.data] events))

def create (m : MultiProgress) (env : Env) (sessionId : SessionId) (req : CreateRequest) :
    Panics (Except ErrorCode MultiProgress) :=
  match m.staged.create req.path req.data env.now sessionId req.flags with
  | .ok path staged =>
    let (watchState, events) := staged.watchState.fire env.orders path .created
    .ok (.ok (m.push { staged with watchState } (.create path)
      [.create req.path req.data req.flags] events))
  | .err error => .ok (.error (createErrorCode error))
  | .panic message => .error message

def delete (m : MultiProgress) (env : Env) (req : DeleteRequest) :
    Panics (Except ErrorCode MultiProgress) :=
  match m.staged.traverse req.path with
  | none => .ok (.error .noNode)
  | some node =>
    if req.version ≠ -1 ∧ req.version ≠ node.stat.version then .ok (.error .badVersion)
    else if req.path = "/" then .ok (.error .badArguments)
    else if node.children ≠ ∅ then .ok (.error .notEmpty)
    else do
      let owner := node.stat.ephemeralOwner
      let (_, staged) ← (m.staged.delete req.path).expect "delete conditions were validated"
      let staged :=
        if owner ≠ 0 then
          { staged with sessionState := staged.sessionState.removeEphemeral owner req.path }
        else staged
      let (watchState, events) := staged.watchState.fire env.orders req.path .deleted
      .ok (.ok (m.push { staged with watchState } .delete [.delete req.path] events))

def step (m : MultiProgress) (env : Env) (sessionId : SessionId) :
    MultiOp → Panics (Except ErrorCode MultiProgress)
  | .check req => m.check req
  | .set req => m.set env req
  | .create req => m.create env sessionId req
  | .delete req => m.delete env req

/-- The loop over the operations; an error comes with the responses collected before it. -/
def run (m : MultiProgress) (env : Env) (sessionId : SessionId) :
    List MultiOp → Panics (Except (List MultiOpResponse × ErrorCode) MultiProgress)
  | [] => .ok (.ok m)
  | op :: ops =>
    match m.step env sessionId op with
    | .error message => .error message
    | .ok (.error error) => .ok (.error (m.responses, error))
    | .ok (.ok next) => next.run env sessionId ops

end MultiProgress

/-- The responses of a batch that failed: `fill`, `push` and `resize` of the collected ones. -/
def rolledBack (responses : List MultiOpResponse) (error : ErrorCode) (opCount : ℕ) :
    List MultiOpResponse :=
  let responses := responses.map (fun _ => MultiOpResponse.error .ok) ++ [.error error]
  responses.take opCount ++
    List.replicate (opCount - responses.length) (.error .runtimeInconsistency)

namespace KeeperServer
variable {recordBytes : LogRecord → ℕ}

def reply (s : KeeperServer recordBytes) (xid : Int32) (err : ErrorCode)
    (body : ReplyBody := .empty) : Reply :=
  ⟨xid, s.storage.lastZxid, err, body⟩

/-- Answer with an error and leave everything as it is. -/
def refuse (s : KeeperServer recordBytes) (xid : Int32) (err : ErrorCode) :
    Exec (KeeperServer recordBytes) ApplyResult :=
  .done ⟨s.reply xid err, []⟩ s

/-- Take the next zxid, append the operation under it and flush. -/
def log (s : KeeperServer recordBytes) (env : Env) (op : WalOperation) :
    KeeperServer recordBytes × Except WalError Unit :=
  let tree := s.storage.nextZxid
  let (wal, flushed) := (s.wal.append ⟨tree.lastZxid, op⟩).flush env.flush
  (⟨tree, wal⟩, flushed)

/-- A failed flush is ignored. -/
def createSession (s : KeeperServer recordBytes) (env : Env) (timeoutMs : Int) :
    SessionId × KeeperServer recordBytes :=
  let (sessionState, id) := s.storage.sessionState.createSession timeoutMs env.now
  let s := { s with storage := { s.storage with sessionState } }
  (id, (s.log env (.createSession id timeoutMs)).1)

/-- The common end of the two ways to end a session: drop it and delete its nodes. -/
def endSession (tree : KeeperStorage) (orders : HashOrders) (id : SessionId) :
    Panics KeeperStorage :=
  let (sessionState, paths) := tree.sessionState.closeSession orders id
  ({ tree with sessionState }).cleanup paths

/-- The end of an expired session. A failed flush is ignored. -/
def closeSession (s : KeeperServer recordBytes) (env : Env) (id : SessionId) :
    Exec (KeeperServer recordBytes) Unit :=
  let s := (s.log env (.closeSession id)).1
  match endSession s.storage env.orders id with
  | .error message => .panic message
  | .ok storage => .done () { s with storage }

def getExpiredSessions (s : KeeperServer recordBytes) (env : Env) : List SessionId :=
  s.storage.sessionState.getExpired env.orders env.now

def handleCreate (s : KeeperServer recordBytes) (env : Env) (xid : Int32) (req : CreateRequest)
    (sessionId : SessionId) : Exec (KeeperServer recordBytes) ApplyResult :=
  if s.storage.exists req.path then s.refuse xid .nodeExists
  else
    match splitPath req.path with
    | none => s.refuse xid .badArguments
    | some (parent, childName) =>
      if childName = "" then s.refuse xid .badArguments
      else if ¬ s.storage.exists (parentPath parent) then s.refuse xid .noNode
      else
        match s.log env (.create req.path req.data env.now req.flags sessionId) with
        | (s, .error _) => s.refuse xid .systemError
        | (s, .ok ()) =>
          match s.storage.create req.path req.data env.now sessionId req.flags with
          | .err _ => s.refuse xid .badArguments
          | .panic message => .panic message
          | .ok createdPath tree =>
            let (watchState, events) := tree.watchState.fire env.orders createdPath .created
            let s := { s with storage := { tree with watchState } }
            .done ⟨s.reply xid .ok (.create createdPath), events⟩ s

def handleSet (s : KeeperServer recordBytes) (env : Env) (xid : Int32) (req : SetDataRequest) :
    Exec (KeeperServer recordBytes) ApplyResult :=
  match s.storage.traverse req.path with
  | none => s.refuse xid .noNode
  | some node =>
    if req.version ≠ -1 ∧ node.stat.version ≠ req.version then s.refuse xid .badVersion
    else
      match s.log env (.set req.path req.data env.now) with
      | (s, .error _) => s.refuse xid .systemError
      | (s, .ok ()) =>
        let tree :=
          match s.storage.set req.path req.data env.now with
          | .ok _ tree => tree
          | _ => s.storage
        let (watchState, events) := tree.watchState.fire env.orders req.path .changed
        let s := { s with storage := { tree with watchState } }
        match s.storage.traverse req.path with
        | none => .panic unwrapNone
        | some node =>
          .done ⟨s.reply xid .ok (.stat node.stat (Int32.ofNat node.data.length)
            (Int32.ofNat node.children.card)), events⟩ s

def handleDelete (s : KeeperServer recordBytes) (env : Env) (xid : Int32) (req : DeleteRequest) :
    Exec (KeeperServer recordBytes) ApplyResult :=
  match s.storage.traverse req.path with
  | none => s.refuse xid .noNode
  | some node =>
    if req.version ≠ -1 ∧ node.stat.version ≠ req.version then s.refuse xid .badVersion
    else if node.children ≠ ∅ then s.refuse xid .notEmpty
    else
      match s.log env (.delete req.path) with
      | (s, .error _) => s.refuse xid .systemError
      | (s, .ok ()) =>
        match s.storage.traverse req.path with
        | none => .panic unwrapNone
        | some node =>
          let owner := node.stat.ephemeralOwner
          -- The result of the delete is ignored, so the steps behind it run in any case.
          match s.storage.cleanup [req.path] with
          | .error message => .panic message
          | .ok tree =>
            let tree :=
              if owner ≠ 0 then
                { tree with sessionState := tree.sessionState.removeEphemeral owner req.path }
              else tree
            let (watchState, events) := tree.watchState.fire env.orders req.path .deleted
            let s := { s with storage := { tree with watchState } }
            .done ⟨s.reply xid .ok, events⟩ s

/-- The common body of the reads: register the watch, then look the node up. -/
def handleRead (s : KeeperServer recordBytes) (xid : Int32) (req : ReadRequest)
    (sessionId : SessionId) (t : WatchType) (body : Node → ReplyBody) :
    Exec (KeeperServer recordBytes) ApplyResult :=
  let s :=
    if req.watch then
      { s with storage := { s.storage with
          watchState := s.storage.watchState.register sessionId req.path t } }
    else s
  match s.storage.traverse req.path with
  | none => s.refuse xid .noNode
  | some node => .done ⟨s.reply xid .ok (body node), []⟩ s

def handleGet (s : KeeperServer recordBytes) (xid : Int32) (req : ReadRequest)
    (sessionId : SessionId) : Exec (KeeperServer recordBytes) ApplyResult :=
  s.handleRead xid req sessionId .watch fun node =>
    .getData node.data node.stat (Int32.ofNat node.children.card)

def handleExists (s : KeeperServer recordBytes) (xid : Int32) (req : ReadRequest)
    (sessionId : SessionId) : Exec (KeeperServer recordBytes) ApplyResult :=
  s.handleRead xid req sessionId .watch fun node =>
    .stat node.stat (Int32.ofNat node.data.length) (Int32.ofNat node.children.card)

def handleGetChildren (s : KeeperServer recordBytes) (xid : Int32) (req : ReadRequest)
    (sessionId : SessionId) : Exec (KeeperServer recordBytes) ApplyResult :=
  s.handleRead xid req sessionId .listWatch fun node =>
    .childrenAndStat (node.children.sort (· ≤ ·)) node.stat (Int32.ofNat node.data.length)
      (Int32.ofNat node.children.card)

def handleGetChildrenSimple (s : KeeperServer recordBytes) (xid : Int32) (req : ReadRequest)
    (sessionId : SessionId) : Exec (KeeperServer recordBytes) ApplyResult :=
  s.handleRead xid req sessionId .listWatch fun node =>
    .children (node.children.sort (· ≤ ·))

/-- The explicit end of a session. -/
def handleClose (s : KeeperServer recordBytes) (env : Env) (xid : Int32) (sessionId : SessionId) :
    Exec (KeeperServer recordBytes) ApplyResult :=
  match endSession s.storage env.orders sessionId with
  | .error message => .panic message
  | .ok tree =>
    let tree := { tree with watchState := tree.watchState.clear env.orders sessionId }
    let s := { s with storage := tree }
    .done ⟨s.reply xid .ok, []⟩ s

/-- All operations run on a copy of the tree, which is published after one record was flushed. A
failed flush stops the process. -/
def handleMulti (s : KeeperServer recordBytes) (env : Env) (xid : Int32) (ops : List MultiOp)
    (sessionId : SessionId) : Exec (KeeperServer recordBytes) ApplyResult :=
  let staged := s.storage.nextZxid
  let zxid := staged.lastZxid
  match MultiProgress.run ⟨staged, [], [], []⟩ env sessionId ops with
  | .error message => .panic message
  | .ok (.error (responses, error)) =>
    .done ⟨s.reply xid .ok (.multi (rolledBack responses error ops.length)), []⟩ s
  | .ok (.ok m) =>
    let (wal, flushed) :=
      (s.wal.append ⟨zxid, .multi m.walOperations env.now sessionId⟩).flush env.flush
    match flushed with
    | .error _ => .abort { s with wal }
    | .ok () => .done ⟨⟨xid, zxid, .ok, .multi m.responses⟩, m.watchEvents⟩ ⟨m.staged, wal⟩

/-- The deadline of the session moves before the request is looked at. -/
def touchSession (s : KeeperServer recordBytes) (now : Int) (sessionId : SessionId) :
    KeeperServer recordBytes :=
  { s with storage := { s.storage with
      sessionState := s.storage.sessionState.touchSession sessionId now } }

def handle (s : KeeperServer recordBytes) (env : Env) (xid : Int32) (sessionId : SessionId) :
    Request → Exec (KeeperServer recordBytes) ApplyResult
  | .create req => s.handleCreate env xid req sessionId
  | .get req => s.handleGet xid req sessionId
  | .set req => s.handleSet env xid req
  | .remove req => s.handleDelete env xid req
  | .heartbeat => .done ⟨s.reply xid .ok, []⟩ s
  | .simpleList req => s.handleGetChildrenSimple xid req sessionId
  | .list req => s.handleGetChildren xid req sessionId
  | .exists req => s.handleExists xid req sessionId
  | .close => s.handleClose env xid sessionId
  | .multi ops => s.handleMulti env xid ops sessionId
  | .rejected => s.refuse xid .badArguments

/-- Serve one request of a session. -/
def apply (s : KeeperServer recordBytes) (env : Env) (xid : Int32) (sessionId : SessionId)
    (req : Request) : Exec (KeeperServer recordBytes) ApplyResult :=
  (s.touchSession env.now sessionId).handle env xid sessionId req

end KeeperServer

/-- The steps of the server. Serving a request takes the lock on the tree twice, first to touch
the session and then in the handler, so that other steps can come between the two. -/
inductive ServerEvent
  | createSession (timeoutMs : Int)
  | closeSession (id : SessionId)
  | touch (id : SessionId)
  | handle (xid : Int32) (id : SessionId) (req : Request)
  deriving DecidableEq

inductive Output
  | session (id : SessionId)
  | closed
  | touched
  | applied (result : ApplyResult)
  deriving DecidableEq

/-- The notifications a step hands to the dispatcher. -/
def Output.watchEvents : Output → List WatchEvent
  | .applied result => result.watchEvents
  | _ => []

@[simp] theorem Output.watchEvents_applied (result : ApplyResult) :
    (Output.applied result).watchEvents = result.watchEvents := rfl

def Exec.map {σ α β : Type} (f : α → β) : Exec σ α → Exec σ β
  | .done result next => .done (f result) next
  | .panic message => .panic message
  | .abort next => .abort next

namespace KeeperServer
variable {recordBytes : LogRecord → ℕ}

def exec (s : KeeperServer recordBytes) (env : Env) :
    ServerEvent → Exec (KeeperServer recordBytes) Output
  | .createSession timeoutMs =>
    let (id, s) := s.createSession env timeoutMs
    .done (.session id) s
  | .closeSession id => (s.closeSession env id).map fun _ => .closed
  | .touch id => .done .touched (s.touchSession env.now id)
  | .handle xid id req => (s.handle env xid id req).map .applied

/-- One step that ends normally. -/
def Step (s : KeeperServer recordBytes) (e : Env × ServerEvent) (s' : KeeperServer recordBytes) :
    Prop :=
  ∃ out, s.exec e.1 e.2 = .done out s'

end KeeperServer
end TinyKeeper
