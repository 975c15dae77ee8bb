import TinyKeeper.KeeperServer.Replay
import TinyKeeper.Lib.Run
import TinyKeeper.Lib.RwLock

/-! The dispatcher and the connection loops. Every connection is a task, every request is applied
in a task of its own, and the notifications go through the bounded channels of the sessions under
one read lock; the steps of the tasks interleave freely. -/
namespace TinyKeeper

def channelCapacity : ℕ := 64

/-- A request that was applied. -/
structure Turn where
  session : SessionId
  request : Request
  events : List WatchEvent

/-- A notification, with the number of the turn that fired it. -/
structure Notice where
  turn : ℕ
  payload : WatchNotification

/-- What is written to a socket after the handshake. -/
inductive Frame
  | reply (turn : ℕ) (reply : Reply)
  | notification (notice : Notice)

/-- A payload is parsed, or the task that applies it panics on an opcode that it does not know. -/
abbrev Payload := Option (Int32 × Request)

/-- A call of `dispatch` whose request has been applied, with the notifications it has yet to
send. The response is empty if the task panicked. -/
structure Dispatch where
  turn : ℕ
  closes : Bool
  response : Option Reply
  events : List WatchEvent

/-- Where a connection task stands. The lock is the one on `watch_senders`; a task that asks for
it in order to write is in its handshake, or behind its loop. -/
inductive Phase
  | absent
  | connecting
  | selecting
  | applying (payload : Payload) (touched : Bool)
  | applied (d : Dispatch)
  | waiting (d : Dispatch)
  | sending (d : Dispatch)
  | replying (d : Dispatch)
  | leaving
  | gone

namespace Phase

def stand : Phase → Stand
  | .connecting | .leaving => .asks .write
  | .waiting _ => .asks .read
  | .sending _ => .holds
  | _ => .idle

/-- The notifications that a call of `dispatch` has yet to send. -/
def owes : Phase → List WatchEvent
  | .applied d | .waiting d | .sending d => d.events
  | _ => []

/-- The handshake is done. -/
def Joined (p : Phase) : Prop := p ≠ .absent ∧ p ≠ .connecting

end Phase

/-- The server, its dispatcher, and the connection tasks with their channels and sockets. -/
structure Service (recordBytes : LogRecord → ℕ) where
  server : KeeperServer recordBytes
  watchSenders : Finset SessionId
  lock : RwLock SessionId
  tasks : Finset SessionId
  phase : SessionId → Phase
  channel : SessionId → List Notice
  socket : SessionId → List Frame
  history : List Turn

namespace Service
variable {recordBytes : LogRecord → ℕ}

/-- The server has just started, on whatever log it found. -/
def start (server : KeeperServer recordBytes) : Service recordBytes where
  server := server
  watchSenders := ∅
  lock := .free
  tasks := ∅
  phase _ := .absent
  channel _ := []
  socket _ := []
  history := []

def setPhase (s : Service recordBytes) (x : SessionId) (p : Phase) : Service recordBytes :=
  { s with phase := Function.update s.phase x p }

def setChannel (s : Service recordBytes) (x : SessionId) (notices : List Notice) :
    Service recordBytes :=
  { s with channel := Function.update s.channel x notices }

def write (s : Service recordBytes) (x : SessionId) (frame : Frame) : Service recordBytes :=
  { s with socket := Function.update s.socket x (s.socket x ++ [frame]) }

@[simp] theorem phase_setPhase (s : Service recordBytes) (x : SessionId) (p : Phase) :
    (s.setPhase x p).phase = Function.update s.phase x p := rfl

@[simp] theorem socket_write (s : Service recordBytes) (x : SessionId) (frame : Frame) :
    (s.write x frame).socket = Function.update s.socket x (s.socket x ++ [frame]) := rfl

@[simp] theorem channel_setChannel (s : Service recordBytes) (x : SessionId)
    (notices : List Notice) :
    (s.setChannel x notices).channel = Function.update s.channel x notices := rfl

/-- A send to `x` finds a sender in the map and a receiver behind it. -/
def Reaches (s : Service recordBytes) (x : SessionId) : Prop :=
  x ∈ s.watchSenders ∧ s.phase x ≠ .gone

/-- The loop ends, and the task asks for the lock to take its sender out of the map. -/
def leave (s : Service recordBytes) (x : SessionId) : Service recordBytes :=
  { s.setPhase x .leaving with lock := s.lock.ask x .write }

/-- The end of a turn of the loop. -/
def proceed (s : Service recordBytes) (x : SessionId) (closes : Bool) : Service recordBytes :=
  if closes then s.leave x else s.setPhase x .selecting

/-- The request of `x` has been applied. -/
def apply (s : Service recordBytes) (x : SessionId) (req : Request) (result : ApplyResult)
    (server : KeeperServer recordBytes) : Service recordBytes :=
  { s.setPhase x (.applied ⟨s.history.length, req = .close, some result.response,
      result.watchEvents⟩) with
    server := server
    history := s.history ++ [⟨x, req, result.watchEvents⟩] }

inductive Action
  | connect (env : Env) (timeoutMs : Int)
  | expire (env : Env) (id : SessionId)
  | enter (x : SessionId)
  | receive (x : SessionId) (payload : Payload)
  | crash (x : SessionId)
  | touch (x : SessionId) (env : Env)
  | handle (x : SessionId) (env : Env)
  | panic (x : SessionId)
  | ask (x : SessionId)
  | acquire (x : SessionId)
  | send (x : SessionId)
  | finish (x : SessionId)
  | reply (x : SessionId)
  | notify (x : SessionId)
  | leave (x : SessionId)
  | exit (x : SessionId)

inductive Step (s : Service recordBytes) : Action → Service recordBytes → Prop
  /-- The handshake opens a session and asks for the lock in order to store the sender. The two are
  one step here: handshakes ask for the lock right away, in the order in which they open their
  sessions. -/
  | connect {env : Env} {timeoutMs : Int} {id : SessionId} {server : KeeperServer recordBytes}
      (done : s.server.exec env (.createSession timeoutMs) = .done (.session id) server) :
      Step s (.connect env timeoutMs)
        { (s.setPhase id .connecting).setChannel id [] with
          server := server, tasks := insert id s.tasks, lock := s.lock.ask id .write }
  /-- The background loop closes a session. -/
  | expire {env : Env} {id : SessionId} {server : KeeperServer recordBytes}
      (done : s.server.exec env (.closeSession id) = .done .closed server) :
      Step s (.expire env id) { s with server := server }
  | enter {x : SessionId} {rest : List (SessionId × Access)} (connecting : s.phase x = .connecting)
      (next : s.lock.queue = (x, .write) :: rest) (alone : s.lock.readers = ∅) :
      Step s (.enter x)
        { s.setPhase x .selecting with
          watchSenders := insert x s.watchSenders, lock := s.lock.pass }
  /-- The connect response cannot be written; the sender stays in the map. -/
  | enterLost {x : SessionId} {rest : List (SessionId × Access)}
      (connecting : s.phase x = .connecting) (next : s.lock.queue = (x, .write) :: rest)
      (alone : s.lock.readers = ∅) :
      Step s (.enter x)
        { s.setPhase x .gone with
          watchSenders := insert x s.watchSenders, lock := s.lock.pass }
  | receive {x : SessionId} {payload : Payload} (selecting : s.phase x = .selecting) :
      Step s (.receive x payload) (s.setPhase x (.applying payload false))
  /-- The loop panics on a payload that is too short to hold an opcode. -/
  | crash {x : SessionId} (selecting : s.phase x = .selecting) :
      Step s (.crash x) (s.setPhase x .gone)
  | touch {x : SessionId} {env : Env} {payload : Payload} {server : KeeperServer recordBytes}
      (applying : s.phase x = .applying payload false)
      (done : s.server.exec env (.touch x) = .done .touched server) :
      Step s (.touch x env) { s.setPhase x (.applying payload true) with server := server }
  | handle {x : SessionId} {env : Env} {xid : Int32} {req : Request} {result : ApplyResult}
      {server : KeeperServer recordBytes} (applying : s.phase x = .applying (some (xid, req)) true)
      (done : s.server.exec env (.handle xid x req) = .done (.applied result) server) :
      Step s (.handle x env) (s.apply x req result server)
  | panic {x : SessionId} (applying : s.phase x = .applying none true) :
      Step s (.panic x) (s.setPhase x (.applied ⟨s.history.length, false, none, []⟩))
  | ask {x : SessionId} {d : Dispatch} (applied : s.phase x = .applied d) :
      Step s (.ask x) { s.setPhase x (.waiting d) with lock := s.lock.ask x .read }
  | acquire {x : SessionId} {d : Dispatch} {rest : List (SessionId × Access)}
      (waiting : s.phase x = .waiting d) (next : s.lock.queue = (x, .read) :: rest) :
      Step s (.acquire x) { s.setPhase x (.sending d) with lock := s.lock.acquire x }
  | send {x : SessionId} {d : Dispatch} {e : WatchEvent} {es : List WatchEvent}
      (sending : s.phase x = .sending d) (next : d.events = e :: es)
      (reaches : s.Reaches e.sessionId)
      (room : (s.channel e.sessionId).length < channelCapacity) :
      Step s (.send x) ((s.setPhase x (.sending { d with events := es })).setChannel e.sessionId
        (s.channel e.sessionId ++ [⟨d.turn, e.payload⟩]))
  /-- The notification is for a session without a sender, or whose receiver has been dropped. -/
  | discard {x : SessionId} {d : Dispatch} {e : WatchEvent} {es : List WatchEvent}
      (sending : s.phase x = .sending d) (next : d.events = e :: es)
      (lost : ¬ s.Reaches e.sessionId) :
      Step s (.send x) (s.setPhase x (.sending { d with events := es }))
  | finish {x : SessionId} {d : Dispatch} (sending : s.phase x = .sending d)
      (sent : d.events = []) :
      Step s (.finish x) { s.setPhase x (.replying d) with lock := s.lock.release x }
  | reply {x : SessionId} {d : Dispatch} {r : Reply} (replying : s.phase x = .replying d)
      (response : d.response = some r) :
      Step s (.reply x) ((s.write x (.reply d.turn r)).proceed x d.closes)
  | replyEmpty {x : SessionId} {d : Dispatch} (replying : s.phase x = .replying d)
      (response : d.response = none) : Step s (.reply x) (s.proceed x d.closes)
  | replyLost {x : SessionId} {d : Dispatch} {r : Reply} (replying : s.phase x = .replying d)
      (response : d.response = some r) : Step s (.reply x) (s.leave x)
  | notify {x : SessionId} {n : Notice} {rest : List Notice} (selecting : s.phase x = .selecting)
      (next : s.channel x = n :: rest) :
      Step s (.notify x) ((s.write x (.notification n)).setChannel x rest)
  | notifyLost {x : SessionId} {n : Notice} {rest : List Notice}
      (selecting : s.phase x = .selecting) (next : s.channel x = n :: rest) :
      Step s (.notify x) ((s.leave x).setChannel x rest)
  /-- The client hangs up or has been idle for too long. -/
  | leave {x : SessionId} (selecting : s.phase x = .selecting) : Step s (.leave x) (s.leave x)
  | exit {x : SessionId} {rest : List (SessionId × Access)} (leaving : s.phase x = .leaving)
      (next : s.lock.queue = (x, .write) :: rest) (alone : s.lock.readers = ∅) :
      Step s (.exit x)
        { s.setPhase x .gone with
          watchSenders := s.watchSenders.erase x, lock := s.lock.pass }

/-- The steps that meet a condition. -/
def Under (C : Service recordBytes → Action → Prop) (s : Service recordBytes) (a : Action)
    (s' : Service recordBytes) : Prop :=
  s.Step a s' ∧ C s a

/-- A server that was started on some log, before the first connection. -/
def Started (s : Service recordBytes) : Prop :=
  ∃ dir orders server, KeeperServer.new recordBytes dir orders = .ok server ∧ s = start server

/-- A service on an empty directory. -/
def initial (recordBytes : LogRecord → ℕ) : Service recordBytes := start (.initial recordBytes)

end Service
end TinyKeeper
