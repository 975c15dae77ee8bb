import TinyKeeper.KeeperServer
import TinyKeeper.Lib.Run
import TinyKeeper.Storage.Ephemeral

/-! The start of the server: opening the log and rebuilding the tree from its records. Every
mutation of the replay is expected to succeed. -/
namespace TinyKeeper

/-- Why a start did not complete. -/
inductive StartError
  | wal (error : WalError)
  | panic (message : String)
  deriving DecidableEq

namespace KeeperStorage

def replayCleanup (st : KeeperStorage) : List String → Panics KeeperStorage
  | [] => .ok st
  | path :: paths => do
    let (_, st) ← (st.delete path).expect "WAL replay of CloseSession cleanup failed"
    st.replayCleanup paths

def replayMultiOperation (st : KeeperStorage) (timestamp : Int) (sessionId : SessionId) :
    MultiWalOperation → Panics KeeperStorage
  | .create path data flags => do
    let (_, st) ← (st.create path data timestamp sessionId flags).expect
      "WAL replay of Multi Create failed"
    .ok st
  | .set path data => do
    let (_, st) ← (st.set path data timestamp).expect "WAL replay of Multi Set failed"
    .ok st
  | .delete path =>
    match st.traverse path with
    | none => .error "WAL replay of Multi Delete: node missing"
    | some node => do
      let owner := node.stat.ephemeralOwner
      let (_, st) ← (st.delete path).expect "WAL replay of Multi Delete failed"
      if owner ≠ 0 then
        .ok { st with sessionState := st.sessionState.removeEphemeral owner path }
      else .ok st

def replayMulti (st : KeeperStorage) (timestamp : Int) (sessionId : SessionId) :
    List MultiWalOperation → Panics KeeperStorage
  | [] => .ok st
  | operation :: operations => do
    let st ← st.replayMultiOperation timestamp sessionId operation
    st.replayMulti timestamp sessionId operations

def replayOperation (st : KeeperStorage) (orders : HashOrders) :
    WalOperation → Panics KeeperStorage
  | .create path data timestamp flags sessionId => do
    let (_, st) ← (st.create path data timestamp sessionId flags).expect
      "WAL replay of Create failed: log is inconsistent with state"
    .ok st
  | .set path data timestamp => do
    let (_, st) ← (st.set path data timestamp).expect
      "WAL replay of Set failed: log is inconsistent with state"
    .ok st
  | .delete path => do
    let (_, st) ← (st.delete path).expect
      "WAL replay of Delete failed: log is inconsistent with state"
    .ok st
  | .createSession sessionId timeoutMs =>
    .ok { st with sessionState := st.sessionState.restoreSession sessionId timeoutMs }
  | .closeSession sessionId =>
    let (sessionState, paths) := st.sessionState.closeSession orders sessionId
    ({ st with sessionState }).replayCleanup paths
  | .multi operations timestamp sessionId => st.replayMulti timestamp sessionId operations

def replayRecord (st : KeeperStorage) (orders : HashOrders) (r : LogRecord) :
    Panics KeeperStorage :=
  (st.setLastZxid r.index).replayOperation orders r.op

/-- Replay the records in order; `orders` gives the iteration orders met at each index. -/
def replayAll (orders : ℕ → HashOrders) (st : KeeperStorage) :
    List LogRecord → Panics KeeperStorage
  | [] => .ok st
  | r :: rs => do
    let st ← st.replayRecord (orders r.index) r
    st.replayAll orders rs

/-! What each function of the replay does when it succeeds, said once. -/

/-- One operation of a batch is replayed. -/
inductive ReplayStep (timestamp : Int) (sessionId : SessionId) (st : KeeperStorage) :
    MultiWalOperation → KeeperStorage → Prop
  | create {path created : String} {data : List UInt8} {flags : Int32} {st' : KeeperStorage}
      (done : st.create path data timestamp sessionId flags = .ok created st') :
      ReplayStep timestamp sessionId st (.create path data flags) st'
  | set {path : String} {data : List UInt8} {st' : KeeperStorage}
      (done : st.set path data timestamp = .ok () st') :
      ReplayStep timestamp sessionId st (.set path data) st'
  | delete {path : String} {n : Node} {st' : KeeperStorage} (stored : st.map.get path = some n)
      (done : st.delete path = .ok () st') :
      ReplayStep timestamp sessionId st (.delete path) (st'.disowned n.stat.ephemeralOwner path)

/-- One operation of the log is replayed. The removal of a node leaves the index alone. -/
inductive Replays (orders : HashOrders) (st : KeeperStorage) : WalOperation → KeeperStorage → Prop
  | create {path created : String} {data : List UInt8} {timestamp : Int} {flags : Int32}
      {sessionId : SessionId} {st' : KeeperStorage}
      (done : st.create path data timestamp sessionId flags = .ok created st') :
      Replays orders st (.create path data timestamp flags sessionId) st'
  | set {path : String} {data : List UInt8} {timestamp : Int} {st' : KeeperStorage}
      (done : st.set path data timestamp = .ok () st') :
      Replays orders st (.set path data timestamp) st'
  | delete {path : String} {st' : KeeperStorage} (done : st.delete path = .ok () st') :
      Replays orders st (.delete path) st'
  | createSession (sessionId : SessionId) (timeoutMs : Int) :
      Replays orders st (.createSession sessionId timeoutMs)
        { st with sessionState := st.sessionState.restoreSession sessionId timeoutMs }
  | closeSession {sessionId : SessionId} {st' : KeeperStorage}
      (deletes : Run Deletes
        { st with sessionState := (st.sessionState.closeSession orders sessionId).1 }
        (st.sessionState.closeSession orders sessionId).2 st') :
      Replays orders st (.closeSession sessionId) st'
  | multi {operations : List MultiWalOperation} {timestamp : Int} {sessionId : SessionId}
      {st' : KeeperStorage} (path : Run (ReplayStep timestamp sessionId) st operations st') :
      Replays orders st (.multi operations timestamp sessionId) st'

/-- One record is replayed. -/
def ReplaysRecord (orders : ℕ → HashOrders) (st : KeeperStorage) (r : LogRecord)
    (st' : KeeperStorage) : Prop :=
  Replays (orders r.index) (st.setLastZxid r.index) r.op st'

section Inversion
variable {st st' : KeeperStorage} {orders : HashOrders}

/-- The calls of the replay expect their result, and drop its value. -/
theorem expect_bind_eq_ok {α : Type} {message : String} {o : Outcome KeeperStorage α} :
    (o.expect message >>= fun a => .ok a.2) = .ok st' ↔ ∃ a, o = .ok a st' := by
  rw [Panics.bind_eq_ok]
  constructor
  · rintro ⟨⟨a, st⟩, done, rest⟩
    cases rest
    exact ⟨a, Outcome.expect_eq_ok.mp done⟩
  · rintro ⟨a, rfl⟩
    exact ⟨(a, st'), rfl, rfl⟩

theorem replayCleanup_iff {paths : List String} :
    st.replayCleanup paths = .ok st' ↔ Run Deletes st paths st' := by
  induction paths generalizing st with
  | nil =>
    constructor
    · intro h
      cases h
      exact .nil
    · intro h
      rw [h.nil_eq]
      rfl
  | cons path paths ih =>
    rw [Run.cons_iff, replayCleanup, Panics.bind_eq_ok]
    constructor
    · rintro ⟨⟨_, t⟩, done, rest⟩
      exact ⟨t, Outcome.expect_eq_ok.mp done, ih.mp rest⟩
    · rintro ⟨t, done, rest⟩
      exact ⟨((), t), Outcome.expect_eq_ok.mpr done, ih.mpr rest⟩

theorem replayMultiOperation_iff {timestamp : Int} {sessionId : SessionId}
    {operation : MultiWalOperation} :
    st.replayMultiOperation timestamp sessionId operation = .ok st' ↔
      ReplayStep timestamp sessionId st operation st' := by
  constructor
  · intro h
    cases operation with
    | create path data flags =>
      obtain ⟨created, done⟩ := expect_bind_eq_ok.mp h
      exact .create done
    | set path data =>
      obtain ⟨_, done⟩ := expect_bind_eq_ok.mp h
      exact .set done
    | delete path =>
      simp only [replayMultiOperation] at h
      cases hn : st.traverse path with
      | none => simp [hn] at h
      | some n =>
        rw [hn] at h
        obtain ⟨⟨_, t⟩, done, rest⟩ := Panics.bind_eq_ok.mp h
        have step : ReplayStep timestamp sessionId st (.delete path) _ :=
          .delete hn (Outcome.expect_eq_ok.mp done)
        split_ifs at rest with owned
        · cases rest
          rwa [disowned, if_pos owned] at step
        · cases rest
          rwa [disowned, if_neg owned] at step
  · intro h
    cases h with
    | create done => exact expect_bind_eq_ok.mpr ⟨_, done⟩
    | set done => exact expect_bind_eq_ok.mpr ⟨_, done⟩
    | @delete path n t stored done =>
      rw [replayMultiOperation, traverse, stored]
      simp only [done, Outcome.expect, bind, Except.bind, disowned]
      split_ifs <;> rfl

theorem replayMulti_iff {timestamp : Int} {sessionId : SessionId}
    {operations : List MultiWalOperation} :
    st.replayMulti timestamp sessionId operations = .ok st' ↔
      Run (ReplayStep timestamp sessionId) st operations st' := by
  induction operations generalizing st with
  | nil =>
    constructor
    · intro h
      cases h
      exact .nil
    · intro h
      rw [h.nil_eq]
      rfl
  | cons operation operations ih =>
    rw [Run.cons_iff, replayMulti, Panics.bind_eq_ok]
    simp only [replayMultiOperation_iff, ih]

theorem replayOperation_iff {op : WalOperation} :
    st.replayOperation orders op = .ok st' ↔ Replays orders st op st' := by
  constructor
  · intro h
    cases op with
    | create path data timestamp flags sessionId =>
      obtain ⟨created, done⟩ := expect_bind_eq_ok.mp h
      exact .create done
    | set path data timestamp =>
      obtain ⟨_, done⟩ := expect_bind_eq_ok.mp h
      exact .set done
    | delete path =>
      obtain ⟨_, done⟩ := expect_bind_eq_ok.mp h
      exact .delete done
    | createSession sessionId timeoutMs =>
      cases h
      exact .createSession sessionId timeoutMs
    | closeSession sessionId => exact .closeSession (replayCleanup_iff.mp h)
    | multi operations timestamp sessionId => exact .multi (replayMulti_iff.mp h)
  · intro h
    cases h with
    | create done => exact expect_bind_eq_ok.mpr ⟨_, done⟩
    | set done => exact expect_bind_eq_ok.mpr ⟨_, done⟩
    | delete done => exact expect_bind_eq_ok.mpr ⟨_, done⟩
    | createSession sessionId timeoutMs => rfl
    | closeSession deletes => exact replayCleanup_iff.mpr deletes
    | multi path => exact replayMulti_iff.mpr path

theorem replayAll_iff {orders : ℕ → HashOrders} {records : List LogRecord} :
    st.replayAll orders records = .ok st' ↔ Run (ReplaysRecord orders) st records st' := by
  induction records generalizing st with
  | nil =>
    constructor
    · intro h
      cases h
      exact .nil
    · intro h
      rw [h.nil_eq]
      rfl
  | cons r records ih =>
    rw [Run.cons_iff, replayAll, Panics.bind_eq_ok]
    simp only [replayRecord, replayOperation_iff, ih]
    rfl

end Inversion

section Linked
variable {st st' : KeeperStorage} {orders : HashOrders}

theorem ReplayStep.linked {timestamp : Int} {sessionId : SessionId}
    {operation : MultiWalOperation} (h : ReplayStep timestamp sessionId st operation st')
    (hl : st.Linked) : st'.Linked := by
  cases h with
  | create done => exact hl.create_ok done
  | set done => exact hl.set_ok done
  | delete stored done => exact (hl.of_delete_ok done).of_map (by simp)

theorem Replays.linked {op : WalOperation} (h : Replays orders st op st') (hl : st.Linked) :
    st'.Linked := by
  cases h with
  | create done => exact hl.create_ok done
  | set done => exact hl.set_ok done
  | delete done => exact hl.of_delete_ok done
  | createSession sessionId timeoutMs => exact hl.of_map rfl
  | @closeSession sessionId _ deletes =>
    have dropped : Linked { st with
        sessionState := (st.sessionState.closeSession orders sessionId).1 } := hl.of_map rfl
    exact deletes.invariant Linked dropped (fun _ _ _ hl last => hl.of_delete_ok last)
  | multi path => exact path.invariant Linked hl (fun _ _ _ hl last => last.linked hl)

theorem ReplaysRecord.linked {orders : ℕ → HashOrders} {r : LogRecord}
    (h : ReplaysRecord orders st r st') (hl : st.Linked) : st'.Linked := by
  have counted : (st.setLastZxid r.index).Linked := hl.of_map rfl
  exact Replays.linked h counted

theorem Linked.replayAll (hl : st.Linked) {orders : ℕ → HashOrders} {records : List LogRecord}
    (h : st.replayAll orders records = .ok st') : st'.Linked :=
  (replayAll_iff.mp h).invariant Linked hl (fun _ _ _ hl last => last.linked hl)

end Linked
end KeeperStorage

namespace KeeperServer
variable {recordBytes : LogRecord → ℕ}

def maxSegmentBytes : ℕ := 50 * 1024 * 1024

/-- Start on a log directory. -/
def new (recordBytes : LogRecord → ℕ) (dir : Segments LogRecord) (orders : ℕ → HashOrders) :
    Except StartError (KeeperServer recordBytes) :=
  match WalStore.open (LogRecord.format recordBytes) dir maxSegmentBytes with
  | .error e => .error (.wal e)
  | .ok wal =>
    let (records, stop) := wal.replay
    match (KeeperStorage.new 500).replayAll orders records with
    | .error message => .error (.panic message)
    | .ok storage =>
      match stop with
      | some e => .error (.wal e)
      | none => .ok ⟨storage, wal⟩

/-- The server as it first starts, on an empty directory. -/
def initial (recordBytes : LogRecord → ℕ) : KeeperServer recordBytes :=
  ⟨.new 500, .freshStart _ .empty maxSegmentBytes⟩

theorem new_empty (orders : ℕ → HashOrders) :
    new recordBytes .empty orders = .ok (initial recordBytes) := rfl

theorem new_eq_ok {dir : Segments LogRecord} {orders : ℕ → HashOrders}
    {s : KeeperServer recordBytes} (h : new recordBytes dir orders = .ok s) :
    WalStore.open (LogRecord.format recordBytes) dir maxSegmentBytes = .ok s.wal ∧
      s.wal.replay.2 = none ∧ (KeeperStorage.new 500).replayAll orders s.wal.replay.1 =
        .ok s.storage := by
  unfold new at h
  cases opened : WalStore.open (LogRecord.format recordBytes) dir maxSegmentBytes with
  | error e => simp [opened] at h
  | ok wal =>
    cases replayed : (KeeperStorage.new 500).replayAll orders wal.replay.1 with
    | error message => simp [opened, replayed] at h
    | ok storage =>
      cases stop : wal.replay.2 with
      | some e => simp [opened, replayed, stop] at h
      | none =>
        simp only [opened, replayed, stop, Except.ok.injEq] at h
        subst h
        exact ⟨rfl, stop, replayed⟩

/-- A state the server can be in: it started on some log, and took some steps since. -/
inductive Reachable : KeeperServer recordBytes → Prop
  | started {dir orders s} (h : new recordBytes dir orders = .ok s) : Reachable s
  | stepped {s e s'} (init : Reachable s) (last : Step s e s') : Reachable s'

theorem initial_reachable : Reachable (initial recordBytes) :=
  .started (new_empty fun _ => ⟨.choice, .choice, .choice⟩)

end KeeperServer
end TinyKeeper
