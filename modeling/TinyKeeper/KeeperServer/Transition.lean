import TinyKeeper.KeeperServer.Answers

/-! What a step of the server can do, said once: every step that ends normally makes one of a few
transitions of the tree, and appends at most one record to the log. -/
namespace TinyKeeper

/-- The transitions of the tree, each with the operation that is logged for it and the
notifications it emits. -/
inductive Transition (env : Env) (st : KeeperStorage) :
    ServerEvent → Option WalOperation → List WatchEvent → KeeperStorage → Prop
  | createSession (timeoutMs : Int) :
      Transition env st (.createSession timeoutMs)
        (some (.createSession st.sessionState.nextSessionId timeoutMs)) []
        { st.nextZxid with
          sessionState := (st.sessionState.createSession timeoutMs env.now).1 }
  | closeSession {id : SessionId} {st' : KeeperStorage}
      (ended : KeeperServer.endSession st.nextZxid env.orders id = .ok st') :
      Transition env st (.closeSession id) (some (.closeSession id)) [] st'
  | touch (id : SessionId) :
      Transition env st (.touch id) none []
        { st with sessionState := st.sessionState.touchSession id env.now }
  /-- The request is answered without a change. -/
  | unchanged {xid : Int32} {id : SessionId} {req : Request} :
      Transition env st (.handle xid id req) none [] st
  /-- The flush failed; only the counter has moved. -/
  | unflushed {xid : Int32} {id : SessionId} {req : Request} (failed : env.flush ≠ .succeeds) :
      Transition env st (.handle xid id req) none [] st.nextZxid
  | create {xid : Int32} {id : SessionId} {req : CreateRequest} {path : String}
      {st' : KeeperStorage} (checked : CreateChecked st req)
      (done : st.nextZxid.create req.path req.data env.now id req.flags = .ok path st') :
      Transition env st (.handle xid id (.create req))
        (some (.create req.path req.data env.now req.flags id))
        (st'.watchState.fire env.orders path .created).2 (st'.fired env.orders path .created)
  /-- The request was logged, and fails. -/
  | createFails {xid : Int32} {id : SessionId} {req : CreateRequest} {message : String}
      (checked : CreateChecked st req)
      (failed : st.nextZxid.create req.path req.data env.now id req.flags = .err message) :
      Transition env st (.handle xid id (.create req))
        (some (.create req.path req.data env.now req.flags id)) [] st.nextZxid
  | set {xid : Int32} {id : SessionId} {req : SetDataRequest} {n : Node} {st' : KeeperStorage}
      (stored : st.map.get req.path = some n) (version : VersionOk req.version n.stat.version)
      (done : st.nextZxid.set req.path req.data env.now = .ok () st') :
      Transition env st (.handle xid id (.set req)) (some (.set req.path req.data env.now))
        (st'.watchState.fire env.orders req.path .changed).2
        (st'.fired env.orders req.path .changed)
  | delete {xid : Int32} {id : SessionId} {req : DeleteRequest} {n : Node} {st' : KeeperStorage}
      (checked : DeleteChecked st req n) (done : st.nextZxid.delete req.path = .ok () st') :
      Transition env st (.handle xid id (.remove req)) (some (.delete req.path))
        (st'.watchState.fire env.orders req.path .deleted).2
        ((st'.disowned n.stat.ephemeralOwner req.path).fired env.orders req.path .deleted)
  /-- The root passes the checks when it has no children; its removal is logged, and fails. -/
  | deleteRoot {xid : Int32} {id : SessionId} {req : DeleteRequest} {n : Node}
      (checked : DeleteChecked st req n) (root : req.path = "/") :
      Transition env st (.handle xid id (.remove req)) (some (.delete req.path))
        (st.watchState.fire env.orders req.path .deleted).2
        (st.nextZxid.fired env.orders req.path .deleted)
  | read {xid : Int32} {id : SessionId} {req : Request} (path : String) (t : WatchType) :
      Transition env st (.handle xid id req) none []
        { st with watchState := st.watchState.register id path t }
  | close {xid : Int32} {id : SessionId} {st' : KeeperStorage}
      (ended : KeeperServer.endSession st env.orders id = .ok st') :
      Transition env st (.handle xid id .close) none []
        { st' with watchState := st'.watchState.clear env.orders id }
  | multi {xid : Int32} {id : SessionId} {entries : List MultiEntry} {st' : KeeperStorage}
      (path : MultiRun env id st.nextZxid entries st') :
      Transition env st (.handle xid id (.multi (entries.map Prod.fst)))
        (some (.multi (entries.flatMap (·.1.logged)) env.now id)) (entries.flatMap (·.2.2)) st'

/-- A write that was logged makes its transition. -/
theorem WriteEnds.transition {env : Env} {id : SessionId} {st st' : KeeperStorage} {req : Request}
    {code : ErrorCode} {body : ReplyBody} {events : List WatchEvent}
    (h : WriteEnds env id st req code body events st') (xid : Int32) {op : WalOperation}
    (submits : (ServerEvent.handle xid id req).submits env.now = some op) :
    Transition env st (.handle xid id req) (some op) events st' := by
  rw [← submits]
  cases h with
  | create checked done => exact .create checked done
  | createFails checked failed => exact .createFails checked failed
  | set stored version done updated => exact .set stored version done
  | delete checked done => exact .delete checked done
  | deleteRoot checked root => exact .deleteRoot checked root

/-- The step passes its checks and appends this operation, whatever becomes of the flush. -/
def Appends (env : Env) (st : KeeperStorage) (e : ServerEvent) (op : WalOperation) : Prop :=
  ∃ events st', Transition env st e (some op) events st'

/-- The answers that say that something was written. -/
def Acknowledges : ServerEvent → Output → Prop
  | .createSession _, _ => True
  | .handle _ _ (.create _), .applied result => result.response.err = .ok
  | .handle _ _ (.set _), .applied result => result.response.err = .ok
  | .handle _ _ (.remove _), .applied result => result.response.err = .ok
  | .handle _ _ (.multi _), .applied result =>
    ∃ responses, result.response.body = .multi responses ∧ ∀ code, .error code ∉ responses
  | _, _ => False

/-- The code of the reply. -/
def Output.err : Output → Option ErrorCode
  | .applied result => some result.response.err
  | _ => none

theorem Output.err_ne {result : ApplyResult} (code : ErrorCode) (h : result.response.err = code)
    (calm : code ≠ .systemError) : (Output.applied result).err ≠ some .systemError := by
  intro told
  exact calm (h.symm.trans (Option.some.inj told))

theorem Output.calm_of_ok {result : ApplyResult} (h : result.response.err = .ok) :
    (Output.applied result).err ≠ some .systemError := Output.err_ne .ok h (by decide)

namespace KeeperServer
variable {recordBytes : LogRecord → ℕ} (s : KeeperServer recordBytes) (env : Env)

/-- The log after a step that logs this operation, all files working. -/
def logged (op : Option WalOperation) : WalStore (LogRecord.format recordBytes) :=
  match op with
  | none => s.wal
  | some op => (s.wal.appendBatch [⟨s.storage.lastZxid + 1, op⟩]).1

/-- What a step does to the log, whatever becomes of its flush; `op` is the operation that it
carries out under a record of its own. -/
inductive Journal (e : ServerEvent) (out : Output) :
    Option WalOperation → KeeperServer recordBytes → Prop
  /-- Nothing is appended, and nothing is acknowledged. -/
  | quiet {s' : KeeperServer recordBytes} (wal : s'.wal = s.wal) (unsaid : ¬ Acknowledges e out)
      (calm : out.err ≠ some .systemError) : Journal e out none s'
  | flushed {op : WalOperation} {s₁ s' : KeeperServer recordBytes}
      (done : s.log env op = (s₁, .ok ())) (wal : s'.wal = s₁.wal)
      (calm : out.err ≠ some .systemError) : Journal e out (some op) s'
  /-- The flush failed, and the request is refused. -/
  | refused {op : WalOperation} {error : WalError} {s' : KeeperServer recordBytes}
      (submits : e.submits env.now = some op) (appends : Appends env s.storage e op)
      (failed : s.log env op = (s', .error error)) (told : out.err = some .systemError) :
      Journal e out none s'
  /-- The two ends of a session, where the outcome of the flush is not looked at. -/
  | ignored {op : WalOperation} {s' : KeeperServer recordBytes}
      (session : (∃ timeoutMs, e = .createSession timeoutMs) ∨ ∃ id, e = .closeSession id)
      (wal : s'.wal = (s.log env op).1.wal) : Journal e out (some op) s'

/-- Every step is a transition of the tree together with what it does to the log, or a batch that
stops the process because its flush failed. -/
def Served (e : ServerEvent) (result : Exec (KeeperServer recordBytes) Output) : Prop :=
  (∃ out s' op, result = .done out s' ∧
    Transition env s.storage e op out.watchEvents s'.storage ∧ s.Journal env e out op s') ∨
  (∃ xid id ops operations s₁ error, e = .handle xid id (.multi ops) ∧
    Appends env s.storage e (.multi operations env.now id) ∧
    s.log env (.multi operations env.now id) = (s₁, .error error) ∧
    result = .abort { s with wal := s₁.wal })

/-- A step ends normally, in a transition of the tree, unless a failed flush stops the process. -/
def Moves (e : ServerEvent) (result : Exec (KeeperServer recordBytes) Output) : Prop :=
  (∃ out s' op, result = .done out s' ∧
    Transition env s.storage e op out.watchEvents s'.storage ∧
    (env.flush = .succeeds → s'.wal = s.logged op)) ∨
  (env.flush ≠ .succeeds ∧ ∃ s', result = .abort s')

theorem log_succeeds (op : WalOperation) (h : env.flush = .succeeds) :
    s.log env op = (⟨s.storage.nextZxid, s.logged (some op)⟩, .ok ()) := by
  rw [log, h]
  have ok := WalStore.appendBatch_ok s.wal [⟨s.storage.lastZxid + 1, op⟩]
  exact Prod.ext rfl ok

theorem flush_of_log {op : WalOperation} {s₁ : KeeperServer recordBytes}
    {result : Except WalError Unit} (h : s.log env op = (s₁, result)) :
    (s.wal.append ⟨s.storage.lastZxid + 1, op⟩).flush env.flush = (s₁.wal, result) := by
  have wal : (s.log env op).1.wal = s₁.wal := by rw [h]
  have returned : (s.log env op).2 = result := by rw [h]
  exact Prod.ext wal returned

theorem not_succeeds_of_log_error {op : WalOperation} {s₁ : KeeperServer recordBytes}
    {error : WalError} (failed : s.log env op = (s₁, .error error)) : env.flush ≠ .succeeds := by
  intro h
  rw [s.log_succeeds env op h] at failed
  cases congrArg Prod.snd failed

/-- A request that is refused without a change. -/
theorem served_refuse (xid : Int32) (id : SessionId) (req : Request) {code : ErrorCode}
    (bad : code ≠ .ok ∧ code ≠ .systemError) :
    s.Served env (.handle xid id req) ((s.refuse xid code).map .applied) := by
  refine .inl ⟨_, s, none, rfl, .unchanged, .quiet rfl ?_ ?_⟩
  · intro said
    cases req with
    | create req => exact bad.1 said
    | set req => exact bad.1 said
    | remove req => exact bad.1 said
    | multi ops =>
      obtain ⟨responses, body, -⟩ := said
      cases body
    | _ => exact said
  · exact Output.err_ne code rfl bad.2

/-- How a write ends that is logged as `op` once its checks have passed. -/
inductive Written (xid : Int32) (id : SessionId) (req : Request) (op : WalOperation) :
    Exec (KeeperServer recordBytes) ApplyResult → Prop
  /-- It does not pass its checks. -/
  | refused {code : ErrorCode} (bad : code ≠ .ok ∧ code ≠ .systemError) :
      Written xid id req op (s.refuse xid code)
  /-- Its record could not be flushed. -/
  | unflushed {s₁ : KeeperServer recordBytes} {error : WalError}
      (appends : Appends env s.storage (.handle xid id req) op)
      (failed : s.log env op = (s₁, .error error)) :
      Written xid id req op (s₁.refuse xid .systemError)
  /-- It was logged, and fails. -/
  | fails {s₁ : KeeperServer recordBytes} {code : ErrorCode} (hlog : s.log env op = (s₁, .ok ()))
      (move : Transition env s.storage (.handle xid id req) (some op) [] s.storage.nextZxid)
      (bad : code ≠ .ok ∧ code ≠ .systemError) : Written xid id req op (s₁.refuse xid code)
  | done {s₁ : KeeperServer recordBytes} {r : ApplyResult} {st : KeeperStorage}
      (hlog : s.log env op = (s₁, .ok ()))
      (move : Transition env s.storage (.handle xid id req) (some op) r.watchEvents st)
      (ok : r.response.err = .ok)
      (names : ∀ c, req = .create c → ∃ path tree, r.response.body = .create path ∧
        s.storage.nextZxid.create c.path c.data env.now id c.flags = .ok path tree) :
      Written xid id req op (.done r { s₁ with storage := st })

variable {s env} in
theorem Answers.written {xid : Int32} {id : SessionId} {req : Request} {op : WalOperation}
    {result : Exec (KeeperServer recordBytes) ApplyResult} (h : s.Answers env xid id req op result)
    (submits : (ServerEvent.handle xid id req).submits env.now = some op) :
    s.Written env xid id req op result := by
  cases h with
  | refused fails => exact .refused fails.code_ne
  | logged ends =>
    have move := ends.transition xid submits
    rw [finish]
    obtain ⟨s₁, error, hlog, -⟩ | ⟨s₁, hlog, storage⟩ := s.log_cases env op
    · simp only [hlog]
      exact .unflushed ⟨_, _, move⟩ hlog
    simp only [hlog]
    cases ends with
    | create checked done =>
      refine .done hlog move rfl fun c same => ?_
      cases same
      exact ⟨_, _, rfl, done⟩
    | createFails checked failed =>
      rw [← storage]
      exact .fails hlog move (by decide)
    | set stored version done updated => exact .done hlog move rfl (by simp)
    | delete checked done => exact .done hlog move rfl (by simp)
    | deleteRoot checked root => exact .done hlog move rfl (by simp)

/-- How every standalone write ends. -/
theorem handle_written (hl : s.storage.Linked) {xid : Int32} {id : SessionId} {req : Request}
    {op : WalOperation} (submits : (ServerEvent.handle xid id req).submits env.now = some op) :
    s.Written env xid id req op (s.handle env xid id req) :=
  (s.handle_answers env hl submits).written submits

/-- A write is served, however it ends. -/
theorem Written.served {xid : Int32} {id : SessionId} {req : Request} {op : WalOperation}
    {result : Exec (KeeperServer recordBytes) ApplyResult} (h : s.Written env xid id req op result)
    (submits : (ServerEvent.handle xid id req).submits env.now = some op) :
    s.Served env (.handle xid id req) (result.map .applied) := by
  cases h with
  | refused bad => exact s.served_refuse env xid id req bad
  | @unflushed s₁ error appends failed =>
    have storage : s₁.storage = s.storage.nextZxid := by rw [← s.log_storage env op, failed]
    exact .inl ⟨_, s₁, none, rfl, storage ▸ .unflushed (s.not_succeeds_of_log_error env failed),
      .refused submits appends failed rfl⟩
  | @fails s₁ code hlog move bad =>
    have storage : s₁.storage = s.storage.nextZxid := by rw [← s.log_storage env op, hlog]
    exact .inl ⟨_, s₁, _, rfl, storage ▸ move, .flushed hlog rfl (Output.err_ne code rfl bad.2)⟩
  | done hlog move ok names =>
    exact .inl ⟨_, _, _, rfl, move, .flushed hlog rfl (Output.calm_of_ok ok)⟩

theorem createSession_served (timeoutMs : Int) :
    s.Served env (.createSession timeoutMs) (s.exec env (.createSession timeoutMs)) :=
  .inl ⟨_, _, _, rfl, .createSession timeoutMs, .ignored (.inl ⟨timeoutMs, rfl⟩) rfl⟩

theorem closeSession_served (hl : s.storage.Linked) (id : SessionId) :
    s.Served env (.closeSession id) (s.exec env (.closeSession id)) := by
  obtain ⟨st', ended, -⟩ := hl.nextZxid.endSession env.orders id
  rw [exec, closeSession]
  simp only [log_storage, ended]
  exact .inl ⟨_, _, _, rfl, .closeSession ended, .ignored (.inr ⟨id, rfl⟩) rfl⟩

theorem handleRead_served (xid : Int32) (req : ReadRequest) (id : SessionId) (t : WatchType)
    (body : Node → ReplyBody) {request : Request}
    (reads : ∀ out, ¬ Acknowledges (.handle xid id request) out) :
    s.Served env (.handle xid id request) ((s.handleRead xid req id t body).map .applied) := by
  have ends := s.handleRead_ends xid req id t body
  generalize s.handleRead xid req id t body = result at ends
  cases ends with
  | @watching code _ watch calm =>
    exact .inl ⟨_, _, none, rfl, .read req.path t,
      .quiet rfl (reads _) (Output.err_ne code rfl calm)⟩
  | @plain code _ watch calm =>
    exact .inl ⟨_, s, none, rfl, .unchanged, .quiet rfl (reads _) (Output.err_ne code rfl calm)⟩

theorem handleClose_served (hl : s.storage.Linked) (xid : Int32) (id : SessionId) :
    s.Served env (.handle xid id .close) ((s.handleClose env xid id).map .applied) := by
  obtain ⟨st', ended, -⟩ := hl.endSession env.orders id
  rw [handleClose, ended]
  exact .inl ⟨_, _, none, rfl, .close ended, .quiet rfl (fun said => said)
    (Output.calm_of_ok rfl)⟩

/-- The responses of a batch that failed say so. -/
theorem error_mem_rolledBack (responses : List MultiOpResponse) (error : ErrorCode) {count : ℕ}
    (short : responses.length < count) : .error error ∈ rolledBack responses error count := by
  apply List.mem_append_left
  rw [List.take_of_length_le (by simp; omega)]
  simp

section Batch
variable {s env}
variable {entries : List MultiEntry} {st : KeeperStorage} {xid : Int32} {id : SessionId}

/-- A batch whose reference run completes is published as that run left it, once its record is
flushed. -/
theorem handleMulti_completes (path : MultiRun env id s.storage.nextZxid entries st)
    {s₁ : KeeperServer recordBytes}
    (hlog : s.log env (.multi (entries.flatMap (·.1.logged)) env.now id) = (s₁, .ok ())) :
    s.handleMulti env xid (entries.map Prod.fst) id =
      .done ⟨⟨xid, s.storage.lastZxid + 1, .ok, .multi (entries.map (·.2.1))⟩,
        entries.flatMap (·.2.2)⟩ ⟨st, s₁.wal⟩ := by
  rw [handleMulti]
  simp only [MultiProgress.run_completes (m := ⟨s.storage.nextZxid, [], [], []⟩) path,
    MultiProgress.after, List.nil_append, KeeperStorage.nextZxid_lastZxid, s.flush_of_log env hlog]

/-- The process stops if the record of the batch cannot be flushed. -/
theorem handleMulti_aborts (path : MultiRun env id s.storage.nextZxid entries st)
    {s₁ : KeeperServer recordBytes} {error : WalError}
    (hlog : s.log env (.multi (entries.flatMap (·.1.logged)) env.now id) = (s₁, .error error)) :
    s.handleMulti env xid (entries.map Prod.fst) id = .abort { s with wal := s₁.wal } := by
  rw [handleMulti]
  simp only [MultiProgress.run_completes (m := ⟨s.storage.nextZxid, [], [], []⟩) path,
    MultiProgress.after, List.nil_append, KeeperStorage.nextZxid_lastZxid, s.flush_of_log env hlog]

/-- A batch whose reference run fails is answered, and changes nothing. -/
theorem handleMulti_fails (path : MultiRun env id s.storage.nextZxid entries st) {op : MultiOp}
    (rest : List MultiOp) {error : ErrorCode} (fails : MultiFails env id st op error) :
    s.handleMulti env xid (entries.map Prod.fst ++ op :: rest) id =
      .done ⟨s.reply xid .ok (.multi (rolledBack (entries.map (·.2.1)) error
        (entries.map Prod.fst ++ op :: rest).length)), []⟩ s := by
  rw [handleMulti]
  simp only [MultiProgress.run_fails (m := ⟨s.storage.nextZxid, [], [], []⟩) path rest fails,
    MultiProgress.after, List.nil_append]

/-- How a batch ends. -/
inductive MultiEnds (s : KeeperServer recordBytes) (env : Env) (xid : Int32) (id : SessionId) :
    List MultiOp → Exec (KeeperServer recordBytes) ApplyResult → Prop
  | completes {entries : List MultiEntry} {st : KeeperStorage} {s₁ : KeeperServer recordBytes}
      (path : MultiRun env id s.storage.nextZxid entries st)
      (hlog : s.log env (.multi (entries.flatMap (·.1.logged)) env.now id) = (s₁, .ok ())) :
      MultiEnds s env xid id (entries.map Prod.fst)
        (.done ⟨⟨xid, s.storage.lastZxid + 1, .ok, .multi (entries.map (·.2.1))⟩,
          entries.flatMap (·.2.2)⟩ ⟨st, s₁.wal⟩)
  | aborts {entries : List MultiEntry} {st : KeeperStorage} {s₁ : KeeperServer recordBytes}
      {error : WalError} (path : MultiRun env id s.storage.nextZxid entries st)
      (hlog : s.log env (.multi (entries.flatMap (·.1.logged)) env.now id) =
        (s₁, .error error)) :
      MultiEnds s env xid id (entries.map Prod.fst) (.abort { s with wal := s₁.wal })
  | fails {entries : List MultiEntry} {st : KeeperStorage} {op : MultiOp} {rest : List MultiOp}
      {error : ErrorCode} (path : MultiRun env id s.storage.nextZxid entries st)
      (fails : MultiFails env id st op error) :
      MultiEnds s env xid id (entries.map Prod.fst ++ op :: rest)
        (.done ⟨s.reply xid .ok (.multi (rolledBack (entries.map (·.2.1)) error
          (entries.map Prod.fst ++ op :: rest).length)), []⟩ s)

theorem handleMulti_ends (hl : s.storage.Linked) (xid : Int32) (ops : List MultiOp)
    (id : SessionId) : s.MultiEnds env xid id ops (s.handleMulti env xid ops id) := by
  rcases multiRun_total env id hl.nextZxid ops with
    ⟨entries, st', path, rfl⟩ | ⟨entries, st', op, rest, error, path, rfl, fails⟩
  · rcases s.log_cases env (.multi (entries.flatMap (·.1.logged)) env.now id) with
      ⟨s₁, error, hlog, -⟩ | ⟨s₁, hlog, -⟩
    · rw [handleMulti_aborts path hlog]
      exact .aborts path hlog
    · rw [handleMulti_completes path hlog]
      exact .completes path hlog
  · rw [handleMulti_fails path rest fails]
    exact .fails path fails

/-- A batch is served, however it ends. -/
theorem MultiEnds.served {ops : List MultiOp}
    {result : Exec (KeeperServer recordBytes) ApplyResult} (h : s.MultiEnds env xid id ops result) :
    s.Served env (.handle xid id (.multi ops)) (result.map .applied) := by
  cases h with
  | completes path hlog =>
    exact .inl ⟨_, _, _, rfl, .multi path, .flushed hlog rfl (Output.calm_of_ok rfl)⟩
  | @aborts entries st s₁ error path hlog =>
    exact .inr ⟨xid, id, _, _, s₁, error, rfl, ⟨_, _, .multi path⟩, hlog, rfl⟩
  | @fails entries st op rest error path fails =>
    refine .inl ⟨_, s, none, rfl, .unchanged, .quiet rfl ?_ (Output.calm_of_ok rfl)⟩
    rintro ⟨responses, body, none⟩
    cases body
    exact none error (error_mem_rolledBack _ _ (by simp))

end Batch

/-- The inversion of every step of a server with a linked tree. In particular no step panics. -/
theorem exec_served (hl : s.storage.Linked) (e : ServerEvent) : s.Served env e (s.exec env e) := by
  have silent (out : Output) (said : False) : False := said
  cases e with
  | createSession timeoutMs => exact s.createSession_served env timeoutMs
  | closeSession id => exact s.closeSession_served env hl id
  | touch id =>
    exact .inl ⟨_, _, none, rfl, .touch id, .quiet rfl (fun said => said) (by decide)⟩
  | handle xid id req =>
    cases req with
    | create req => exact (s.handle_written env hl rfl).served s env rfl
    | get req => exact s.handleRead_served env xid req id _ _ silent
    | set req => exact (s.handle_written env hl rfl).served s env rfl
    | remove req => exact (s.handle_written env hl rfl).served s env rfl
    | heartbeat =>
      exact .inl ⟨_, s, none, rfl, .unchanged,
        .quiet rfl (fun said => said) (Output.calm_of_ok rfl)⟩
    | simpleList req => exact s.handleRead_served env xid req id _ _ silent
    | list req => exact s.handleRead_served env xid req id _ _ silent
    | «exists» req => exact s.handleRead_served env xid req id _ _ silent
    | close => exact s.handleClose_served env hl xid id
    | multi ops => exact (handleMulti_ends hl xid ops id).served
    | rejected => exact s.served_refuse env _ _ _ (by decide)

/-- Every step of a server with a linked tree is a transition, or stops the process because a
flush failed. In particular no step panics. -/
theorem exec_moves (hl : s.storage.Linked) (e : ServerEvent) : s.Moves env e (s.exec env e) := by
  rcases s.exec_served env hl e with
    ⟨out, s', op, done, move, journal⟩ | ⟨xid, id, ops, operations, s₁, error, -, -, failed, stops⟩
  · refine .inl ⟨out, s', op, done, move, fun flushed => ?_⟩
    cases journal with
    | quiet wal unsaid calm => exact wal
    | flushed hlog wal calm =>
      rw [s.log_succeeds env _ flushed] at hlog
      rw [wal, ← (Prod.mk.inj hlog).1]
    | refused submits appends failed told =>
      exact absurd flushed (s.not_succeeds_of_log_error env failed)
    | ignored session wal => rw [wal, s.log_succeeds env _ flushed]
  · exact .inr ⟨s.not_succeeds_of_log_error env failed, _, stops⟩

variable {s env}

theorem exec_handle {xid : Int32} {id : SessionId} {req : Request} {out : Output}
    {s' : KeeperServer recordBytes} (done : s.exec env (.handle xid id req) = .done out s') :
    ∃ r, out = .applied r ∧ s.handle env xid id req = .done r s' := by
  rw [exec] at done
  cases handled : s.handle env xid id req with
  | done r next =>
    rw [handled] at done
    cases done
    exact ⟨r, rfl, rfl⟩
  | panic message =>
    rw [handled] at done
    cases done
  | abort next =>
    rw [handled] at done
    cases done

/-- The end of an expired session takes a zxid, and keeps the watches. -/
theorem exec_closeSession {id : SessionId} {out : Output} {s' : KeeperServer recordBytes}
    (done : s.exec env (.closeSession id) = .done out s') :
    out = .closed ∧ endSession s.storage.nextZxid env.orders id = .ok s'.storage := by
  rw [exec, closeSession] at done
  cases ended : endSession (s.log env (.closeSession id)).1.storage env.orders id with
  | error message =>
    rw [ended] at done
    cases done
  | ok st =>
    rw [ended] at done
    cases done
    exact ⟨rfl, ended⟩

/-- An explicit close ends the session on the tree, and then drops its watches. -/
theorem handle_close {xid : Int32} {id : SessionId} {r : ApplyResult}
    {s' : KeeperServer recordBytes} (done : s.handle env xid id .close = .done r s') :
    ∃ st, endSession s.storage env.orders id = .ok st ∧
      s' = { s with storage := { st with watchState := st.watchState.clear env.orders id } } := by
  rw [handle, handleClose] at done
  cases ended : endSession s.storage env.orders id with
  | error message =>
    rw [ended] at done
    cases done
  | ok st =>
    rw [ended] at done
    cases done
    exact ⟨st, rfl, rfl⟩

theorem served_of_done {e : ServerEvent} {out : Output} {s' : KeeperServer recordBytes}
    (done : s.exec env e = .done out s') (hl : s.storage.Linked) :
    ∃ op, Transition env s.storage e op out.watchEvents s'.storage ∧ s.Journal env e out op s' := by
  obtain ⟨out', s'', op, done', move, journal⟩ |
    ⟨xid, id, ops, operations, s₁, error, -, -, -, stops⟩ := s.exec_served env hl e
  · cases done.symm.trans done'
    exact ⟨op, move, journal⟩
  · cases done.symm.trans stops

/-- Only a batch whose flush failed stops the process, and it leaves the tree as it was. -/
theorem served_of_abort {e : ServerEvent} {s' : KeeperServer recordBytes}
    (stops : s.exec env e = .abort s') (hl : s.storage.Linked) :
    ∃ xid id ops operations s₁ error, e = .handle xid id (.multi ops) ∧
      Appends env s.storage e (.multi operations env.now id) ∧
      s.log env (.multi operations env.now id) = (s₁, .error error) ∧
      s' = { s with wal := s₁.wal } := by
  obtain ⟨out, s'', op, done, -⟩ |
    ⟨xid, id, ops, operations, s₁, error, he, appends, failed, stops'⟩ := s.exec_served env hl e
  · cases stops.symm.trans done
  · cases stops.symm.trans stops'
    exact ⟨xid, id, ops, operations, s₁, error, he, appends, failed, rfl⟩

/-- The inversion of a step. -/
theorem Step.transition {e : Env × ServerEvent} {s' : KeeperServer recordBytes} (h : s.Step e s')
    (hl : s.storage.Linked) : ∃ out op, s.exec e.1 e.2 = .done out s' ∧
      Transition e.1 s.storage e.2 op out.watchEvents s'.storage ∧
      (e.1.flush = .succeeds → s'.wal = s.logged op) := by
  obtain ⟨out, done⟩ := h
  obtain ⟨out', s'', op, done', move, wal⟩ | ⟨-, s'', stops⟩ := s.exec_moves e.1 hl e.2
  · rw [done] at done'
    cases done'
    exact ⟨out, op, done, move, wal⟩
  · rw [done] at stops
    cases stops

/-- The state a step leads to. -/
def next (s : KeeperServer recordBytes) (e : Env × ServerEvent) : KeeperServer recordBytes :=
  match s.exec e.1 e.2 with
  | .done _ s' => s'
  | _ => s

theorem Step.eq_next {e : Env × ServerEvent} {s' : KeeperServer recordBytes} (h : s.Step e s') :
    s' = s.next e := by
  obtain ⟨out, done⟩ := h
  rw [next, done]

/-- While all files work, no step is stuck. -/
theorem step_next (hl : s.storage.Linked) (e : Env × ServerEvent)
    (flushed : e.1.flush = .succeeds) : s.Step e (s.next e) := by
  obtain ⟨out, s', op, done, -⟩ | ⟨failed, -⟩ := s.exec_moves e.1 hl e.2
  · rw [next, done]
    exact ⟨out, done⟩
  · exact absurd flushed failed

end KeeperServer

namespace Transition
variable {env : Env} {st st' : KeeperStorage} {e : ServerEvent} {op : Option WalOperation}
variable {events : List WatchEvent}

theorem linked (h : Transition env st e op events st') (hl : st.Linked) : st'.Linked := by
  cases h with
  | createSession timeoutMs => exact hl.of_map rfl
  | closeSession ended =>
    obtain ⟨st'', ended', linked⟩ := hl.nextZxid.endSession env.orders _
    cases ended.symm.trans ended'
    exact linked
  | touch id => exact hl.of_map rfl
  | unchanged => exact hl
  | unflushed failed => exact hl.nextZxid
  | create checked done => exact (hl.nextZxid.create_ok done).fired _ _ _
  | createFails checked failed => exact hl.nextZxid
  | set stored version done => exact (hl.nextZxid.set_ok done).fired _ _ _
  | delete checked done => exact ((hl.nextZxid.of_delete_ok done).of_map (by simp)).fired _ _ _
  | deleteRoot checked root => exact hl.nextZxid.fired _ _ _
  | read path t => exact hl.of_map rfl
  | close ended =>
    obtain ⟨st'', ended', linked⟩ := hl.endSession env.orders _
    cases ended.symm.trans ended'
    exact linked.of_map rfl
  | multi path => exact path.linked hl.nextZxid

end Transition
namespace KeeperServer
variable {recordBytes : LogRecord → ℕ}

theorem Step.linked {s s' : KeeperServer recordBytes} {e : Env × ServerEvent} (h : s.Step e s')
    (hl : s.storage.Linked) : s'.storage.Linked := by
  obtain ⟨out, op, -, move, -⟩ := h.transition hl
  exact move.linked hl

theorem Reachable.linked {s : KeeperServer recordBytes} (h : Reachable s) : s.storage.Linked := by
  induction h with
  | started h => exact (KeeperStorage.new_linked 500).replayAll (new_eq_ok h).2.2
  | stepped _ last ih => exact last.linked ih

/-- While all files work, every event can come next. -/
theorem Reachable.next {s : KeeperServer recordBytes} (h : Reachable s) (e : Env × ServerEvent)
    (flushed : e.1.flush = .succeeds) : Reachable (s.next e) :=
  .stepped h (step_next h.linked e flushed)

/-- On a linked tree no step panics: every parent and every node that is looked up again behind a
check is there. -/
theorem exec_not_panic {s : KeeperServer recordBytes} (hl : s.storage.Linked) (env : Env)
    (e : ServerEvent) (message : String) : s.exec env e ≠ .panic message := by
  obtain ⟨out, s', op, done, -⟩ | ⟨_, _, _, _, _, _, _, _, _, stops⟩ :=
    s.exec_served env hl e
  · simp [done]
  · simp [stops]

theorem run_not_panic {st : KeeperStorage} (hl : st.Linked) (env : Env) (id : SessionId)
    (ops : List MultiOp) (message : String) :
    MultiProgress.run ⟨st, [], [], []⟩ env id ops ≠ .error message := by
  obtain ⟨entries, st', path, rfl⟩ | ⟨entries, st', op, rest, error, path, rfl, fails⟩ :=
    multiRun_total env id hl ops
  · rw [MultiProgress.run_completes path]
    simp
  · rw [MultiProgress.run_fails path rest fails]
    simp

/-- In a reachable state no step of the server and no request panics: neither the operations on
the tree, nor a batch on its staged copy, nor the cleanup at the end of a session. -/
theorem never_panics {s : KeeperServer recordBytes} (h : Reachable s) :
    (∀ env e message, s.exec env e ≠ .panic message) ∧
    (∀ env xid id req message, s.apply env xid id req ≠ .panic message) ∧
    (∀ path data timestamp id flags message,
      s.storage.create path data timestamp id flags ≠ .panic message) ∧
    (∀ path message, s.storage.delete path ≠ .panic message) ∧
    (∀ env id ops message,
      MultiProgress.run ⟨s.storage.nextZxid, [], [], []⟩ env id ops ≠ .error message) ∧
    ∀ orders id message, endSession s.storage orders id ≠ .error message := by
  refine ⟨fun env e => exec_not_panic h.linked env e, ?_, ?_, h.linked.delete_not_panic,
    fun env => run_not_panic h.linked.nextZxid env, ?_⟩
  · intro env xid id req message panics
    have touched : (s.touchSession env.now id).storage.Linked := h.linked.of_map rfl
    apply exec_not_panic touched env (.handle xid id req) message
    exact congrArg (Exec.map Output.applied) panics
  · intro path data timestamp id flags message
    obtain ⟨_, _, _, _, done⟩ | ⟨_, failed, _⟩ :=
      s.storage.create_eq path data timestamp id flags
    · simp [done]
    · simp [failed]
  · intro orders id message
    obtain ⟨st', ended, -⟩ := h.linked.endSession orders id
    simp [ended]

/-- Two spellings of one path, and the removal of the root, on a fresh server. -/
theorem never_panics_initial :
    ¬ (∃ message, (initial (fun _ => 1)).apply (.working 0) 7 1
        (.multi [.create ⟨"/a", [], 0⟩, .create ⟨"//a", [], 0⟩, .delete ⟨"/a", -1⟩]) =
          .panic message) ∧
      ¬ ∃ message, (initial (fun _ => 1)).storage.delete "/" = .panic message := by
  obtain ⟨-, applies, -, deletes, -⟩ := never_panics (s := initial fun _ => 1) initial_reachable
  exact ⟨fun ⟨message, panics⟩ => applies _ _ _ _ _ panics,
    fun ⟨message, panics⟩ => deletes _ message panics⟩

end KeeperServer
end TinyKeeper
