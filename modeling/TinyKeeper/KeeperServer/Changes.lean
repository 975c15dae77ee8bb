import TinyKeeper.KeeperServer.Atomic
import TinyKeeper.Storage.Changes

/-! The changes that a step of the server makes to the tree, in order and under its zxid: those of
a request are read off its reply, a batch makes one after another on its staged copy. -/
namespace TinyKeeper

/-- The version -1 in a request stands for any version. -/
def expectedOf (version : Int32) : Option Int32 := if version = -1 then none else some version

theorem VersionOk.met {expected actual : Int32} (h : VersionOk expected actual) :
    ∀ e, expectedOf expected = some e → e = actual := by
  intro e here
  unfold expectedOf at here
  split_ifs at here with any
  exact (Option.some.inj here).symm.trans (h.resolve_left any)

namespace KeeperStorage
variable {st st' : KeeperStorage}

@[simp] theorem fired_map (orders : HashOrders) (path : String) (event : WatchEventType) :
    (st.fired orders path event).map = st.map := rfl

/-- The paths of the list that a cleanup deletes. -/
def cleared (st : KeeperStorage) : List String → List String
  | [] => []
  | path :: paths =>
    match st.delete path with
    | .ok _ st => path :: st.cleared paths
    | _ => st.cleared paths

theorem Linked.cleanup_changes (hl : st.Linked) {paths : List String}
    (h : st.cleanup paths = .ok st') :
    Run (TreeStep st.lastZxid) st.map ((st.cleared paths).map (.removed · none)) st'.map := by
  induction paths generalizing st with
  | nil =>
    cases h
    exact .nil
  | cons path paths ih =>
    rw [KeeperStorage.cleanup] at h
    rw [cleared]
    cases done : st.delete path with
    | ok _ t =>
      rw [done] at h
      obtain ⟨q, name, hd, -, -⟩ := KeeperStorage.delete_ok done
      obtain ⟨n, stored, -⟩ := hd.node
      have rest := ih (hl.of_delete_ok done) h
      rw [(delete_ok_stamped done).2] at rest
      exact Run.cons_iff.mpr ⟨_, hl.delete_ok_change stored (by simp) done, rest⟩
    | err _ =>
      rw [done] at h
      exact ih hl h
    | panic message =>
      rw [done] at h
      cases h

end KeeperStorage

/-- What a successful operation of a batch does to the tree. -/
def MultiOp.changes : MultiOp → MultiOpResponse → List Change
  | .check req, .check => [.checked req.path (expectedOf req.version)]
  | .set req, .set .. => [.set req.path (expectedOf req.version)]
  | .create req, .create path => [.created req path]
  | .delete req, .delete => [.removed req.path (expectedOf req.version)]
  | _, _ => []

/-- The replies of a batch that failed report no change. -/
theorem changes_rolledBack (ops : List MultiOp) (responses : List MultiOpResponse)
    (error : ErrorCode) (count : ℕ) :
    (ops.zip (rolledBack responses error count)).flatMap
      (fun (op, response) => op.changes response) = [] := by
  refine List.flatMap_eq_nil_iff.mpr ?_
  rintro ⟨op, response⟩ mem
  have told : ∃ code, response = .error code := by
    obtain mem | mem := List.mem_append.mp (List.of_mem_zip mem).2
    · obtain mem | mem := List.mem_append.mp (List.mem_of_mem_take mem)
      · obtain ⟨_, -, rfl⟩ := List.mem_map.mp mem
        exact ⟨_, rfl⟩
      · exact ⟨_, List.mem_singleton.mp mem⟩
    · exact ⟨_, (List.mem_replicate.mp mem).2⟩
  obtain ⟨code, rfl⟩ := told
  cases op <;> rfl

/-- What a request that got this reply did to the tree. The root is never removed. -/
def Request.changes (reply : Reply) : Request → List Change
  | .create req =>
    match reply.body with
    | .create path => [.created req path]
    | _ => []
  | .set req => if reply.err = .ok then [.set req.path (expectedOf req.version)] else []
  | .remove req =>
    if reply.err = .ok ∧ req.path ≠ "/" then [.removed req.path (expectedOf req.version)] else []
  | .multi ops =>
    match reply.body with
    | .multi responses => (ops.zip responses).flatMap fun (op, response) => op.changes response
    | _ => []
  | _ => []

section Batches
variable {env : Env} {id : SessionId} {st st' : KeeperStorage}

theorem MultiStep.changes {entry : MultiEntry} (h : MultiStep env id st entry st')
    (hl : st.Linked) :
    Run (TreeStep st.lastZxid) st.map (entry.1.changes entry.2.1) st'.map := by
  cases h with
  | check stored version => exact Run.single (.checked stored version.met)
  | set stored version done updated =>
    rw [KeeperStorage.fired_map]
    exact Run.single (KeeperStorage.set_ok_change stored version.met done)
  | create done =>
    rw [KeeperStorage.fired_map]
    exact Run.single (KeeperStorage.create_ok_change done)
  | delete stored version done =>
    rw [KeeperStorage.fired_map, KeeperStorage.disowned_map]
    exact Run.single (hl.delete_ok_change stored version.met done)

theorem MultiRun.changes {entries : List MultiEntry} (h : MultiRun env id st entries st')
    (hl : st.Linked) : Run (TreeStep st.lastZxid) st.map
      (entries.flatMap fun entry => entry.1.changes entry.2.1) st'.map := by
  induction h with
  | nil => exact .nil
  | snoc init last ih =>
    have step := last.changes (MultiRun.linked init hl)
    rw [(MultiRun.stamped init).2] at step
    rw [List.flatMap_append]
    refine ih.trans ?_
    simpa using step

end Batches

namespace KeeperServer
variable {recordBytes : LogRecord → ℕ} (s : KeeperServer recordBytes) (env : Env)

/-- The nodes that the end of a session removes. -/
def endChanges (tree : KeeperStorage) (orders : HashOrders) (id : SessionId) : List Change :=
  let (sessionState, paths) := tree.sessionState.closeSession orders id
  (KeeperStorage.cleared { tree with sessionState } paths).map (.removed · none)

/-- What a step does to the tree, in order. -/
def changes (e : ServerEvent) (out : Output) : List Change :=
  match e with
  | .closeSession id => endChanges s.storage.nextZxid env.orders id
  | .handle _ id .close => endChanges s.storage env.orders id
  | .handle _ _ req =>
    match out with
    | .applied result => req.changes result.response
    | _ => []
  | _ => []

/-- The tree changes as the reply to the request says, under the next zxid. -/
def Changed (req : Request) (result : Exec (KeeperServer recordBytes) ApplyResult) : Prop :=
  ∀ r s', result = .done r s' →
    Run (TreeStep s'.storage.lastZxid) s.storage.map (req.changes r.response) s'.storage.map ∧
    (req.changes r.response ≠ [] → s'.storage.lastZxid = s.storage.lastZxid + 1)

variable {s env}

theorem changed_refuse {s₁ : KeeperServer recordBytes} (xid : Int32) (req : Request)
    {code : ErrorCode} (bad : code ≠ .ok) (same : s₁.storage.map = s.storage.map) :
    s.Changed req (s₁.refuse xid code) := by
  intro r s' done
  cases done
  have quiet : req.changes (s₁.reply xid code) = [] := by
    cases req with
    | set req => exact if_neg bad
    | remove req => exact if_neg (fun h => bad h.1)
    | _ => rfl
  rw [quiet, same]
  exact ⟨.nil, fun some => absurd rfl some⟩

theorem Written.changed {xid : Int32} {id : SessionId} {req : Request} {op : WalOperation}
    {result : Exec (KeeperServer recordBytes) ApplyResult} (h : s.Written env xid id req op result)
    (hl : s.storage.Linked) (submits : (ServerEvent.handle xid id req).submits env.now = some op) :
    s.Changed req result := by
  have logged {s₁ : KeeperServer recordBytes} {answer : Except WalError Unit}
      (hlog : s.log env op = (s₁, answer)) : s₁.storage.map = s.storage.map := by
    have storage : s₁.storage = s.storage.nextZxid := by rw [← s.log_storage env op, hlog]
    rw [storage, KeeperStorage.nextZxid_map]
  cases h with
  | refused bad => exact changed_refuse xid req bad.1 rfl
  | unflushed appends failed => exact changed_refuse xid req (by decide) (logged failed)
  | fails hlog move bad => exact changed_refuse xid req bad.1 (logged hlog)
  | @done s₁ r st hlog move ok names =>
    intro r' s' answered
    cases answered
    have counter : st.lastZxid = s.storage.nextZxid.lastZxid := move.lastZxid_logged
    refine ⟨?_, fun _ => counter⟩
    simp only [counter]
    generalize r.watchEvents = events at move
    cases move with
    | create checked done =>
      obtain ⟨path, tree, body, created⟩ := names _ rfl
      cases done.symm.trans created
      rw [Request.changes, body, KeeperStorage.fired_map]
      have step := KeeperStorage.create_ok_change done
      exact Run.single step
    | createFails checked failed =>
      obtain ⟨path, tree, -, created⟩ := names _ rfl
      cases failed.symm.trans created
    | @set _ _ req n st' stored version done =>
      have again : s.storage.nextZxid.map.get req.path = some n := stored
      have step := KeeperStorage.set_ok_change again version.met done
      rw [Request.changes, if_pos ok, KeeperStorage.fired_map]
      exact Run.single step
    | @delete _ _ req n st' checked done =>
      obtain ⟨q, name, deletable, -, -⟩ := KeeperStorage.delete_ok done
      have root : req.path ≠ "/" := parentOf_ne_root deletable.split deletable.name_ne
      have again : s.storage.nextZxid.map.get req.path = some n := checked.stored
      have step := hl.nextZxid.delete_ok_change again checked.version.met done
      rw [Request.changes, if_pos ⟨ok, root⟩, KeeperStorage.fired_map,
        KeeperStorage.disowned_map]
      exact Run.single step
    | deleteRoot checked root =>
      rw [Request.changes, if_neg (fun h => h.2 root), KeeperStorage.fired_map]
      exact .nil
    | multi path => cases submits

theorem MultiEnds.changed {xid : Int32} {id : SessionId} {ops : List MultiOp}
    {result : Exec (KeeperServer recordBytes) ApplyResult} (h : s.MultiEnds env xid id ops result)
    (hl : s.storage.Linked) : s.Changed (.multi ops) result := by
  intro r s' answered
  cases h with
  | @completes entries st s₁ path hlog =>
    cases answered
    have zipped : ((entries.map Prod.fst).zip (entries.map (·.2.1))).flatMap
        (fun (op, response) => op.changes response) =
        entries.flatMap fun entry => entry.1.changes entry.2.1 := by
      rw [List.zip_map', List.flatMap_map]
    have steps := MultiRun.changes path hl.nextZxid
    have counter := (MultiRun.stamped path).2
    rw [← zipped, ← counter] at steps
    exact ⟨steps, fun _ => counter⟩
  | aborts path hlog => cases answered
  | fails path fails =>
    cases answered
    have quiet := changes_rolledBack
    rw [Request.changes]
    simp only [reply, quiet]
    exact ⟨.nil, fun some => absurd rfl some⟩

/-- The end of a session removes the nodes it lists. -/
theorem endSession_changes {tree st : KeeperStorage} {orders : HashOrders} {id : SessionId}
    (hl : tree.Linked) (h : endSession tree orders id = .ok st) :
    Run (TreeStep st.lastZxid) tree.map (endChanges tree orders id) st.map := by
  have dropped : KeeperStorage.Linked { tree with
      sessionState := (tree.sessionState.closeSession orders id).1 } := hl.of_map rfl
  have cleaned : KeeperStorage.cleanup { tree with
      sessionState := (tree.sessionState.closeSession orders id).1 }
      (tree.sessionState.closeSession orders id).2 = .ok st := h
  rw [KeeperStorage.cleanup_lastZxid cleaned]
  exact dropped.cleanup_changes cleaned

/-- A read changes nothing. -/
theorem handleRead_map {xid : Int32} {req : ReadRequest} {id : SessionId} {t : WatchType}
    {body : Node → ReplyBody} {r : ApplyResult} {s' : KeeperServer recordBytes}
    (done : s.handleRead xid req id t body = .done r s') : s'.storage.map = s.storage.map := by
  have ends := s.handleRead_ends xid req id t body
  rw [done] at ends
  cases ends with
  | watching watch calm => rfl
  | plain watch calm => rfl

/-- The tree changes in every step as its changes say, under the counter the step leaves; if it
changes, that is the next zxid, unless the step is the explicit end of a session. -/
theorem exec_changed (hl : s.storage.Linked) {e : ServerEvent} {out : Output}
    {s' : KeeperServer recordBytes} (done : s.exec env e = .done out s') :
    Run (TreeStep s'.storage.lastZxid) s.storage.map (s.changes env e out) s'.storage.map ∧
    (s.changes env e out ≠ [] → (∀ xid id, e ≠ .handle xid id .close) →
      s'.storage.lastZxid = s.storage.lastZxid + 1) := by
  have quiet (same : s'.storage.map = s.storage.map) :
      Run (TreeStep s'.storage.lastZxid) s.storage.map [] s'.storage.map ∧
      (([] : List Change) ≠ [] → (∀ xid id, e ≠ .handle xid id .close) →
        s'.storage.lastZxid = s.storage.lastZxid + 1) := by
    rw [same]
    exact ⟨.nil, fun some => absurd rfl some⟩
  cases e with
  | createSession timeoutMs =>
    cases done
    exact quiet rfl
  | closeSession id =>
    obtain ⟨rfl, ended⟩ := exec_closeSession done
    exact ⟨endSession_changes hl.nextZxid ended,
      fun _ _ => KeeperStorage.endSession_lastZxid ended⟩
  | touch id =>
    cases done
    exact quiet rfl
  | handle xid id req =>
    obtain ⟨r, rfl, handled⟩ := exec_handle done
    have counted {P Q : Prop} (h : P ∧ (s.changes env (.handle xid id req) (.applied r) ≠ [] → Q)) :
        P ∧ (s.changes env (.handle xid id req) (.applied r) ≠ [] →
          (∀ xid' id', ServerEvent.handle xid id req ≠ .handle xid' id' .close) → Q) :=
      ⟨h.1, fun some _ => h.2 some⟩
    cases req with
    | create req => exact counted ((s.handle_written env hl rfl).changed hl rfl r s' handled)
    | get req => exact quiet (handleRead_map handled)
    | set req => exact counted ((s.handle_written env hl rfl).changed hl rfl r s' handled)
    | remove req => exact counted ((s.handle_written env hl rfl).changed hl rfl r s' handled)
    | heartbeat =>
      cases handled
      exact quiet rfl
    | simpleList req => exact quiet (handleRead_map handled)
    | list req => exact quiet (handleRead_map handled)
    | «exists» req => exact quiet (handleRead_map handled)
    | close =>
      obtain ⟨st, ended, rfl⟩ := handle_close handled
      have steps := endSession_changes hl ended
      exact ⟨steps, fun _ other => absurd rfl (other _ _)⟩
    | multi ops => exact counted ((handleMulti_ends hl xid ops id).changed hl r s' handled)
    | rejected =>
      cases handled
      exact quiet rfl

theorem exec_changes (hl : s.storage.Linked) {e : ServerEvent} {out : Output}
    {s' : KeeperServer recordBytes} (done : s.exec env e = .done out s') :
    Run (TreeStep s'.storage.lastZxid) s.storage.map (s.changes env e out) s'.storage.map :=
  (exec_changed hl done).1

end KeeperServer
end TinyKeeper
