import TinyKeeper.KeeperServer.Changes
import TinyKeeper.KeeperServer.Executions
import TinyKeeper.KeeperServer.WatchSessions
import TinyKeeper.WatchState.Promises

/-! What the server does with its watches, seen from the outside: every step is a run of calls that
the request and its reply tell, and the notifications are those that the calls return. -/
namespace TinyKeeper

/-- The firing that a change of the tree sets off. -/
def Change.firing : Change → Option WatchCall
  | .created _ path => some (.fire path .created)
  | .set path _ => some (.fire path .changed)
  | .removed path _ => some (.fire path .deleted)
  | .checked _ _ => none

/-- The calls that a request makes. A removal of the root fires its watches and removes nothing. -/
def Request.watchCalls (id : SessionId) (reply : Reply) : Request → List WatchCall
  | .get req | .exists req => if req.watch then [.register id req.path .watch] else []
  | .list req | .simpleList req => if req.watch then [.register id req.path .listWatch] else []
  | .close => [.clear id]
  | .remove req => if reply.err = .ok then [.fire req.path .deleted] else []
  | req => (req.changes reply).filterMap Change.firing

/-- The watch that the request asks for. -/
def Request.watch? : Request → Option (String × WatchType)
  | .get req | .exists req => if req.watch then some (req.path, .watch) else none
  | .list req | .simpleList req => if req.watch then some (req.path, .listWatch) else none
  | _ => none

/-- A read of a node asks for a watch on it, a list of names for one on the list. -/
theorem Request.watch?_cases {req : Request} {p : String} {t : WatchType}
    (asks : req.watch? = some (p, t)) :
    (t = .watch ∧ ∃ read, (req = .get read ∨ req = .exists read) ∧ read.path = p) ∨
      (t = .listWatch ∧ ∃ read, (req = .list read ∨ req = .simpleList read) ∧ read.path = p) := by
  cases req with
  | get read | «exists» read =>
    obtain ⟨-, same⟩ := Option.ite_none_right_eq_some.mp asks
    cases same
    exact .inl ⟨rfl, read, by simp⟩
  | list read | simpleList read =>
    obtain ⟨-, same⟩ := Option.ite_none_right_eq_some.mp asks
    cases same
    exact .inr ⟨rfl, read, by simp⟩
  | _ => cases asks

def Executed.watchCalls (e : Executed) : List WatchCall :=
  match e.handled with
  | some h => h.request.watchCalls h.session h.result.response
  | none => []

section Traces
variable (id id' : SessionId) (req : Request) (reply : Reply)

theorem Change.mem_filterMap_firing {changes : List Change} {c : WatchCall}
    (mem : c ∈ changes.filterMap Change.firing) : ∃ path event, c = .fire path event ∧
      event ≠ .child := by
  obtain ⟨change, -, fires⟩ := List.mem_filterMap.mp mem
  cases change <;> cases fires <;> exact ⟨_, _, rfl, by simp⟩

/-- What a request asks of the watches, apart from the firings. -/
theorem Request.watchCalls_cases {c : WatchCall} (mem : c ∈ req.watchCalls id reply) :
    (∃ p t, req.watch? = some (p, t) ∧ req.watchCalls id reply = [.register id p t]) ∨
      (req = .close ∧ c = .clear id) ∨ ∃ path event, c = .fire path event ∧ event ≠ .child := by
  cases req with
  | get req | «exists» req | list req | simpleList req =>
    simp only [Request.watchCalls] at mem ⊢
    split_ifs at mem ⊢ with watch
    · exact .inl ⟨_, _, if_pos watch, rfl⟩
    · cases mem
  | close => exact .inr (.inl ⟨rfl, List.mem_singleton.mp mem⟩)
  | remove req =>
    simp only [Request.watchCalls] at mem
    split_ifs at mem
    · exact .inr (.inr ⟨_, _, List.mem_singleton.mp mem, by simp⟩)
    · cases mem
  | create _ | set _ | multi _ => exact .inr (.inr (Change.mem_filterMap_firing mem))
  | heartbeat | rejected => cases mem

theorem Request.watchCalls_plain {c : WatchCall} (mem : c ∈ req.watchCalls id reply) : c.Plain := by
  obtain ⟨p, t, -, all⟩ | ⟨-, rfl⟩ | ⟨path, event, rfl, plain⟩ := req.watchCalls_cases id reply mem
  · rw [all, List.mem_singleton] at mem
    exact mem ▸ trivial
  · trivial
  · exact plain

theorem Request.clear_mem_watchCalls (mem : .clear id ∈ req.watchCalls id' reply) :
    req = .close ∧ id' = id := by
  obtain ⟨p, t, -, all⟩ | ⟨close, same⟩ | ⟨path, event, other, -⟩ :=
    req.watchCalls_cases id' reply mem
  · rw [all, List.mem_singleton] at mem
    cases mem
  · cases same
    exact ⟨close, rfl⟩
  · cases other

theorem Request.watchCalls_of_watch? {p : String} {t : WatchType}
    (asks : req.watch? = some (p, t)) : req.watchCalls id reply = [.register id p t] := by
  cases req with
  | get req | «exists» req | list req | simpleList req =>
    simp only [Request.watch?] at asks
    split_ifs at asks with watch
    · cases asks
      exact if_pos watch
  | _ => cases asks

theorem Request.count_watchCalls (p : String) (t : WatchType) :
    (req.watchCalls id' reply).count (.register id p t) ≤
      if id' = id ∧ req.watch? = some (p, t) then 1 else 0 := by
  by_cases mem : .register id p t ∈ req.watchCalls id' reply
  · obtain ⟨p', t', asks, all⟩ | ⟨-, other⟩ | ⟨_, _, other, -⟩ :=
      req.watchCalls_cases id' reply mem
    · rw [all, List.mem_singleton] at mem
      cases mem
      rw [all, if_pos ⟨rfl, asks⟩, List.count_singleton_self]
    · cases other
    · cases other
  · rw [List.count_eq_zero_of_not_mem mem]
    exact Nat.zero_le _

end Traces

section Writes
variable {env : Env} {id : SessionId} {st st' : KeeperStorage}

theorem MultiStep.watchCalls {entry : MultiEntry} (h : MultiStep env id st entry st') :
    st.watchState.Calls ((entry.1.changes entry.2.1).filterMap Change.firing) entry.2.2
      st'.watchState := by
  cases h with
  | check stored version => exact .none rfl
  | set stored version done updated =>
    rw [KeeperStorage.fired_watchState, ← KeeperStorage.set_ok_watchState done]
    exact .fired _ _ _ _
  | create done =>
    rw [KeeperStorage.fired_watchState, ← KeeperStorage.create_ok_watchState done]
    exact .fired _ _ _ _
  | delete stored version done =>
    rw [KeeperStorage.fired_watchState, KeeperStorage.disowned_watchState,
      ← KeeperStorage.delete_ok_watchState done]
    exact .fired _ _ _ _

theorem MultiRun.watchCalls {entries : List MultiEntry} (h : MultiRun env id st entries st') :
    st.watchState.Calls
      ((entries.flatMap fun entry => entry.1.changes entry.2.1).filterMap Change.firing)
      (entries.flatMap (·.2.2)) st'.watchState := by
  induction h with
  | nil => exact .none rfl
  | snoc init last ih =>
    simp only [List.flatMap_append, List.filterMap_append, List.flatMap_singleton]
    exact ih.append last.watchCalls

theorem WriteEnds.watchCalls {req : Request} {code : ErrorCode} {body : ReplyBody}
    {events : List WatchEvent} (h : WriteEnds env id st req code body events st') (xid : Int32)
    (zxid : ℕ) :
    st.watchState.Calls (req.watchCalls id ⟨xid, zxid, code, body⟩) events st'.watchState := by
  cases h with
  | @create req path st' checked done =>
    have same := KeeperStorage.create_ok_watchState done
    rw [KeeperStorage.nextZxid_watchState] at same
    rw [KeeperStorage.fired_watchState, same]
    exact .fired _ _ _ _
  | createFails checked failed => exact .none rfl
  | set stored version done updated =>
    have same := KeeperStorage.set_ok_watchState done
    rw [KeeperStorage.nextZxid_watchState] at same
    rw [KeeperStorage.fired_watchState, same]
    exact .fired _ _ _ _
  | delete checked done =>
    have same := KeeperStorage.delete_ok_watchState done
    rw [KeeperStorage.nextZxid_watchState] at same
    rw [KeeperStorage.fired_watchState, KeeperStorage.disowned_watchState, same]
    exact .fired _ _ _ _
  | deleteRoot checked root => exact .fired _ _ _ _

end Writes

namespace KeeperServer
variable {recordBytes : LogRecord → ℕ} {s s' : KeeperServer recordBytes} {env : Env}

/-- The watches move as the request and its reply tell. -/
def Calling (s : KeeperServer recordBytes) (id : SessionId) (req : Request) :
    Exec (KeeperServer recordBytes) ApplyResult → Prop
  | .done r s' => s.storage.watchState.Calls (req.watchCalls id r.response) r.watchEvents
      s'.storage.watchState
  | _ => True

/-- A write that is refused has nothing to fire. -/
theorem refuse_calling {id : SessionId} {req : Request} {op : WalOperation} {xid : Int32}
    {now : Int} (writes : (ServerEvent.handle xid id req).submits now = some op)
    {s₁ : KeeperServer recordBytes} {code : ErrorCode} (bad : code ≠ .ok)
    (same : s₁.storage.watchState = s.storage.watchState) :
    s.Calling id req (s₁.refuse xid code) := by
  have quiet : req.watchCalls id (s₁.reply xid code) = [] := by
    cases req with
    | create req => rfl
    | set req => simp [Request.watchCalls, Request.changes, reply, bad]
    | remove req => simp [Request.watchCalls, reply, bad]
    | _ => cases writes
  change WatchState.Calls _ (req.watchCalls id (s₁.reply xid code)) [] _
  rw [quiet]
  exact .none same

theorem Answers.calling {id : SessionId} {xid : Int32} {req : Request} {op : WalOperation}
    {result : Exec (KeeperServer recordBytes) ApplyResult}
    (h : s.Answers env xid id req op result)
    (writes : (ServerEvent.handle xid id req).submits env.now = some op) :
    s.Calling id req result := by
  cases h with
  | refused fails => exact refuse_calling writes fails.code_ne.1 rfl
  | logged ends =>
    rw [finish]
    obtain ⟨s₁, error, hlog, storage⟩ | ⟨s₁, hlog, -⟩ := s.log_cases env op
    · rw [hlog]
      refine refuse_calling writes (by decide) ?_
      rw [storage, KeeperStorage.nextZxid_watchState]
    · rw [hlog]
      exact ends.watchCalls xid _

theorem handleRead_calling {id : SessionId} {req : Request} (xid : Int32) (read : ReadRequest)
    (t : WatchType) (body : Node → ReplyBody)
    (calls : ∀ reply, req.watchCalls id reply =
      if read.watch then [.register id read.path t] else []) :
    s.Calling id req (s.handleRead xid read id t body) := by
  obtain ⟨code, answer, done, -⟩ := s.handleRead_done xid id read t body
  rw [done]
  simp only [Calling, calls, afterRead]
  split_ifs
  · exact .one ⟨.choice, .choice, .choice⟩ rfl
  · exact .none rfl

theorem handle_calling (linked : s.storage.Linked) (env : Env) (xid : Int32) (id : SessionId)
    (req : Request) : s.Calling id req (s.handle env xid id req) := by
  cases req with
  | create req => exact (handle_answers s env linked rfl).calling rfl
  | set req => exact (handle_answers s env linked rfl).calling rfl
  | remove req => exact (handle_answers s env linked rfl).calling rfl
  | get req => exact handleRead_calling xid req _ _ fun _ => rfl
  | «exists» req => exact handleRead_calling xid req _ _ fun _ => rfl
  | list req => exact handleRead_calling xid req _ _ fun _ => rfl
  | simpleList req => exact handleRead_calling xid req _ _ fun _ => rfl
  | heartbeat => exact .none rfl
  | close =>
    obtain ⟨st, ended, -⟩ := linked.endSession env.orders id
    have same := KeeperStorage.endSession_watchState ended
    rw [handle, handleClose, ended]
    change WatchState.Calls _ [.clear id] [] (st.watchState.clear env.orders id)
    rw [same]
    exact .one env.orders rfl
  | multi ops =>
    have ends : s.MultiEnds env xid id ops (s.handle env xid id (.multi ops)) :=
      handleMulti_ends linked xid ops id
    generalize s.handle env xid id (.multi ops) = result at ends
    cases ends with
    | completes path hlog =>
      have calls := path.watchCalls
      rw [KeeperStorage.nextZxid_watchState] at calls
      have zipped {entries : List MultiEntry} :
          ((entries.map Prod.fst).zip (entries.map (·.2.1))).flatMap
            (fun pair => pair.1.changes pair.2) =
          entries.flatMap fun entry => entry.1.changes entry.2.1 := by
        rw [List.zip_map', List.flatMap_map]
      rw [← zipped] at calls
      exact calls
    | aborts path hlog => exact trivial
    | fails path fails =>
      change WatchState.Calls _ (((List.zip _ _).flatMap _).filterMap _) [] _
      rw [changes_rolledBack]
      exact .none rfl
  | rejected => exact .none rfl

theorem executes_watchCalls (linked : s.storage.Linked) {e : Executed}
    (executes : s.Executes e s') :
    s.storage.watchState.Calls e.watchCalls e.output.watchEvents s'.storage.watchState := by
  obtain ⟨env, event, output⟩ := e
  cases event with
  | createSession timeoutMs =>
    cases executes
    exact .none rfl
  | closeSession id =>
    obtain ⟨rfl, ended⟩ := exec_closeSession executes
    have same := KeeperStorage.endSession_watchState ended
    exact .none same
  | touch id =>
    cases executes
    exact .none rfl
  | handle xid id req =>
    obtain ⟨r, rfl, done⟩ := exec_handle executes
    have calling := handle_calling linked env xid id req
    rw [done] at calling
    exact calling

/-- Whatever the server executes, its watch state goes through the calls that the requests and their
replies tell, and the notifications are those that the calls return. -/
theorem watches_refine {s₀ : KeeperServer recordBytes} (reachable : Reachable s₀)
    {log : List Executed} (run : Run Executes s₀ log s) :
    s₀.storage.watchState.Calls (log.flatMap Executed.watchCalls)
      (log.flatMap fun e => e.output.watchEvents) s.storage.watchState := by
  induction run with
  | nil => exact .none rfl
  | snoc init last ih =>
    have before := (consistent_of_run reachable init).reachable
    simp only [List.flatMap_append, List.flatMap_singleton]
    exact ih.append (executes_watchCalls before.linked last)

theorem Reachable.watch_consistent (reachable : Reachable s) : s.storage.watchState.Consistent := by
  induction reachable with
  | started started =>
    rw [new_watchState started]
    exact WatchState.new_consistent
  | @stepped s e s' init last ih =>
    obtain ⟨output, done⟩ := last
    have executes : s.Executes ⟨e.1, e.2, output⟩ s' := done
    exact (executes_watchCalls init.linked executes).consistent ih

/-- The calls of an execution, as its requests and their replies tell them. -/
theorem mem_watchCalls {log : List Executed} {c : WatchCall}
    (mem : c ∈ log.flatMap Executed.watchCalls) : ∃ h ∈ log.filterMap Executed.handled,
      c ∈ h.request.watchCalls h.session h.result.response := by
  obtain ⟨e, inside, made⟩ := List.mem_flatMap.mp mem
  unfold Executed.watchCalls at made
  cases handled : e.handled with
  | none =>
    rw [handled] at made
    cases made
  | some h =>
    rw [handled] at made
    exact ⟨h, List.mem_filterMap.mpr ⟨e, inside, handled⟩, made⟩

theorem watchCalls_plain {log : List Executed} {c : WatchCall}
    (mem : c ∈ log.flatMap Executed.watchCalls) : c.Plain := by
  obtain ⟨h, -, made⟩ := mem_watchCalls mem
  exact Request.watchCalls_plain _ _ _ made

/-- After a read that asks for a watch, the calls go on from a state in which it is registered, and
do not clear it unless its session closes. -/
theorem watch_calls {s₀ : KeeperServer recordBytes} (reachable : Reachable s₀) {e : Executed}
    {later : List Executed} (run : Run Executes s₀ (e :: later) s) {h : Handled}
    (handled : e.handled = some h) {p : String} {t : WatchType}
    (asks : h.request.watch? = some (p, t))
    (stays : ∀ h' ∈ later.filterMap Executed.handled, h'.session = h.session →
      h'.request ≠ .close) :
    ∃ ws : WatchState, ws.Consistent ∧ ws.Registered t p h.session ∧
      .clear h.session ∉ later.flatMap Executed.watchCalls ∧
      ws.Calls (later.flatMap Executed.watchCalls) (later.flatMap fun e => e.output.watchEvents)
        s.storage.watchState := by
  obtain ⟨s₁, first, rest⟩ := Run.cons_iff.mp run
  have registers := executes_watchCalls reachable.linked first
  have call : e.watchCalls = [.register h.session p t] := by
    rw [Executed.watchCalls, handled]
    exact Request.watchCalls_of_watch? _ _ _ asks
  rw [call] at registers
  have next := (consistent_of_run reachable (.single first)).reachable
  refine ⟨_, next.watch_consistent, registers.registered, fun mem => ?_, watches_refine next rest⟩
  obtain ⟨h', inside, made⟩ := mem_watchCalls mem
  obtain ⟨close, same⟩ := Request.clear_mem_watchCalls _ _ _ _ made
  exact stays h' inside same close

/-- A watch is kept: as long as its session does not close, it stands until the session is told
about it, and the first change that triggers it does tell the session. -/
theorem watch_fulfilled {s₀ : KeeperServer recordBytes} (reachable : Reachable s₀) {e : Executed}
    {later : List Executed} (run : Run Executes s₀ (e :: later) s) {h : Handled}
    (handled : e.handled = some h) {p : String} {t : WatchType}
    (asks : h.request.watch? = some (p, t))
    (stays : ∀ h' ∈ later.filterMap Executed.handled, h'.session = h.session →
      h'.request ≠ .close) :
    (s.storage.watchState.Registered t p h.session ∨
      ∃ event ∈ later.flatMap fun e => e.output.watchEvents, event.Tells h.session p t) ∧
    ∀ path event, .fire path event ∈ later.flatMap Executed.watchCalls →
      WatchState.Triggers path event t p →
      ∃ event ∈ later.flatMap fun e => e.output.watchEvents, event.Tells h.session p t := by
  obtain ⟨ws, consistent, registered, lives, calls⟩ :=
    watch_calls reachable run handled asks stays
  have plain (c : WatchCall) (mem : c ∈ later.flatMap Executed.watchCalls) := watchCalls_plain mem
  exact ⟨calls.keeps consistent plain lives registered,
    fun path event fires => calls.fulfils consistent plain lives registered fires⟩

/-- A session watches the root, and changes it. -/
theorem watch_fulfilled_set : ∃ (s : KeeperServer fun _ => 1) (r r' : ApplyResult),
    Run Executes (initial _) [⟨.working 0, .handle 1 1 (.get ⟨"/", true⟩), .applied r⟩,
      ⟨.working 1, .handle 2 1 (.set ⟨"/", [], -1⟩), .applied r'⟩] s ∧
    ∃ event ∈ r'.watchEvents, event.Tells 1 "/" .watch := by
  obtain ⟨r, v, watches⟩ : ∃ r v, (initial fun _ => 1).exec (.working 0)
      (.handle 1 1 (.get ⟨"/", true⟩)) = .done (.applied r) v := ⟨_, _, rfl⟩
  obtain ⟨r', s, sets, ok⟩ : ∃ r' s, v.exec (.working 1) (.handle 2 1 (.set ⟨"/", [], -1⟩)) =
      .done (.applied r') s ∧ r'.response.err = .ok := by
    cases watches
    exact ⟨_, _, rfl, rfl⟩
  have run : Run Executes (initial fun _ => 1)
      [⟨.working 0, _, .applied r⟩, ⟨.working 1, _, _⟩] s :=
    Run.cons_iff.mpr ⟨v, watches, .single sets⟩
  have fulfilled := (watch_fulfilled initial_reachable run rfl rfl (by
    intro h' mem _
    cases List.mem_singleton.mp mem
    simp)).2 "/" .changed (by
      simp [Executed.watchCalls, Executed.handled, Request.watchCalls, Request.changes,
        Change.firing, ok]) (.inl ⟨rfl, rfl⟩)
  obtain ⟨event, mem, tells⟩ := fulfilled
  refine ⟨s, r, r', run, event, ?_, tells⟩
  simpa [Output.watchEvents] using mem

end KeeperServer
end TinyKeeper
