import TinyKeeper.KeeperServer.Executions
import TinyKeeper.KeeperServer.Watches
import TinyKeeper.WatchState.Orders

/-! The server does not depend on the orders in which its hash sets are iterated, which are another
in every process: they show in the order of the notifications of a request, and nowhere else. -/
namespace TinyKeeper

/-- The same world with other orders. -/
def Env.reordered (env : Env) (orders : HashOrders) : Env := ⟨env.now, env.flush, orders⟩

section Fire
variable (ws : WatchState) (env : Env) (orders : HashOrders) (path : String)
  (event : WatchEventType)

theorem fire_reordered : (ws.fire (env.reordered orders).orders path event).1 =
    (ws.fire env.orders path event).1 :=
  (ws.fire_orders _ _ path event).1

theorem events_reordered : (ws.fire env.orders path event).2.Perm
    (ws.fire (env.reordered orders).orders path event).2 :=
  (ws.fire_orders _ _ path event).2

end Fire

namespace MultiProgress

/-- The two differ in the order of the notifications only. -/
inductive Reorders {ε : Type} :
    Panics (Except ε MultiProgress) → Panics (Except ε MultiProgress) → Prop
  | same {result : Panics (Except ε MultiProgress)} : Reorders result result
  | goes {staged : KeeperStorage} {responses : List MultiOpResponse}
      {walOperations : List MultiWalOperation} {events events' : List WatchEvent}
      (perm : events.Perm events') : Reorders (.ok (.ok ⟨staged, responses, walOperations, events⟩))
        (.ok (.ok ⟨staged, responses, walOperations, events'⟩))

variable {staged : KeeperStorage} {responses : List MultiOpResponse}
  {walOperations : List MultiWalOperation} {events events' : List WatchEvent}

theorem step_reordered (perm : events.Perm events') (env : Env) (orders : HashOrders)
    (id : SessionId) (op : MultiOp) :
    Reorders ((⟨staged, responses, walOperations, events⟩ : MultiProgress).step env id op)
      ((⟨staged, responses, walOperations, events'⟩ : MultiProgress).step (env.reordered orders)
        id op) := by
  have now : (env.reordered orders).now = env.now := rfl
  cases op with
  | check req =>
    simp only [step, check, push]
    cases staged.traverse req.path with
    | none => exact .same
    | some n =>
      simp only
      split_ifs
      · exact .same
      · exact .goes (perm.append (.refl _))
  | set req =>
    simp only [step, set, push, now, fire_reordered]
    cases staged.traverse req.path with
    | none => exact .same
    | some n =>
      simp only
      split_ifs
      · exact .same
      cases staged.set req.path req.data env.now with
      | err message | panic message => exact .same
      | ok _ st =>
        simp only [Outcome.expect, bind, Except.bind]
        cases KeeperStorage.traverse _ req.path with
        | none => exact .same
        | some n => exact .goes (perm.append (events_reordered _ _ _ _ _))
  | create req =>
    simp only [step, create, push, now, fire_reordered]
    cases staged.create req.path req.data env.now id req.flags with
    | err message | panic message => exact .same
    | ok path st => exact .goes (perm.append (events_reordered _ _ _ _ _))
  | delete req =>
    simp only [step, delete, push, fire_reordered]
    cases staged.traverse req.path with
    | none => exact .same
    | some n =>
      simp only
      by_cases stale : req.version ≠ -1 ∧ req.version ≠ n.stat.version
      · rw [if_pos stale, if_pos stale]
        exact .same
      rw [if_neg stale, if_neg stale]
      by_cases root : req.path = "/"
      · rw [if_pos root, if_pos root]
        exact .same
      rw [if_neg root, if_neg root]
      by_cases parent : n.children ≠ ∅
      · rw [if_pos parent, if_pos parent]
        exact .same
      rw [if_neg parent, if_neg parent]
      cases staged.delete req.path with
      | err message | panic message => exact .same
      | ok _ st => exact .goes (perm.append (events_reordered _ _ _ _ _))

/-- One operation after the other. -/
theorem run_reordered (env : Env) (orders : HashOrders) (id : SessionId) (ops : List MultiOp)
    (staged : KeeperStorage) (responses : List MultiOpResponse)
    (walOperations : List MultiWalOperation) {events events' : List WatchEvent}
    (perm : events.Perm events') :
    Reorders ((⟨staged, responses, walOperations, events⟩ : MultiProgress).run env id ops)
      ((⟨staged, responses, walOperations, events'⟩ : MultiProgress).run (env.reordered orders)
        id ops) := by
  induction ops generalizing staged responses walOperations events events' with
  | nil => exact .goes perm
  | cons op ops ih =>
    have step : Reorders
      ((⟨staged, responses, walOperations, events⟩ : MultiProgress).step env id op)
      ((⟨staged, responses, walOperations, events'⟩ : MultiProgress).step (env.reordered orders)
        id op) := step_reordered perm env orders id op
    simp only [run]
    generalize MultiProgress.step _ env id op = result at step ⊢
    generalize MultiProgress.step _ (env.reordered orders) id op = result' at step ⊢
    cases step with
    | same =>
      obtain message | error | ⟨staged, responses, walOperations, events⟩ := result
      · exact .same
      · exact .same
      · exact ih staged responses walOperations (.refl events)
    | goes perm => exact ih _ _ _ perm

end MultiProgress

/-- The two differ in the order of the notifications only. -/
inductive Exec.Reorders {σ : Type} : Exec σ ApplyResult → Exec σ ApplyResult → Prop
  | same {result : Exec σ ApplyResult} : Reorders result result
  | done {response : Reply} {events events' : List WatchEvent} {next : σ}
      (perm : events.Perm events') :
      Reorders (.done ⟨response, events⟩ next) (.done ⟨response, events'⟩ next)

namespace KeeperServer
variable {recordBytes : LogRecord → ℕ} {s : KeeperServer recordBytes} (env : Env)
  (orders : HashOrders)

theorem log_reordered (op : WalOperation) : s.log (env.reordered orders) op = s.log env op := rfl

theorem handleCreate_reordered (xid : Int32) (req : CreateRequest) (id : SessionId) :
    (s.handleCreate env xid req id).Reorders
      (s.handleCreate (env.reordered orders) xid req id) := by
  have now : (env.reordered orders).now = env.now := rfl
  simp only [handleCreate, log_reordered, now, fire_reordered]
  split_ifs
  · exact .same
  cases splitPath req.path with
  | none => exact .same
  | some split =>
    simp only
    split_ifs
    · exact .same
    · obtain ⟨s₁, _ | ⟨⟩⟩ := s.log env (.create req.path req.data env.now req.flags id)
      · exact .same
      simp only
      cases s₁.storage.create req.path req.data env.now id req.flags with
      | err message | panic message => exact .same
      | ok path st => exact .done (events_reordered _ _ _ _ _)
    · exact .same

theorem handleSet_reordered (xid : Int32) (req : SetDataRequest) :
    (s.handleSet env xid req).Reorders (s.handleSet (env.reordered orders) xid req) := by
  have now : (env.reordered orders).now = env.now := rfl
  simp only [handleSet, log_reordered, now, fire_reordered]
  cases s.storage.traverse req.path with
  | none => exact .same
  | some n =>
    simp only
    split_ifs
    · exact .same
    obtain ⟨s₁, _ | ⟨⟩⟩ := s.log env (.set req.path req.data env.now)
    · exact .same
    simp only
    cases KeeperStorage.traverse _ req.path with
    | none => exact .same
    | some n => exact .done (events_reordered _ _ _ _ _)

theorem handleDelete_reordered (xid : Int32) (req : DeleteRequest) :
    (s.handleDelete env xid req).Reorders (s.handleDelete (env.reordered orders) xid req) := by
  simp only [handleDelete, log_reordered, fire_reordered]
  cases s.storage.traverse req.path with
  | none => exact .same
  | some n =>
    simp only
    split_ifs
    · exact .same
    · exact .same
    obtain ⟨s₁, _ | ⟨⟩⟩ := s.log env (.delete req.path)
    · exact .same
    simp only
    cases s₁.storage.traverse req.path with
    | none => exact .same
    | some n =>
      cases s₁.storage.cleanup [req.path] with
      | error message => exact .same
      | ok st => exact .done (events_reordered _ _ _ _ _)

theorem handleMulti_reordered (xid : Int32) (ops : List MultiOp) (id : SessionId) :
    (s.handleMulti env xid ops id).Reorders
      (s.handleMulti (env.reordered orders) xid ops id) := by
  have now : (env.reordered orders).now = env.now := rfl
  have flush : (env.reordered orders).flush = env.flush := rfl
  have run := MultiProgress.run_reordered env orders id ops s.storage.nextZxid [] [] (.refl [])
  simp only [handleMulti, now, flush]
  generalize MultiProgress.run _ env id ops = result at run ⊢
  generalize MultiProgress.run _ (env.reordered orders) id ops = result' at run ⊢
  cases run with
  | same => exact .same
  | @goes staged responses walOperations events events' perm =>
    simp only
    generalize WalStore.flush env.flush _ = flushed
    obtain ⟨wal, _ | ⟨⟩⟩ := flushed
    · exact .same
    · exact .done perm

/-- The nodes of the session go in any order, as none of them is above another. -/
theorem handleClose_reordered (hl : s.storage.Linked) (hi : s.storage.Indexed) (xid : Int32)
    (id : SessionId) :
    (s.handleClose env xid id).Reorders (s.handleClose (env.reordered orders) xid id) := by
  have ended := hl.endSession_eq hi env.orders id
  have ended' := hl.endSession_eq hi (env.reordered orders).orders id
  have cleared := WatchState.clear_orders (s.storage.ended id).watchState
    (env.reordered orders).orders env.orders id
  simp only [handleClose, ended, ended', cleared]
  exact .same

theorem handle_reordered (hl : s.storage.Linked) (hi : s.storage.Indexed) (xid : Int32)
    (id : SessionId) (req : Request) :
    (s.handle env xid id req).Reorders (s.handle (env.reordered orders) xid id req) := by
  cases req with
  | create req => exact handleCreate_reordered env orders xid req id
  | set req => exact handleSet_reordered env orders xid req
  | remove req => exact handleDelete_reordered env orders xid req
  | close => exact handleClose_reordered env orders hl hi xid id
  | multi ops => exact handleMulti_reordered env orders xid ops id
  | get | «exists» | list | simpleList | heartbeat | rejected => exact .same

end KeeperServer

/-- The two differ in the order of the notifications only. -/
inductive Output.Reorders : Output → Output → Prop
  | same {output : Output} : Reorders output output
  | applied {response : Reply} {events events' : List WatchEvent}
      (perm : events.Perm events') :
      Reorders (.applied ⟨response, events⟩) (.applied ⟨response, events'⟩)

/-- The same step, at the same time and with the same luck, in another process. -/
structure Executed.Reorders (e e' : Executed) : Prop where
  now : e'.env.now = e.env.now
  flush : e'.env.flush = e.env.flush
  event : e'.event = e.event
  output : e.output.Reorders e'.output

namespace KeeperServer
variable {recordBytes : LogRecord → ℕ} {s s' : KeeperServer recordBytes}

theorem Serves.reordered {e : Executed} (serves : s.Serves e s') (hl : s.storage.Linked)
    (hi : s.storage.Indexed) (orders : HashOrders) :
    ∃ e', e.Reorders e' ∧ e'.env.orders = orders ∧ s.Serves e' s' := by
  obtain ⟨env, event, output⟩ := e
  obtain ⟨done, admitted⟩ := serves
  have exec_done : s.exec env event = .done output s' := done
  suffices again : ∃ output', output.Reorders output' ∧
      s.exec (env.reordered orders) event = .done output' s' by
    obtain ⟨output', reorders, done'⟩ := again
    exact ⟨⟨env.reordered orders, event, output'⟩, ⟨rfl, rfl, rfl, reorders⟩, rfl, done', admitted⟩
  cases event with
  | createSession timeoutMs => exact ⟨output, .same, exec_done⟩
  | touch id => exact ⟨output, .same, exec_done⟩
  | closeSession id =>
    have next : s.storage.nextZxid.Indexed := hi.congr (fun _ => rfl) rfl
    have ended := hl.nextZxid.endSession_eq next env.orders id
    have ended' := hl.nextZxid.endSession_eq next (env.reordered orders).orders id
    refine ⟨output, .same, ?_⟩
    rw [← exec_done]
    simp only [exec, closeSession, log_reordered, log_storage, ended, ended']
  | handle xid id req =>
    have reordered := handle_reordered env orders hl hi xid id req
    simp only [exec] at exec_done ⊢
    generalize s.handle env xid id req = result at reordered exec_done
    generalize s.handle (env.reordered orders) xid id req = result' at reordered ⊢
    cases reordered with
    | same => exact ⟨output, .same, exec_done⟩
    | done perm =>
      cases exec_done
      exact ⟨_, .applied perm, rfl⟩

/-- What a server does in a lifetime does not depend on the orders of its hash sets: with other
orders in every step it goes through the same states and sends the same replies, and the same
notifications for each request, but for their order. -/
theorem hash_orders_invisible {log : List Executed}
    (life : Run Serves (initial recordBytes) log s) (orders : ℕ → HashOrders) :
    ∃ log', List.Forall₂ Executed.Reorders log log' ∧
      log'.map (·.env.orders) = (List.range log.length).map orders ∧
      Run Serves (initial recordBytes) log' s := by
  have kept : s.storage.Linked ∧ s.storage.Indexed ∧ ∃ log',
      List.Forall₂ Executed.Reorders log log' ∧
      log'.map (·.env.orders) = (List.range log.length).map orders ∧
      Run Serves (initial recordBytes) log' s := by
    induction life with
    | nil =>
      exact ⟨initial_reachable.linked, KeeperStorage.new_indexed 500, [], .nil, rfl, .nil⟩
    | @snoc log s e s' init last ih =>
      obtain ⟨hl, hi, log', same, chosen, run⟩ := ih
      obtain ⟨e', reorders, order, serves⟩ := last.reordered hl hi (orders log.length)
      refine ⟨last.step.linked hl, last.indexed hl hi, log' ++ [e'], ?_, ?_, run.snoc serves⟩
      · exact List.rel_append same (.cons reorders .nil)
      · simp [chosen, order, List.range_succ]
  exact kept.2.2

/-- Two sessions watch the root. A change of it is told to both, whatever the order. -/
theorem hash_orders_invisible_told : ∃ (log : List Executed) (e : Executed) (r : ApplyResult)
    (s : KeeperServer fun _ => 1), e.output = .applied r ∧
      ⟨1, ⟨.changed, "/"⟩⟩ ∈ r.watchEvents ∧ ⟨2, ⟨.changed, "/"⟩⟩ ∈ r.watchEvents ∧
      ∀ orders : ℕ → HashOrders, ∃ log', List.Forall₂ Executed.Reorders (log ++ [e]) log' ∧
        log'.map (·.env.orders) = (List.range (log ++ [e]).length).map orders ∧
        Run Serves (initial fun _ => 1) log' s := by
  obtain ⟨first, second, n, opens, opens', stored, next⟩ : ∃ first second n,
      (initial fun _ => 1).exec (.working 0) (.createSession 5000) = .done (.session 1) first ∧
      first.exec (.working 0) (.createSession 5000) = .done (.session 2) second ∧
      second.storage.map.get "/" = some n ∧
      second.storage.sessionState.nextSessionId = 3 := ⟨_, _, _, rfl, rfl, rfl, rfl⟩
  let watched := second.watching 1 "/"
  let shared := watched.watching 2 "/"
  obtain ⟨r₁, gets₁, -⟩ := exec_get_watching (.working 0) 1 1 "/" (s := second)
  obtain ⟨r₂, gets₂, -⟩ := exec_get_watching (.working 0) 1 2 "/" (s := watched)
  obtain ⟨r, changed, sets, fired, -⟩ :=
    exec_set_fires (s := shared) (show (Env.working 0).flush = .succeeds from rfl) 2 1 stored []
  have issued₁ : second.storage.sessionState.Issued 1 := ⟨by decide, by rw [next]; decide⟩
  have issued₂ : second.storage.sessionState.Issued 2 := ⟨by decide, by rw [next]; decide⟩
  have open₁ : (initial fun _ => 1).Serves ⟨_, .createSession 5000, .session 1⟩ first :=
    ⟨opens, trivial⟩
  have open₂ : first.Serves ⟨_, .createSession 5000, .session 2⟩ second := ⟨opens', trivial⟩
  have reads₁ : second.Serves ⟨_, .handle 1 1 (.get ⟨"/", true⟩), .applied r₁⟩ watched :=
    ⟨gets₁, issued₁⟩
  have reads₂ : watched.Serves ⟨_, .handle 1 2 (.get ⟨"/", true⟩), .applied r₂⟩ shared :=
    ⟨gets₂, issued₂⟩
  let last : Executed := ⟨.working 0, .handle 2 1 (.set ⟨"/", [], -1⟩), .applied r⟩
  have writes : shared.Serves last changed := ⟨sets, issued₁⟩
  have told (x : SessionId) (watches : shared.storage.watchState.Registered .watch "/" x) :
      ⟨x, ⟨.changed, "/"⟩⟩ ∈ r.watchEvents := by
    have fires : (shared.storage.watchState.fire (Env.working 0).orders "/" .changed).2 =
        (shared.storage.watchState.fireOneshot (Env.working 0).orders "/" .changed "/"
          .watch).2 := rfl
    rw [fired, fires, WatchState.mem_fireOneshot_events]
    exact ⟨watches, rfl⟩
  have both := WatchState.register_self watched.storage.watchState 2 "/" .watch
  have before := WatchState.register_self second.storage.watchState 1 "/" .watch
  obtain ⟨log, life⟩ : ∃ log, Run Serves (initial fun _ => 1) (log ++ [last]) changed :=
    ⟨_, ((((Run.single open₁).snoc open₂).snoc reads₁).snoc reads₂).snoc writes⟩
  refine ⟨log, last, r, changed, rfl,
    told 1 ((WatchState.registered_register_iff ..).mpr (.inr before)), told 2 both,
    fun orders => ?_⟩
  exact hash_orders_invisible life orders

end KeeperServer
end TinyKeeper
