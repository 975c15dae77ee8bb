import TinyKeeper.KeeperServer.Atomic
import TinyKeeper.KeeperServer.SessionIds
import TinyKeeper.KeeperServer.Wire

/-! Executions of the server with what every step puts out: the requests that are handled, and the
replies to them. -/
namespace TinyKeeper

/-- A step of the server with what it put out. -/
structure Executed where
  env : Env
  event : ServerEvent
  output : Output

def KeeperServer.Executes {recordBytes : LogRecord → ℕ} (s : KeeperServer recordBytes)
    (e : Executed) (s' : KeeperServer recordBytes) : Prop :=
  s.exec e.env e.event = .done e.output s'

/-- Such a step in a lifetime: requests come from sessions that were issued. -/
def KeeperServer.Serves {recordBytes : LogRecord → ℕ} (s : KeeperServer recordBytes)
    (e : Executed) (s' : KeeperServer recordBytes) : Prop :=
  s.Executes e s' ∧ e.event.Admitted s.storage.sessionState

/-- A request and its result. -/
structure Handled where
  session : SessionId
  xid : Int32
  request : Request
  result : ApplyResult

def Executed.handled : Executed → Option Handled
  | ⟨_, .handle xid id req, .applied result⟩ => some ⟨id, xid, req, result⟩
  | _ => none

/-- The requests of a session, in their order. -/
def requestsOf (handled : List Handled) (x : SessionId) : List (Int32 × Request) :=
  (handled.filter (·.session = x)).map fun h => (h.xid, h.request)

/-- The replies to a session, with the numbers of their turns. -/
def answersTo (handled : List Handled) (x : SessionId) : List (ℕ × Reply) :=
  (handled.zipIdx.filter (·.1.session = x)).map fun h => (h.2, h.1.result.response)

variable {handled : List Handled} {h : Handled} {x : SessionId}

theorem requestsOf_snoc : requestsOf (handled ++ [h]) x =
    requestsOf handled x ++ if h.session = x then [(h.xid, h.request)] else [] := by
  by_cases same : h.session = x <;> simp [requestsOf, same]

theorem answersTo_snoc : answersTo (handled ++ [h]) x = answersTo handled x ++
    if h.session = x then [(handled.length, h.result.response)] else [] := by
  by_cases same : h.session = x <;> simp [answersTo, List.zipIdx_append, same]

namespace KeeperServer
variable {recordBytes : LogRecord → ℕ} {s s' : KeeperServer recordBytes}

theorem Serves.step {e : Executed} (serves : s.Serves e s') : s.Step (e.env, e.event) s' :=
  ⟨e.output, serves.1⟩

theorem Serves.indexed {e : Executed} (serves : s.Serves e s') (hl : s.storage.Linked)
    (hi : s.storage.Indexed) : s'.storage.Indexed :=
  LifeStep.indexed ⟨serves.2, serves.step⟩ hl hi

theorem executes_next {e : Executed} (done : ∃ s', s.exec e.env e.event = .done e.output s') :
    s.Executes e (s.next (e.env, e.event)) := by
  obtain ⟨s', done⟩ := done
  have next : s' = s.next (e.env, e.event) := Step.eq_next ⟨e.output, done⟩
  rw [← next]
  exact done

/-- The reply carries the zxid of the tree that the request leaves behind. -/
def Stamped : Exec (KeeperServer recordBytes) ApplyResult → Prop
  | .done r s' => r.response.zxid = s'.storage.lastZxid
  | _ => True

theorem Answers.stamped {env : Env} {id : SessionId} {xid : Int32} {req : Request}
    {op : WalOperation} {result : Exec (KeeperServer recordBytes) ApplyResult}
    (h : s.Answers env xid id req op result) : Stamped result := by
  cases h with
  | refused fails => exact rfl
  | logged ends =>
    rw [finish]
    obtain ⟨s₁, error, hlog, -⟩ | ⟨s₁, hlog, -⟩ := s.log_cases env op
    · rw [hlog]
      exact rfl
    · rw [hlog]
      exact rfl

theorem handleRead_stamped (xid : Int32) (id : SessionId) (req : ReadRequest) (t : WatchType)
    (body : Node → ReplyBody) : Stamped (s.handleRead xid req id t body) := by
  obtain ⟨code, answer, done, -⟩ := s.handleRead_done xid id req t body
  rw [done]
  exact rfl

theorem handle_stamped (linked : s.storage.Linked) (env : Env) (xid : Int32) (id : SessionId)
    (req : Request) : Stamped (s.handle env xid id req) := by
  cases req with
  | create req => exact (handle_answers s env linked rfl).stamped
  | set req => exact (handle_answers s env linked rfl).stamped
  | remove req => exact (handle_answers s env linked rfl).stamped
  | get req => exact handleRead_stamped xid id req _ _
  | «exists» req => exact handleRead_stamped xid id req _ _
  | list req => exact handleRead_stamped xid id req _ _
  | simpleList req => exact handleRead_stamped xid id req _ _
  | heartbeat => exact rfl
  | close =>
    obtain ⟨st, ended, -⟩ := linked.endSession env.orders id
    rw [handle, handleClose, ended]
    exact rfl
  | multi ops =>
    have ends : s.MultiEnds env xid id ops (s.handle env xid id (.multi ops)) :=
      handleMulti_ends linked xid ops id
    generalize s.handle env xid id (.multi ops) = result at ends
    cases ends with
    | completes path hlog => exact path.stamped.2.symm
    | aborts path hlog => exact trivial
    | fails path fails => exact rfl
  | rejected => exact rfl

/-- Whatever log it starts on, a server issues positive session ids. -/
theorem nextSessionId_pos_of_start {dir : Segments LogRecord} {orders : ℕ → HashOrders}
    (h : new recordBytes dir orders = .ok s) : 0 < s.storage.sessionState.nextSessionId :=
  (new_replays h).invariant (fun st => 0 < st.sessionState.nextSessionId) (by decide)
    fun _ _ _ positive last =>
      positive.trans_le (KeeperStorage.Replays.sessionMove last).nextId.1

/-- The requests of an execution are answered in the order of their zxids, each with a body of its
kind. -/
structure Consistent (s : KeeperServer recordBytes) (handled : List Handled) : Prop where
  reachable : Reachable s
  ordered : (handled.map (·.result.response.zxid)).Pairwise (· ≤ ·)
  bounded : ∀ h ∈ handled, h.result.response.zxid ≤ s.storage.lastZxid
  shaped : ∀ h ∈ handled, ∀ opcode, h.request.Of opcode → h.result.response.Answers opcode

theorem Consistent.moves {handled : List Handled} (h : Consistent s handled) {env : Env}
    {event : ServerEvent} {output : Output} (done : s.exec env event = .done output s') :
    Consistent s' handled := by
  have step : s.Step (env, event) s' := ⟨output, done⟩
  obtain ⟨out, op, -, move, -⟩ := step.transition h.reachable.linked
  exact ⟨h.reachable.stepped step, h.ordered,
    fun r mem => (h.bounded r mem).trans move.lastZxid_le, h.shaped⟩

theorem Consistent.executes {handled : List Handled} (h : Consistent s handled) {e : Executed}
    (executes : s.Executes e s') : Consistent s' (handled ++ e.handled.toList) := by
  obtain ⟨env, event, output⟩ := e
  have moved := h.moves executes
  cases event with
  | createSession _ | closeSession _ | touch _ => exact (List.append_nil _).symm ▸ moved
  | handle xid id req =>
    obtain ⟨r, rfl, done⟩ := exec_handle executes
    have stamped := handle_stamped h.reachable.linked env xid id req
    rw [done] at stamped
    have zxid : r.response.zxid = s'.storage.lastZxid := stamped
    have last (h' : Handled) (mem : h' ∈ handled ++ [⟨id, xid, req, r⟩]) :
        h' ∈ handled ∨ h' = ⟨id, xid, req, r⟩ := by
      simpa using mem
    refine ⟨moved.reachable, ?_, fun h' mem => ?_, fun h' mem opcode of => ?_⟩
    · rw [List.map_append, List.pairwise_append]
      refine ⟨h.ordered, List.pairwise_singleton _ _, ?_⟩
      intro z mem z' mem'
      obtain ⟨h', there, rfl⟩ := List.mem_map.mp mem
      obtain rfl := List.mem_singleton.mp mem'
      exact (moved.bounded h' there).trans_eq zxid.symm
    · obtain there | rfl := last h' mem
      · exact moved.bounded h' there
      · exact zxid.le
    · obtain there | rfl := last h' mem
      · exact h.shaped h' there opcode of
      · have shaped := handle_shaped env id h.reachable.linked xid of
        rw [done] at shaped
        exact shaped

theorem consistent_of_run {s₀ : KeeperServer recordBytes} {log : List Executed}
    (reachable : Reachable s₀) (run : Run Executes s₀ log s) :
    Consistent s (log.filterMap Executed.handled) := by
  induction run with
  | nil => exact ⟨reachable, .nil, by simp, by simp⟩
  | @snoc log t e u init last ih =>
    have next := ih.executes last
    have split : (log ++ [e]).filterMap Executed.handled =
        log.filterMap Executed.handled ++ e.handled.toList := by
      rw [List.filterMap_append]
      cases handled : e.handled <;> simp [handled]
    rwa [split]

end KeeperServer

section Answers
variable {handled : List Handled} {x : SessionId}

theorem answersTo_replies (handled : List Handled) (x : SessionId) :
    (answersTo handled x).map Prod.snd =
      (handled.filter (·.session = x)).map (·.result.response) := by
  induction handled using List.reverseRecOn with
  | nil => rfl
  | append_singleton handled h ih =>
    rw [answersTo_snoc, List.map_append, ih]
    by_cases same : h.session = x <;> simp [same]

/-- The answers to a session stand at the places of its turns. -/
theorem mem_answersTo {j : ℕ} {r : Reply} (mem : (j, r) ∈ answersTo handled x) :
    ∃ h, handled[j]? = some h ∧ h.session = x ∧ h.result.response = r := by
  obtain ⟨⟨h, k⟩, found, same⟩ := List.mem_map.mp mem
  obtain ⟨there, session⟩ := List.mem_filter.mp found
  obtain ⟨rfl, rfl⟩ := Prod.mk.inj same
  exact ⟨h, (List.mem_zipIdx_iff_getElem?.mp there), by simpa using session, rfl⟩

theorem answersTo_ordered (handled : List Handled) (x : SessionId) :
    ((answersTo handled x).map Prod.fst).Pairwise (· < ·) := by
  induction handled using List.reverseRecOn with
  | nil => exact .nil
  | append_singleton handled h ih =>
    rw [answersTo_snoc, List.map_append, List.pairwise_append]
    refine ⟨ih, ?_, ?_⟩
    · split_ifs
      · exact List.pairwise_singleton _ _
      · exact .nil
    · intro j before k last
      obtain ⟨⟨j, r⟩, mem, rfl⟩ := List.mem_map.mp before
      obtain ⟨h', found, -⟩ := mem_answersTo mem
      have less := (List.getElem?_eq_some_iff.mp found).1
      split_ifs at last with same
      · obtain rfl := List.mem_singleton.mp last
        exact less
      · cases last

/-- Each session's requests are answered one by one. -/
theorem KeeperServer.Consistent.answers {recordBytes : LogRecord → ℕ} {s : KeeperServer recordBytes}
    (consistent : s.Consistent handled) {opcodes : List OpCode}
    (sends : List.Forall₂ (fun opcode (request : Int32 × Request) => request.2.Of opcode) opcodes
      (requestsOf handled x)) :
    List.Forall₂ (fun opcode (r : Reply) => r.Answers opcode) opcodes
      ((answersTo handled x).map Prod.snd) := by
  rw [requestsOf, List.forall₂_map_right_iff] at sends
  rw [answersTo_replies, List.forall₂_map_right_iff]
  have both := (List.forall₂_and_left _ _).mpr
    ⟨fun h (mem : h ∈ handled.filter (·.session = x)) => List.mem_of_mem_filter mem, sends.flip⟩
  exact (both.imp fun h opcode applied =>
    consistent.shaped h applied.1 opcode applied.2).flip

end Answers
end TinyKeeper
