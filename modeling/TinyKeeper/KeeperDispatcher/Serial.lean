import TinyKeeper.KeeperDispatcher.WatchOrder
import TinyKeeper.KeeperServer.Executions

/-! Whatever the connection tasks do, one sequential execution of the server explains all replies:
every session gets the answers to its requests in the order in which it sent them, and each of them
once. -/
namespace TinyKeeper

def Handled.turn (h : Handled) : Turn := ⟨h.session, h.request, h.result.watchEvents⟩

def Frame.reply? : Frame → Option (ℕ × Reply)
  | .reply turn r => some (turn, r)
  | .notification _ => none

namespace Phase

/-- The request that has been received and not yet applied. -/
def unapplied : Phase → List (Int32 × Request)
  | .applying (some request) _ => [request]
  | _ => []

/-- The reply that has yet to be written. -/
def unwritten (p : Phase) : List (ℕ × Reply) :=
  match p.dispatch with
  | some d => d.response.toList.map (d.turn, ·)
  | none => []

end Phase

/-- The request that reaches `x`. -/
def Service.Action.request? (x : SessionId) : Service.Action → Option (Int32 × Request)
  | .receive y payload => if y = x then payload else none
  | _ => none

/-- The clock and the files that a step on the server meets. -/
def Service.Action.env? : Service.Action → Option Env
  | .connect env _ | .expire env _ | .touch _ env | .handle _ env => some env
  | _ => none

/-- What a step of the service executes on the server. -/
def Service.executed {recordBytes : LogRecord → ℕ} (s : Service recordBytes) :
    Service.Action → Option (Env × ServerEvent)
  | .connect env timeoutMs => some (env, .createSession timeoutMs)
  | .expire env id => some (env, .closeSession id)
  | .touch x env => some (env, .touch x)
  | .handle x env => (s.phase x).unapplied.head?.map fun r => (env, .handle r.1 x r.2)
  | _ => none

theorem Service.executed_of_env? {recordBytes : LogRecord → ℕ} {s : Service recordBytes}
    {a : Service.Action} (idle : a.env? = none) : s.executed a = none := by
  cases a with
  | connect | expire | touch | handle => cases idle
  | _ => rfl

variable {handled : List Handled} {h : Handled} {x : SessionId}

/-- The session has sent these requests and seen these frames. -/
structure Fifo (handled : List Handled) (x : SessionId) (received : List (Int32 × Request))
    (p : Phase) (frames : List Frame) : Prop where
  requests : requestsOf handled x ++ p.unapplied = received
  replies : ∃ missing : List (ℕ × Reply), missing.length ≤ 1 ∧ (¬ p.Out → missing = p.unwritten) ∧
    frames.filterMap Frame.reply? ++ missing = answersTo handled x

section Fifo
variable {received : List (Int32 × Request)} {p p' : Phase} {frames : List Frame}

theorem Phase.unwritten_length (p : Phase) : p.unwritten.length ≤ 1 := by
  unfold unwritten
  cases p.dispatch with
  | none => exact Nat.zero_le 1
  | some d => cases h : d.response <;> simp [h]

/-- The task moves on with the same request and the same reply in its hands. -/
theorem Fifo.moves (fifo : Fifo handled x received p frames) (run : ¬ p.Out)
    (unapplied : p'.unapplied = p.unapplied) (unwritten : p'.unwritten = p.unwritten) :
    Fifo handled x received p' frames := by
  obtain ⟨missing, -, waits, same⟩ := fifo.replies
  refine ⟨by rw [unapplied, fifo.requests], p.unwritten, p.unwritten_length,
    fun _ => unwritten.symm, ?_⟩
  rw [← waits run, same]

/-- The loop ends; a reply that it had in its hands is lost. -/
theorem Fifo.ends (fifo : Fifo handled x received p frames)
    (unapplied : p.unapplied = []) (out : p'.Out) : Fifo handled x received p' frames := by
  obtain ⟨missing, one, -, same⟩ := fifo.replies
  have nothing : p'.unapplied = [] := by
    obtain rfl | rfl := out <;> rfl
  exact ⟨by rw [nothing, ← unapplied, fifo.requests], missing, one,
    fun run => absurd out run, same⟩

theorem Fifo.receives (fifo : Fifo handled x received .selecting frames)
    (payload : Payload) :
    Fifo handled x (received ++ payload.toList) (.applying payload false) frames := by
  obtain ⟨missing, -, waits, same⟩ := fifo.replies
  have none : missing = [] := waits (by simp [Phase.Out])
  refine ⟨?_, [], Nat.zero_le 1, fun _ => rfl, by rw [← none, same]⟩
  have before : requestsOf handled x ++ [] = received := fifo.requests
  rw [← before, List.append_nil]
  cases payload <;> rfl

/-- Its request is applied. -/
theorem Fifo.applies (fifo : Fifo handled h.session received
    (.applying (some (h.xid, h.request)) true) frames) {closes : Bool}
    {events : List WatchEvent} :
    Fifo (handled ++ [h]) h.session received
      (.applied ⟨handled.length, closes, some h.result.response, events⟩) frames := by
  obtain ⟨missing, -, waits, same⟩ := fifo.replies
  have none : missing = [] := waits (by simp [Phase.Out])
  refine ⟨?_, [(handled.length, h.result.response)], Nat.le_refl 1, fun _ => rfl, ?_⟩
  · rw [requestsOf_snoc, if_pos rfl]
    exact (List.append_nil _).trans fifo.requests
  · rw [answersTo_snoc, if_pos rfl, ← same, none, List.append_nil]

theorem Fifo.other (fifo : Fifo handled x received p frames) (other : h.session ≠ x) :
    Fifo (handled ++ [h]) x received p frames := by
  refine ⟨?_, ?_⟩
  · rw [requestsOf_snoc, if_neg other, List.append_nil]
    exact fifo.requests
  · rw [answersTo_snoc, if_neg other, List.append_nil]
    exact fifo.replies

/-- The reply is written. -/
theorem Fifo.replied {d : Dispatch} {r : Reply} (response : d.response = some r)
    (fifo : Fifo handled x received (.replying d) frames)
    (unapplied : p'.unapplied = []) (unwritten : p'.unwritten = []) :
    Fifo handled x received p' (frames ++ [.reply d.turn r]) := by
  obtain ⟨missing, -, waits, same⟩ := fifo.replies
  have reply : missing = [(d.turn, r)] := by
    rw [waits (by simp [Phase.Out])]
    simp [Phase.unwritten, Phase.dispatch, response]
  refine ⟨?_, [], Nat.zero_le 1, fun _ => unwritten.symm, ?_⟩
  · rw [unapplied]
    exact fifo.requests
  · have last : [Frame.reply d.turn r].filterMap Frame.reply? = [(d.turn, r)] := by
      simp [Frame.reply?]
    rw [List.append_nil, List.filterMap_append, ← same, reply, last]

theorem Fifo.notified (fifo : Fifo handled x received p frames) (notice : Notice) :
    Fifo handled x received p (frames ++ [.notification notice]) := by
  refine ⟨fifo.requests, ?_⟩
  have same : (frames ++ [Frame.notification notice]).filterMap Frame.reply? =
      frames.filterMap Frame.reply? := by
    simp [Frame.reply?]
  rw [same]
  exact fifo.replies

end Fifo

namespace Service
variable {recordBytes : LogRecord → ℕ}

/-- A sequential execution of the server that explains the service: one step for each that called
the server, on the files that this met, the same turns in the same order, every session with its
requests in the order in which they were received, at most the last of them not applied, and with
the answers to them in that order, at most the last of them not written. -/
structure Explains (s₀ : KeeperServer recordBytes) (as : List Action) (s : Service recordBytes)
    (log : List Executed) : Prop where
  run : Run KeeperServer.Serves s₀ log s.server
  envs : log.map Executed.env = as.filterMap Action.env?
  history : s.history = (log.filterMap Executed.handled).map Handled.turn
  fifo : ∀ x, Fifo (log.filterMap Executed.handled) x (as.filterMap (Action.request? x))
    (s.phase x) (s.socket x)

variable {s₀ : KeeperServer recordBytes} {s s' : Service recordBytes} {as : List Action}
variable {log : List Executed} {a : Action} {p : Phase}

/-- The execution goes on with what the step executes, if anything, and explains the next state. -/
def Explains.Goes (s₀ : KeeperServer recordBytes) (as : List Action) (s : Service recordBytes)
    (log : List Executed) (a : Action) (s' : Service recordBytes) : Prop :=
  ∃ log', log'.map (fun e => (e.env, e.event)) = (s.executed a).toList ∧
    Explains s₀ (as ++ [a]) s' (log ++ log')

/-- A step of the task `x` that applies no request. -/
theorem Explains.moves (explains : Explains s₀ as s log) (log' : List Executed)
    (executes : log'.map (fun e => (e.env, e.event)) = (s.executed a).toList)
    (envs : log'.map Executed.env = a.env?.toList)
    (run : Run KeeperServer.Serves s.server log' s'.server)
    (silent : log'.filterMap Executed.handled = []) (history : s'.history = s.history)
    (phase : s'.phase = Function.update s.phase x p) (quiet : ∀ y, y ≠ x → a.request? y = none)
    (socket : ∀ y, y ≠ x → s'.socket y = s.socket y)
    (fifo : Fifo (log.filterMap Executed.handled) x
      (as.filterMap (Action.request? x) ++ (a.request? x).toList) p (s'.socket x)) :
    Goes s₀ as s log a s' := by
  have received (y : SessionId) : (as ++ [a]).filterMap (Action.request? y) =
      as.filterMap (Action.request? y) ++ (a.request? y).toList := by
    rw [List.filterMap_append]
    cases request : a.request? y <;> simp [request]
  have same : (log ++ log').filterMap Executed.handled = log.filterMap Executed.handled := by
    rw [List.filterMap_append, silent, List.append_nil]
  refine ⟨log', executes, explains.run.trans run, ?_, ?_, fun y => ?_⟩
  · rw [List.map_append, List.filterMap_append, explains.envs, envs]
    cases met : a.env? <;> simp [met]
  · rw [same, history, explains.history]
  · rw [same, received, phase]
    by_cases here : y = x
    · subst here
      rw [Function.update_self]
      exact fifo
    · rw [quiet y here, socket y here, Function.update_of_ne here]
      exact (List.append_nil _).symm ▸ explains.fifo y

/-- A step of the task `x` that is not a step of the server, and receives and writes nothing. -/
theorem Explains.quiet (explains : Explains s₀ as s log) (idle : a.env? = none)
    (server : s'.server = s.server) (history : s'.history = s.history)
    (phase : s'.phase = Function.update s.phase x p) (request : ∀ y, a.request? y = none)
    (socket : s'.socket = s.socket)
    (moves : ∀ received frames,
      Fifo (log.filterMap Executed.handled) x received (s.phase x) frames →
        Fifo (log.filterMap Executed.handled) x received p frames) :
    Goes s₀ as s log a s' := by
  have executes : ([] : List Executed).map (fun e => (e.env, e.event)) = (s.executed a).toList := by
    rw [executed_of_env? idle]
    rfl
  refine explains.moves [] executes (by rw [idle]; rfl) (server ▸ Run.nil) rfl history phase
    (fun y _ => request y) (fun y _ => congrFun socket y) ?_
  rw [request, socket]
  exact (List.append_nil _).symm ▸ moves _ _ (explains.fifo x)

/-- Such a step keeps what the task has in its hands. -/
theorem Explains.goesOn (explains : Explains s₀ as s log) {old : Phase} (at_old : s.phase x = old)
    (run : ¬ old.Out) (idle : a.env? = none) (server : s'.server = s.server)
    (history : s'.history = s.history) (phase : s'.phase = Function.update s.phase x p)
    (request : ∀ y, a.request? y = none) (socket : s'.socket = s.socket)
    (unapplied : p.unapplied = old.unapplied) (unwritten : p.unwritten = old.unwritten) :
    Goes s₀ as s log a s' := by
  subst at_old
  exact explains.quiet idle server history phase request socket fun _ _ fifo =>
    fifo.moves run unapplied unwritten

/-- The loop of a task ends. -/
theorem Explains.leaves (explains : Explains s₀ as s log) {old : Phase} (at_old : s.phase x = old)
    (idle : a.env? = none) (server : s'.server = s.server) (history : s'.history = s.history)
    (phase : s'.phase = Function.update s.phase x p) (request : ∀ y, a.request? y = none)
    (socket : s'.socket = s.socket) (unapplied : old.unapplied = []) (out : p.Out) :
    Goes s₀ as s log a s' := by
  subst at_old
  exact explains.quiet idle server history phase request socket fun _ _ fifo =>
    fifo.ends unapplied out

/-- A request is applied. -/
theorem Explains.apply (explains : Explains s₀ as s log) {env : Env} {xid : Int32} {req : Request}
    (issued : s.server.storage.sessionState.Issued x)
    {result : ApplyResult} {server : KeeperServer recordBytes}
    (applying : s.phase x = .applying (some (xid, req)) true)
    (done : s.server.exec env (.handle xid x req) = .done (.applied result) server) :
    Explains s₀ (as ++ [Action.handle x env]) (s.apply x req result server)
      (log ++ [⟨env, .handle xid x req, .applied result⟩]) := by
  have numbered : s.history.length = (log.filterMap Executed.handled).length := by
    rw [explains.history, List.length_map]
  let last : Executed := ⟨env, .handle xid x req, .applied result⟩
  have handled : (log ++ [last]).filterMap Executed.handled =
      log.filterMap Executed.handled ++ [⟨x, xid, req, result⟩] := by
    rw [List.filterMap_append]
    rfl
  have received (y : SessionId) : (as ++ [Action.handle x env]).filterMap (Action.request? y) =
      as.filterMap (Action.request? y) := by
    rw [List.filterMap_append]
    exact List.append_nil _
  refine ⟨explains.run.snoc ⟨done, issued⟩, ?_, ?_, fun y => ?_⟩
  · rw [List.map_append, List.filterMap_append, explains.envs]
    rfl
  · rw [handled, List.map_append, ← explains.history]
    rfl
  · rw [handled, received]
    have before := explains.fifo y
    by_cases here : y = x
    · subst here
      rw [applying] at before
      simp only [Service.apply, setPhase, Function.update_self, numbered]
      exact Fifo.applies (h := ⟨y, xid, req, result⟩) before
    · have phase : (s.apply x req result server).phase y = s.phase y :=
        Function.update_of_ne here _ _
      rw [phase]
      exact before.other (h := ⟨x, xid, req, result⟩) (Ne.symm here)

theorem proceed_eq (s : Service recordBytes) (x : SessionId) (closes : Bool) :
    (s.proceed x closes).server = s.server ∧ (s.proceed x closes).history = s.history ∧
      (s.proceed x closes).socket = s.socket ∧
      (s.proceed x closes).phase =
        Function.update s.phase x (if closes then .leaving else .selecting) := by
  cases closes <;> exact ⟨rfl, rfl, rfl, rfl⟩

/-- Only positive session ids have tasks. -/
structure Numbered (s : Service recordBytes) : Prop where
  next : 0 < s.nextSessionId
  positive : ∀ x ∈ s.tasks, 0 < x

theorem Numbered.served (h : s.Numbered) (sound : s.Sound) {env : Env} {e : ServerEvent}
    {out : Output} {server : KeeperServer recordBytes}
    (done : s.server.exec env e = .done out server) :
    0 < server.storage.sessionState.nextSessionId :=
  h.next.trans_le (sound.served done).2.1

theorem Numbered.proceed (h : s.Numbered) (x : SessionId) (closes : Bool) :
    (s.proceed x closes).Numbered := by
  cases closes <;> exact ⟨h.next, h.positive⟩

theorem Numbered.step (h : s.Numbered) (sound : s.Sound) (step : s.Step a s') : s'.Numbered := by
  have write (x : SessionId) (frame : Frame) : (s.write x frame).Numbered := ⟨h.next, h.positive⟩
  cases step with
  | @connect env timeoutMs id server done =>
    refine ⟨h.served sound done, fun x mem => ?_⟩
    obtain rfl | mem := Finset.mem_insert.mp mem
    · obtain ⟨rfl, -⟩ := KeeperServer.exec_session done
      exact h.next
    · exact h.positive x mem
  | expire done | touch applying done | handle applying done =>
    exact ⟨h.served sound done, h.positive⟩
  | reply replying response => exact (write _ _).proceed _ _
  | replyEmpty replying response => exact h.proceed _ _
  | _ => exact ⟨h.next, h.positive⟩

theorem Started.numbered (h : s.Started) : s.Numbered := by
  obtain ⟨dir, orders, server, started, rfl⟩ := h
  exact ⟨KeeperServer.nextSessionId_pos_of_start started, fun x mem => by cases mem⟩

/-- The execution by itself. -/
theorem Explains.executes (explains : Explains s₀ as s log) :
    Run KeeperServer.Executes s₀ log s.server := explains.run.mono fun _ _ _ h => h.1

/-- Every step is explained by what the sequential execution did so far, and at most one step of it
more. -/
theorem Explains.step (explains : Explains s₀ as s log) (sound : s.Sound) (numbered : s.Numbered)
    (step : s.Step a s') : Goes s₀ as s log a s' := by
  cases step with
  | @connect env timeoutMs id server done =>
    have fresh := sound.fresh done
    refine explains.moves (x := id) [⟨env, .createSession timeoutMs, .session id⟩]
      rfl rfl (.single ⟨done, trivial⟩) rfl rfl rfl (fun _ _ => rfl) (fun _ _ => rfl) ?_
    have before := explains.fifo id
    rw [fresh] at before
    exact (List.append_nil _).symm ▸ before.moves (by simp [Phase.Out]) rfl rfl
  | @expire env id server done =>
    refine explains.moves (x := id) [⟨env, .closeSession id, .closed⟩] rfl rfl
      (.single ⟨done, trivial⟩) rfl rfl (Function.update_eq_self _ _).symm (fun _ _ => rfl)
      (fun _ _ => rfl) ?_
    exact (List.append_nil _).symm ▸ explains.fifo id
  | enter connecting next alone =>
    exact explains.goesOn connecting (by simp [Phase.Out]) rfl rfl rfl rfl (fun _ => rfl) rfl rfl
      rfl
  | enterLost connecting next alone =>
    exact explains.leaves connecting rfl rfl rfl rfl (fun _ => rfl) rfl rfl (.inr rfl)
  | @receive x payload selecting =>
    have before := explains.fifo x
    rw [selecting] at before
    refine explains.moves (x := x) [] rfl rfl .nil rfl rfl rfl (fun y other => ?_)
      (fun _ _ => rfl) ?_
    · simp [Action.request?, Ne.symm other]
    · have mine : Action.request? x (.receive x payload) = payload := by simp [Action.request?]
      rw [mine]
      exact before.receives payload
  | crash selecting =>
    exact explains.leaves selecting rfl rfl rfl rfl (fun _ => rfl) rfl rfl (.inr rfl)
  | @touch x env payload server applying done =>
    refine explains.moves (x := x) [⟨env, .touch x, .touched⟩] rfl rfl
      (.single ⟨done, trivial⟩) rfl rfl rfl (fun _ _ => rfl) (fun _ _ => rfl) ?_
    have before := explains.fifo x
    rw [applying] at before
    refine (List.append_nil _).symm ▸ before.moves (by simp [Phase.Out]) ?_ rfl
    cases payload <;> rfl
  | @handle x env xid req result server applying done =>
    have live : s.phase x ≠ .absent := by simp [applying]
    have issued : s.server.storage.sessionState.Issued x :=
      ⟨numbered.positive x (sound.spawned x live), sound.issued x live⟩
    exact ⟨_, by simp [executed, applying, Phase.unapplied], explains.apply issued applying done⟩
  | panic applying =>
    exact explains.goesOn applying (by simp [Phase.Out]) rfl rfl rfl rfl (fun _ => rfl) rfl rfl
      rfl
  | ask applied =>
    exact explains.goesOn applied (by simp [Phase.Out]) rfl rfl rfl rfl (fun _ => rfl) rfl rfl
      rfl
  | acquire waiting next =>
    exact explains.goesOn waiting (by simp [Phase.Out]) rfl rfl rfl rfl (fun _ => rfl) rfl rfl
      rfl
  | send sending next reaches room =>
    exact explains.goesOn sending (by simp [Phase.Out]) rfl rfl rfl rfl (fun _ => rfl) rfl rfl
      rfl
  | discard sending next lost =>
    exact explains.goesOn sending (by simp [Phase.Out]) rfl rfl rfl rfl (fun _ => rfl) rfl rfl
      rfl
  | finish sending sent =>
    exact explains.goesOn sending (by simp [Phase.Out]) rfl rfl rfl rfl (fun _ => rfl) rfl rfl
      rfl
  | @reply x d r replying response =>
    obtain ⟨server, history, socket, phase⟩ :=
      (s.write x (.reply d.turn r)).proceed_eq x d.closes
    have before := explains.fifo x
    rw [replying] at before
    refine explains.moves (x := x) [] rfl rfl (server ▸ Run.nil) rfl history phase (fun _ _ => rfl)
      (fun y other => ?_) ?_
    · rw [socket, socket_write, Function.update_of_ne other]
    · rw [socket, socket_write, Function.update_self]
      refine (List.append_nil _).symm ▸ before.replied response ?_ ?_ <;> cases d.closes <;> rfl
  | @replyEmpty x d replying response =>
    obtain ⟨server, history, socket, phase⟩ := s.proceed_eq x d.closes
    refine explains.quiet rfl server history phase (fun _ => rfl) socket
      fun received frames fifo => ?_
    rw [replying] at fifo
    refine fifo.moves (by simp [Phase.Out]) ?_ ?_
    · cases d.closes <;> rfl
    · have nothing : (Phase.replying d).unwritten = [] := by
        simp [Phase.unwritten, Phase.dispatch, response]
      rw [nothing]
      cases d.closes <;> rfl
  | replyLost replying response =>
    exact explains.leaves replying rfl rfl rfl rfl (fun _ => rfl) rfl rfl (.inl rfl)
  | @notify x n rest selecting next =>
    refine explains.moves (x := x) [] rfl rfl .nil rfl rfl (Function.update_eq_self _ _).symm
      (fun _ _ => rfl) (fun y other => ?_) ?_
    · exact Function.update_of_ne other _ _
    · have socket : ((s.write x (.notification n)).setChannel x rest).socket x =
          s.socket x ++ [.notification n] := Function.update_self _ _ _
      rw [socket]
      exact (List.append_nil _).symm ▸ (explains.fifo x).notified n
  | notifyLost selecting next =>
    exact explains.leaves selecting rfl rfl rfl rfl (fun _ => rfl) rfl rfl (.inl rfl)
  | leave selecting =>
    exact explains.leaves selecting rfl rfl rfl rfl (fun _ => rfl) rfl rfl (.inl rfl)
  | exit leaving next alone =>
    exact explains.leaves leaving rfl rfl rfl rfl (fun _ => rfl) rfl rfl (.inr rfl)

theorem Explains.later (explains : Explains s₀ as s log) (sound : s.Sound)
    (numbered : s.Numbered) {as' : List Action} (run : Run Step s as' s') :
    ∃ log', Explains s₀ (as ++ as') s' (log ++ log') := by
  induction run with
  | nil => exact ⟨[], by rwa [List.append_nil, List.append_nil]⟩
  | @snoc as' t a u init last ih =>
    obtain ⟨log', before⟩ := ih
    obtain ⟨sound, numbered⟩ := init.invariant (fun s => s.Sound ∧ s.Numbered) ⟨sound, numbered⟩
      fun _ _ _ h step => ⟨h.1.step step, h.2.step h.1 step⟩
    obtain ⟨log'', -, after⟩ := before.step sound numbered last
    refine ⟨log' ++ log'', ?_⟩
    rwa [List.append_assoc, List.append_assoc] at after

theorem Started.explains {s : Service recordBytes} (started : s.Started) :
    Explains s.server [] s [] := by
  obtain ⟨dir, orders, server, -, rfl⟩ := started
  exact ⟨.nil, rfl, rfl, fun x => ⟨rfl, [], Nat.zero_le 1, fun _ => rfl, rfl⟩⟩

theorem Started.explained {s₁ : Service recordBytes} (started : s₁.Started)
    (run : Run Step s₁ as s) : ∃ log, Explains s₁.server as s log := by
  obtain ⟨log, explains⟩ := started.explains.later started.sound started.numbered run
  rw [List.nil_append, List.nil_append] at explains
  exact ⟨log, explains⟩

/-- A client connects, and then it makes a node and sets it. -/
theorem initial_writes : ∃ (as as' : List Action) (s s' : Service fun _ => 1),
    Run Step (initial fun _ => 1) as s ∧ Run Step s as' s' ∧ s'.phase 1 = .selecting ∧
    s'.socket 1 = [.reply 0 ⟨7, 2, .ok, .create "/a"⟩,
      .reply 1 ⟨8, 3, .ok, .stat { czxid := 2, mzxid := 3, version := 1, pzxid := 2 } 1 0⟩] ∧
    s'.history = [⟨1, .create ⟨"/a", [], 0⟩, []⟩, ⟨1, .set ⟨"/a", [7], 0⟩, []⟩] := by
  obtain ⟨server, opens, touched, touch, served, creates, touched', touch', served', sets⟩ :
      ∃ server, (KeeperServer.initial fun _ => 1).exec (.working 0) (.createSession 1000) =
        .done (.session 1) server ∧
      ∃ touched, server.exec (.working 0) (.touch 1) = .done .touched touched ∧
      ∃ served, touched.exec (.working 0) (.handle 7 1 (.create ⟨"/a", [], 0⟩)) =
        .done (.applied ⟨⟨7, 2, .ok, .create "/a"⟩, []⟩) served ∧
      ∃ touched', served.exec (.working 0) (.touch 1) = .done .touched touched' ∧
      ∃ served', touched'.exec (.working 0) (.handle 8 1 (.set ⟨"/a", [7], 0⟩)) =
        .done (.applied ⟨⟨8, 3, .ok,
          .stat { czxid := 2, mzxid := 3, version := 1, pzxid := 2 } 1 0⟩, []⟩) served' :=
    ⟨_, rfl, _, rfl, _, rfl, _, rfl, _, rfl⟩
  obtain ⟨as, as', s, s', connects, writes, phase, socket, -, history⟩ := initial_turns opens touch
    creates touch' sets (by simp) (by simp) rfl (by simp) (by simp)
  exact ⟨as, as', s, s', connects, writes, by simp [phase], socket, history⟩

/-- Whatever the tasks of the connections do, a sequential execution of the server explains all that
was received, applied and answered; and it only grows, so that what was answered before a request
was received also comes before it there. -/
theorem replies_serial {s₁ : Service recordBytes} (started : s₁.Started) {as as' : List Action}
    (run : Run Step s₁ as s) (later : Run Step s as' s') :
    ∃ log log', Explains s₁.server as s log ∧
      Explains s₁.server (as ++ as') s' (log ++ log') := by
  obtain ⟨log, before⟩ := started.explained run
  obtain ⟨sound, numbered⟩ := run.invariant (fun s => s.Sound ∧ s.Numbered)
    ⟨started.sound, started.numbered⟩ fun _ _ _ h step => ⟨h.1.step step, h.2.step h.1 step⟩
  obtain ⟨log', after⟩ := before.later sound numbered later
  exact ⟨log, log', before, after⟩

/-- The two requests of a client that has connected. -/
theorem replies_serial_written :
    ∃ (as as' : List Action) (s : Service fun _ => 1) (log log' : List Executed),
      s.history = [⟨1, .create ⟨"/a", [], 0⟩, []⟩, ⟨1, .set ⟨"/a", [7], 0⟩, []⟩] ∧
      Explains (KeeperServer.initial fun _ => 1) (as ++ as') s (log ++ log') := by
  obtain ⟨as, as', s, s', connects, writes, -, -, history⟩ := initial_writes
  obtain ⟨log, log', -, explains⟩ := replies_serial initial_started connects writes
  exact ⟨as, as', s', log, log', history, explains⟩

end Service
end TinyKeeper
