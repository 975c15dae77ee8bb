import TinyKeeper.KeeperDispatcher.Tasks
import TinyKeeper.KeeperDispatcher.Turns

/-! Watches as an invalidation signal: what has to hold when a read is applied, so that its reply
does not overtake a notification about what was read. -/
namespace TinyKeeper

/-- The request reads the node at `p`, or its children. -/
def Request.Reads (p : String) : Request → Prop
  | .get req | .exists req | .list req | .simpleList req => req.path = p
  | _ => False

namespace Phase

/-- The call of `dispatch` whose request has been applied. -/
def dispatch : Phase → Option Dispatch
  | .applied d | .waiting d | .sending d | .replying d => some d
  | _ => none

/-- The loop has ended. -/
def Out (p : Phase) : Prop := p = .leaving ∨ p = .gone

end Phase

namespace Service
variable {recordBytes : LogRecord → ℕ}

/-- Turn `k` was another session's, and fired a watch of `x` with this notification. -/
def Told (s : Service recordBytes) (k : ℕ) (x : SessionId) (n : WatchNotification) : Prop :=
  ∃ turn, s.history[k]? = some turn ∧ turn.session ≠ x ∧ ⟨x, n⟩ ∈ turn.events

/-- On every socket a reply to a read of `p` stands behind all notifications about `p` that other
sessions fired before the read was applied. -/
def Ordered (s : Service recordBytes) : Prop :=
  ∀ x before j r turn, before ++ [.reply j r] <+: s.socket x → s.history[j]? = some turn →
    ∀ k n, k < j → s.Told k x n → turn.request.Reads n.path →
      .notification ⟨k, n⟩ ∈ before

/-- A notification about `p` that another session fired is on its way to `x`: it is in the channel
of `x`, or a call of `dispatch` has yet to send it. -/
def OnItsWay (s : Service recordBytes) (x : SessionId) (p : String) : Prop :=
  (∃ notice ∈ s.channel x, notice.payload.path = p ∧
    ∃ turn, s.history[notice.turn]? = some turn ∧ turn.session ≠ x) ∨
  ∃ y, y ≠ x ∧ ∃ e ∈ (s.phase y).owes, e.sessionId = x ∧ e.payload.path = p

/-- A read is applied only when no notification about what it reads is on its way. -/
def Prompt (s : Service recordBytes) : Action → Prop
  | .handle x _ => ∀ xid req p, s.phase x = .applying (some (xid, req)) true → req.Reads p →
      ¬ s.OnItsWay x p
  | _ => True

/-- Where a notification for `x` is, unless its loop has ended. -/
inductive Accounted (s : Service recordBytes) (k : ℕ) (x : SessionId) (n : WatchNotification) : Prop
  | written (mem : .notification ⟨k, n⟩ ∈ s.socket x)
  | queued (mem : ⟨k, n⟩ ∈ s.channel x)
  | pending {y : SessionId} {d : Dispatch} (other : y ≠ x)
      (dispatch : (s.phase y).dispatch = some d) (turn : d.turn = k) (mem : ⟨x, n⟩ ∈ d.events)
  | out (left : (s.phase x).Out)

/-- The reply that `x` is about to get may be written. -/
def Answerable (s : Service recordBytes) (x : SessionId) (d : Dispatch) : Prop :=
  ∃ turn, s.history[d.turn]? = some turn ∧ ∀ k n, k < d.turn → s.Told k x n →
    turn.request.Reads n.path → .notification ⟨k, n⟩ ∈ s.socket x

structure Heard (s : Service recordBytes) : Prop where
  sound : s.Sound
  ordered : s.Ordered
  accounted : ∀ k x n, s.Told k x n → s.Accounted k x n
  answerable : ∀ x d r, (s.phase x).dispatch = some d → d.response = some r → s.Answerable x d
  numbered : ∀ x j r, .reply j r ∈ s.socket x → j < s.history.length
  sent : ∀ x d, s.phase x = .replying d → d.events = []

variable {s s' : Service recordBytes} {x : SessionId} {p : Phase}

/-- A step that leaves the channels alone loses no notification, unless a dispatch with some left is
given up. -/
theorem Accounted.keep {k : ℕ} {y : SessionId} {n : WatchNotification} (h : s.Accounted k y n)
    (phase : s'.phase = Function.update s.phase x p)
    (carries : ∀ d, (s.phase x).dispatch = some d → d.events ≠ [] → p.dispatch = some d)
    (out : (s.phase x).Out → p.Out) (socket : s.socket y ⊆ s'.socket y)
    (channel : s.channel y ⊆ s'.channel y) : s'.Accounted k y n := by
  cases h with
  | written mem => exact .written (socket mem)
  | queued mem => exact .queued (channel mem)
  | @pending z d other dispatch turn mem =>
    refine .pending (y := z) other ?_ turn mem
    rw [phase]
    by_cases here : z = x
    · subst here
      rw [Function.update_self]
      exact carries d dispatch (List.ne_nil_of_mem mem)
    · rwa [Function.update_of_ne here]
  | out left =>
    refine .out ?_
    rw [phase]
    by_cases here : y = x
    · subst here
      rw [Function.update_self]
      exact out left
    · rwa [Function.update_of_ne here]

/-- A step of the task `x` that is neither the application of a request nor a write. -/
theorem Heard.moves (h : s.Heard) (sound : s'.Sound)
    (phase : s'.phase = Function.update s.phase x p) (history : s'.history = s.history)
    (socket : s'.socket = s.socket)
    (accounted : ∀ k y n, s.Told k y n → s.Accounted k y n → s'.Accounted k y n)
    (dispatch : ∀ d r, p.dispatch = some d → d.response = some r →
      ∃ d', (s.phase x).dispatch = some d' ∧ d'.response = some r ∧ d'.turn = d.turn)
    (sent : ∀ d, p = .replying d → d.events = []) : s'.Heard := by
  have told (k : ℕ) (y : SessionId) (n : WatchNotification) :
      s'.Told k y n ↔ s.Told k y n := by rw [Told, Told, history]
  have answerable (y : SessionId) (d : Dispatch) : s'.Answerable y d ↔ s.Answerable y d := by
    simp only [Answerable, told, history, socket]
  refine ⟨sound, ?_, fun k y n fired => ?_, fun y d r carried response => ?_, ?_,
    fun y d at_d => ?_⟩
  · simp only [Ordered, told, history, socket]
    exact h.ordered
  · exact accounted k y n ((told k y n).mp fired) (h.accounted k y n ((told k y n).mp fired))
  · rw [answerable]
    rw [phase] at carried
    by_cases here : y = x
    · subst here
      rw [Function.update_self] at carried
      obtain ⟨d', before, response', same⟩ := dispatch d r carried response
      have ready := h.answerable y d' r before response'
      rw [Answerable, same] at ready
      exact ready
    · rw [Function.update_of_ne here] at carried
      exact h.answerable y d r carried response
  · rw [history, socket]
    exact h.numbered
  · rw [phase] at at_d
    by_cases here : y = x
    · subst here
      rw [Function.update_self] at at_d
      exact sent d at_d
    · rw [Function.update_of_ne here] at at_d
      exact h.sent y d at_d

/-- Such a step keeps its dispatch, and touches no channel. -/
theorem Heard.quiet (h : s.Heard) (sound : s'.Sound)
    (phase : s'.phase = Function.update s.phase x p) (history : s'.history = s.history)
    (socket : s'.socket = s.socket) (channel : s'.channel = s.channel)
    (same : p.dispatch = (s.phase x).dispatch) (out : (s.phase x).Out → p.Out)
    (sent : ∀ d, p = .replying d → d.events = []) : s'.Heard := by
  refine h.moves sound phase history socket (fun k y n _ found => ?_)
    (fun d r carried response => ?_) sent
  · refine found.keep phase (fun d carried _ => same.trans carried) out ?_ ?_
    · rw [socket]
      exact List.Subset.refl _
    · rw [channel]
      exact List.Subset.refl _
  · exact ⟨d, same.symm.trans carried, response, rfl⟩

/-- The loop goes on, or ends, once there is nothing left to send. -/
theorem Heard.goesOn (h : s.Heard) (sound : s'.Sound)
    (phase : s'.phase = Function.update s.phase x p) (history : s'.history = s.history)
    (socket : s'.socket = s.socket) (channel : s'.channel = s.channel)
    (idle : p.dispatch = none) (done : ∀ d, (s.phase x).dispatch = some d → d.events = [])
    (out : (s.phase x).Out → p.Out) : s'.Heard := by
  refine h.moves sound phase history socket (fun k y n _ found => ?_) (fun d r carried _ => ?_) ?_
  · refine found.keep phase (fun d carried left => absurd (done d carried) left) out ?_ ?_
    · rw [socket]
      exact List.Subset.refl _
    · rw [channel]
      exact List.Subset.refl _
  · rw [idle] at carried
    cases carried
  · rintro d rfl
    cases idle

theorem socket_write_subset (s : Service recordBytes) (x y : SessionId) (frame : Frame) :
    s.socket y ⊆ (s.write x frame).socket y := by
  rw [socket_write]
  by_cases here : y = x
  · subst here
    simp
  · simp [here]

/-- Writing a notification, or a reply that may be written. -/
theorem Heard.write (h : s.Heard) (frame : Frame)
    (may : ∀ j r, frame = .reply j r → ∃ d, d.turn = j ∧ s.Answerable x d) :
    (s.write x frame).Heard := by
  have told (k : ℕ) (y : SessionId) (n : WatchNotification) :
      (s.write x frame).Told k y n ↔ s.Told k y n := Iff.rfl
  refine ⟨h.sound.write x frame, ?_, fun k y n fired => ?_, fun y d r carried response => ?_, ?_,
    h.sent⟩
  · intro y before j r turn pre found k n earlier fired reads
    rw [socket_write] at pre
    by_cases here : y = x
    · subst here
      rw [Function.update_self, List.prefix_concat_iff] at pre
      obtain whole | pre := pre
      · obtain ⟨rfl, last⟩ := List.append_inj' whole rfl
        obtain ⟨d, rfl, turn', found', ready⟩ := may j r (List.cons.inj last).1.symm
        cases found.symm.trans found'
        exact ready k n earlier fired reads
      · exact h.ordered y before j r turn pre found k n earlier fired reads
    · rw [Function.update_of_ne here] at pre
      exact h.ordered y before j r turn pre found k n earlier fired reads
  · refine (h.accounted k y n fired).keep (x := x) (p := s.phase x) ?_ (fun _ carried _ => carried)
      id (socket_write_subset s x y frame) (List.Subset.refl _)
    exact (Function.update_eq_self _ _).symm
  · obtain ⟨turn, found, ready⟩ := h.answerable y d r carried response
    refine ⟨turn, found, fun k n earlier fired reads => ?_⟩
    exact socket_write_subset s x y frame (ready k n earlier fired reads)
  · intro y j r mem
    rw [socket_write] at mem
    by_cases here : y = x
    · subst here
      rw [Function.update_self, List.mem_append, List.mem_singleton] at mem
      obtain mem | last := mem
      · exact h.numbered y j r mem
      · obtain ⟨d, rfl, turn, found, -⟩ := may j r last.symm
        exact (List.getElem?_eq_some_iff.mp found).1
    · rw [Function.update_of_ne here] at mem
      exact h.numbered y j r mem

/-- What was fired before a turn stays what was fired before it. -/
theorem told_apply {req : Request} {result : ApplyResult} {server : KeeperServer recordBytes}
    {k : ℕ} {y : SessionId} {n : WatchNotification} :
    (s.apply x req result server).Told k y n ↔
      s.Told k y n ∨ (k = s.history.length ∧ x ≠ y ∧ ⟨y, n⟩ ∈ result.watchEvents) := by
  have history : (s.apply x req result server).history =
    s.history ++ [⟨x, req, result.watchEvents⟩] := rfl
  rw [Told, Told, history]
  obtain before | rfl | after := lt_trichotomy k s.history.length
  · rw [List.getElem?_append_left before]
    simp [before.ne]
  · rw [List.getElem?_concat_length, List.getElem?_eq_none (Nat.le_refl _)]
    simp
  · rw [List.getElem?_eq_none (by simpa using after), List.getElem?_eq_none after.le]
    simp [after.ne']

/-- A prompt application of a request finds written whatever may not be overtaken by its reply. -/
theorem Heard.written (h : s.Heard) {payload : Payload} {touched : Bool}
    (applying : s.phase x = .applying payload touched) {k : ℕ} {n : WatchNotification}
    (told : s.Told k x n) (arrived : ¬ s.OnItsWay x n.path) :
    .notification ⟨k, n⟩ ∈ s.socket x := by
  cases h.accounted k x n told with
  | written mem => exact mem
  | queued mem =>
    obtain ⟨turn, found, other, -⟩ := told
    exact absurd (.inl ⟨_, mem, rfl, turn, found, other⟩) arrived
  | @pending y d other dispatch turn mem =>
    refine absurd (.inr ⟨y, other, ⟨x, n⟩, ?_, rfl, rfl⟩) arrived
    cases at_y : s.phase y with
    | applied d' | waiting d' | sending d' =>
      rw [at_y] at dispatch
      cases dispatch
      exact mem
    | replying d' =>
      rw [at_y] at dispatch
      cases dispatch
      rw [h.sent y d at_y] at mem
      cases mem
    | absent | connecting | selecting | applying | leaving | gone =>
      rw [at_y] at dispatch
      cases dispatch
  | out left =>
    rw [applying] at left
    obtain left | left := left <;> cases left

theorem Heard.apply (h : s.Heard) {xid : Int32} {req : Request} {result : ApplyResult}
    {server : KeeperServer recordBytes} (sound : (s.apply x req result server).Sound)
    (applying : s.phase x = .applying (some (xid, req)) true)
    (prompt : ∀ p, req.Reads p → ¬ s.OnItsWay x p) : (s.apply x req result server).Heard := by
  have history : (s.apply x req result server).history =
    s.history ++ [⟨x, req, result.watchEvents⟩] := rfl
  have earlier {j k : ℕ} {y : SessionId} {n : WatchNotification} (lt : k < j)
      (le : j ≤ s.history.length) (told : (s.apply x req result server).Told k y n) :
      s.Told k y n := by
    refine (told_apply.mp told).resolve_right fun last => ?_
    omega
  refine ⟨sound, ?_, fun k y n told => ?_, fun y d r carried response => ?_, ?_, fun y d at_d => ?_⟩
  · intro y before j r turn pre found k n lt told reads
    have numbered := h.numbered y j r (pre.subset (by simp))
    rw [history, List.getElem?_append_left numbered] at found
    exact h.ordered y before j r turn pre found k n lt (earlier lt numbered.le told) reads
  · obtain told | ⟨rfl, other, mem⟩ := told_apply.mp told
    · refine (h.accounted k y n told).keep rfl (fun d carried _ => ?_) (fun out => ?_)
        (List.Subset.refl _) (List.Subset.refl _)
      · rw [applying] at carried
        cases carried
      · rw [applying] at out
        obtain out | out := out <;> cases out
    · refine .pending (d := ⟨_, req = .close, some result.response, _⟩) other ?_ rfl mem
      simp [Service.apply, Service.setPhase, Phase.dispatch]
  · by_cases here : y = x
    · subst here
      simp only [Service.apply, Service.setPhase, Function.update_self, Phase.dispatch,
        Option.some.injEq] at carried
      subst carried
      refine ⟨⟨y, req, result.watchEvents⟩, ?_, fun k n lt told reads => ?_⟩
      · rw [history, List.getElem?_concat_length]
      · exact h.written applying (earlier lt (Nat.le_refl _) told) (prompt _ reads)
    · have same : (s.apply x req result server).phase y = s.phase y :=
        Function.update_of_ne here _ _
      rw [same] at carried
      obtain ⟨turn, found, ready⟩ := h.answerable y d r carried response
      have numbered := (List.getElem?_eq_some_iff.mp found).1
      refine ⟨turn, ?_, fun k n lt told reads => ready k n lt (earlier lt numbered.le told) reads⟩
      rw [history, List.getElem?_append_left numbered, found]
  · intro y j r mem
    have before := h.numbered y j r mem
    rw [history, List.length_append]
    omega
  · by_cases here : y = x
    · subst here
      simp [Service.apply, Service.setPhase] at at_d
    · have same : (s.apply x req result server).phase y = s.phase y :=
        Function.update_of_ne here _ _
      rw [same] at at_d
      exact h.sent y d at_d

/-- A notification leaves the dispatch for the channel, if its receiver is there. -/
theorem Heard.forward (h : s.Heard) {d : Dispatch} {e : WatchEvent} {es : List WatchEvent}
    (sending : s.phase x = .sending d) (next : d.events = e :: es) (sound : s'.Sound)
    (phase : s'.phase = Function.update s.phase x (.sending { d with events := es }))
    (history : s'.history = s.history) (socket : s'.socket = s.socket)
    (channel : ∀ y, s.channel y ⊆ s'.channel y)
    (handed : ⟨d.turn, e.payload⟩ ∈ s'.channel e.sessionId ∨ (s'.phase e.sessionId).Out) :
    s'.Heard := by
  refine h.moves sound phase history socket (fun k y n told found => ?_)
    (fun d' r carried response => ?_) (by simp)
  · cases found with
    | written mem => exact .written (socket ▸ mem)
    | queued mem => exact .queued (channel y mem)
    | @pending z d' other dispatch turn mem =>
      by_cases here : z = x
      · subst here
        rw [sending] at dispatch
        cases dispatch
        rw [next, List.mem_cons] at mem
        obtain rfl | mem := mem
        · subst turn
          exact handed.elim .queued .out
        · refine .pending (d := { d with events := es }) other ?_ turn mem
          rw [phase, Function.update_self]
          rfl
      · refine .pending other ?_ turn mem
        rwa [phase, Function.update_of_ne here]
    | out left =>
      refine .out ?_
      rw [phase]
      by_cases here : y = x
      · subst here
        rw [sending] at left
        obtain left | left := left <;> cases left
      · rwa [Function.update_of_ne here]
  · cases carried
    exact ⟨d, by rw [sending]; rfl, response, rfl⟩

theorem Heard.leave (h : s.Heard) (sound : (s.leave x).Sound)
    (done : ∀ d, (s.phase x).dispatch = some d → d.events = []) : (s.leave x).Heard :=
  h.goesOn sound rfl rfl rfl rfl rfl done (fun _ => .inl rfl)

theorem Heard.proceed (h : s.Heard) {d : Dispatch} (replying : s.phase x = .replying d)
    (closes : Bool) : (s.proceed x closes).Heard := by
  have sound := h.sound.proceed replying closes
  have done : ∀ d', (s.phase x).dispatch = some d' → d'.events = [] := by
    intro d' carried
    rw [replying] at carried
    cases carried
    exact h.sent x d replying
  unfold Service.proceed at sound ⊢
  split_ifs at sound ⊢
  · exact h.leave sound done
  · exact h.goesOn sound rfl rfl rfl rfl rfl done (by simp [replying, Phase.Out])

theorem Heard.connect (h : s.Heard) {env : Env} {timeoutMs : Int} {id : SessionId}
    {server : KeeperServer recordBytes}
    (done : s.server.exec env (.createSession timeoutMs) = .done (.session id) server) :
    Heard { (s.setPhase id .connecting).setChannel id [] with
      server := server, tasks := insert id s.tasks, lock := s.lock.ask id .write } := by
  have fresh := h.sound.fresh done
  refine h.moves (h.sound.connect done) rfl rfl rfl (fun k y n told found => ?_)
    (by simp [Phase.dispatch]) (by simp)
  obtain ⟨turn, mem, -, fired⟩ := told
  have other : y ≠ id := by
    intro here
    exact (h.sound.fired turn (List.mem_of_getElem? mem) _ fired).1 (here ▸ fresh)
  refine found.keep (x := id) rfl (by simp [fresh, Phase.dispatch]) (by simp [fresh, Phase.Out])
    (List.Subset.refl _) ?_
  simp [setChannel, setPhase, other]

/-- A notification that is discarded was for a session whose loop has ended. -/
theorem Heard.discard (h : s.Heard) {d : Dispatch} {e : WatchEvent} {es : List WatchEvent}
    (sending : s.phase x = .sending d) (next : d.events = e :: es)
    (lost : ¬ s.Reaches e.sessionId)
    (sound : (s.setPhase x (.sending { d with events := es })).Sound) :
    (s.setPhase x (.sending { d with events := es })).Heard := by
  refine h.forward sending next sound rfl rfl rfl (fun _ => List.Subset.refl _) (.inr (.inr ?_))
  have joined : (s.phase e.sessionId).Joined :=
    h.sound.owed x e (by simp [sending, Phase.owes, next])
  have gone : s.phase e.sessionId = .gone := by
    by_contra runs
    exact lost ⟨h.sound.senders _ joined runs, runs⟩
  have other : e.sessionId ≠ x := by
    intro here
    rw [here, sending] at gone
    cases gone
  rwa [phase_setPhase, Function.update_of_ne other]

/-- A notification leaves the channel for the socket. -/
theorem Heard.notify (h : s.Heard) {n : Notice} {rest : List Notice}
    (next : s.channel x = n :: rest)
    (sound : ((s.write x (.notification n)).setChannel x rest).Sound) :
    ((s.write x (.notification n)).setChannel x rest).Heard := by
  have written : (s.write x (.notification n)).Heard := h.write _ (by simp)
  refine written.moves sound (x := x) (Function.update_eq_self _ _).symm rfl rfl
    (fun k y m told found => ?_) (fun d r carried response => ⟨d, carried, response, rfl⟩)
    (h.sent x)
  cases found with
  | written mem => exact .written mem
  | queued mem =>
    by_cases here : y = x
    · subst here
      have split : ⟨k, m⟩ ∈ s.channel y := mem
      rw [next, List.mem_cons] at split
      obtain rfl | later := split
      · exact .written (by simp [setChannel])
      · exact .queued (by simpa using later)
    · exact .queued (by simpa [here] using mem)
  | pending other dispatch turn mem => exact .pending other dispatch turn mem
  | out left => exact .out left

/-- A notification that cannot be written ends the loop. -/
theorem Heard.notifyLost (h : s.Heard) (selecting : s.phase x = .selecting) {rest : List Notice}
    (sound : ((s.leave x).setChannel x rest).Sound) : ((s.leave x).setChannel x rest).Heard := by
  refine h.moves sound rfl rfl rfl (fun k y m told found => ?_) (by simp [Phase.dispatch])
    (by simp)
  by_cases here : y = x
  · subst here
    refine .out (.inl ?_)
    simp [setChannel, Service.leave]
  · refine found.keep rfl (by simp [selecting, Phase.dispatch]) (fun _ => .inl rfl)
      (List.Subset.refl _) ?_
    simp [Service.leave, setPhase, here]

theorem Heard.step (h : s.Heard) {a : Action} (step : s.Step a s') (prompt : s.Prompt a) :
    s'.Heard := by
  have sound := h.sound.step step
  cases step with
  | connect done => exact h.connect done
  | @expire env closed server done =>
    exact h.quiet sound (x := closed) (Function.update_eq_self _ _).symm rfl rfl rfl rfl id
      (h.sent closed)
  | enter connecting next alone =>
    exact h.goesOn sound rfl rfl rfl rfl rfl (by simp [connecting, Phase.dispatch])
      (by simp [connecting, Phase.Out])
  | enterLost connecting next alone =>
    exact h.goesOn sound rfl rfl rfl rfl rfl (by simp [connecting, Phase.dispatch])
      (by simp [connecting, Phase.Out])
  | receive selecting =>
    exact h.goesOn sound rfl rfl rfl rfl rfl (by simp [selecting, Phase.dispatch])
      (by simp [selecting, Phase.Out])
  | crash selecting =>
    exact h.goesOn sound rfl rfl rfl rfl rfl (by simp [selecting, Phase.dispatch])
      (by simp [selecting, Phase.Out])
  | touch applying done =>
    exact h.goesOn sound rfl rfl rfl rfl rfl (by simp [applying, Phase.dispatch])
      (by simp [applying, Phase.Out])
  | handle applying done =>
    exact h.apply sound applying fun p reads => prompt _ _ p applying reads
  | panic applying =>
    refine h.moves sound rfl rfl rfl (fun k y n _ found => ?_) ?_ (by simp)
    · exact found.keep rfl (by simp [applying, Phase.dispatch]) (by simp [applying, Phase.Out])
        (List.Subset.refl _) (List.Subset.refl _)
    · intro d r carried response
      cases carried
      cases response
  | ask applied =>
    exact h.quiet sound rfl rfl rfl rfl (by rw [applied]; rfl) (by simp [applied, Phase.Out])
      (by simp)
  | acquire waiting next =>
    exact h.quiet sound rfl rfl rfl rfl (by rw [waiting]; rfl) (by simp [waiting, Phase.Out])
      (by simp)
  | @send x d e es sending next reaches room =>
    refine h.forward sending next sound rfl rfl rfl (fun y => ?_) (.inl ?_)
    · rw [channel_setChannel]
      by_cases here : y = e.sessionId
      · subst here
        simp [setPhase]
      · simp [setPhase, here]
    · simp
  | discard sending next lost => exact h.discard sending next lost sound
  | finish sending sent =>
    refine h.quiet sound rfl rfl rfl rfl (by rw [sending]; rfl) (by simp [sending, Phase.Out]) ?_
    rintro d same
    cases same
    exact sent
  | @reply x d r replying response =>
    have ready := h.answerable x d r (by rw [replying]; rfl) response
    have written : (s.write x (.reply d.turn r)).Heard := by
      refine h.write _ fun j r' same => ?_
      cases same
      exact ⟨d, rfl, ready⟩
    exact written.proceed replying _
  | replyEmpty replying response => exact h.proceed replying _
  | @replyLost x d r replying response =>
    refine h.leave sound fun d' carried => ?_
    rw [replying] at carried
    cases carried
    exact h.sent x d replying
  | notify selecting next => exact h.notify next sound
  | notifyLost selecting next => exact h.notifyLost selecting sound
  | leave selecting => exact h.leave sound (by simp [selecting, Phase.dispatch])
  | exit leaving next alone =>
    exact h.goesOn sound rfl rfl rfl rfl rfl (by simp [leaving, Phase.dispatch])
      (fun _ => .inr rfl)

theorem Started.heard (h : s.Started) : s.Heard := by
  have sound := h.sound
  obtain ⟨dir, orders, server, started, rfl⟩ := h
  refine ⟨sound, ?_, ?_, ?_, ?_, ?_⟩
  · intro x before j r turn pre
    simp [start] at pre
  · rintro k x n ⟨turn, found, -⟩
    simp [start] at found
  · intro x d r carried
    cases carried
  · intro x j r mem
    cases mem
  · intro x d at_d
    cases at_d

/-- In every run in which each read is applied promptly, no reply overtakes a notification about
what was read. -/
theorem watcher_hears_first {s₀ : Service recordBytes} (started : s₀.Started) {as : List Action}
    (run : Run (Under Prompt) s₀ as s) : s.Ordered :=
  (run.invariant Heard started.heard fun _ _ _ h last => h.step last.1 last.2).ordered

theorem prompt_calm (s : Service recordBytes) (a : Action) (calm : ∀ x env, a ≠ .handle x env) :
    s.Prompt a := by
  cases a with
  | handle x env => exact absurd rfl (calm x env)
  | _ => trivial

/-- A session is told of a change of the root that another session made, before it reads the root
again. -/
theorem watcher_hears_first_read : ∃ (s : Service fun _ => 1) (r r'' : Reply),
    s.socket 1 = [.reply 0 r, .notification ⟨1, ⟨.changed, "/"⟩⟩, .reply 2 r''] ∧ s.Ordered := by
  obtain ⟨as, s, r, r', r'', run, socket, -, -⟩ := initial_hears prompt_calm (by
    rintro s x xid req touched result server idle - - xid' req' p - -
      (⟨notice, mem, -⟩ | ⟨y, other, e, mem, -⟩)
    · have silent : (s.applying x xid req touched).channel x = [] := idle.quiet x
      rw [silent] at mem
      cases mem
    · have owed : ((s.applying x xid req touched).phase y).owes = [] := by
        simp [Service.applying, other, idle.owes y]
      rw [owed] at mem
      cases mem)
  exact ⟨s, r, r'', socket, watcher_hears_first initial_started run⟩

section Overtaking
variable {env : Env} {y : SessionId} {path : String} {n : Node}

/-- If `x` watches a node, `y` changes it and `x` reads it again, the reply to `x` may be written
before the notification. -/
theorem reply_overtakes (works : env.flush = .succeeds) (other : x ≠ y)
    (selects_x : s.phase x = .selecting) (selects_y : s.phase y = .selecting)
    (free : s.lock = .free) (reaches : s.Reaches x) (empty : s.channel x = [])
    (silent : s.socket x = []) (stored : s.server.storage.map.get path = some n) :
    ∃ as s', Run Step s as s' ∧ ¬ s'.Ordered := by
  let get : Request := .get ⟨path, true⟩
  let set : Request := .set ⟨path, [], -1⟩
  -- The first read registers the watch.
  obtain ⟨as₁, r₁, quiet₁, reads⟩ := watch_answered (fun _ _ _ => trivial) selects_x free reaches
    (by simp [empty]) env 1 path fun _ _ _ _ => trivial
  let watched := (s.server.touchSession env.now x).watching x path
  let s₁ := s.answered x get r₁ watched x
  -- The change fires it.
  let t₂ := watched.touchSession env.now y
  have touch₂ : watched.exec env (.touch y) = .done .touched t₂ := rfl
  obtain ⟨r₂, changed, sets, fired, -, n', stored'⟩ :=
    KeeperServer.exec_set_fires (s := t₂) works 1 y stored []
  let s₂ := s₁.apply y set r₂ changed
  have told : ⟨x, ⟨.changed, path⟩⟩ ∈ r₂.watchEvents := by
    rw [fired]
    exact (WatchState.mem_fireOneshot_events _ _ _ _ _ _ _).mpr
      ⟨WatchState.register_self _ _ _ _, rfl⟩
  obtain ⟨as₂, changes⟩ := turn_applied (fun _ _ _ => trivial) (s := s₁) selects_y touch₂ sets
    trivial
  -- The second read is answered while the notification waits for the lock.
  have selects : s₂.phase x = .selecting := by
    simpa [s₂, s₁, Service.apply, answered, setPhase, setChannel, Service.write, other]
      using selects_x
  have channel : s₂.channel x = [] := by
    simp [s₂, s₁, Service.apply, answered, setPhase, setChannel, Service.write, quiet₁, empty]
  obtain ⟨as₃, r₃, -, rereads⟩ := watch_answered (fun _ _ _ => trivial) (s := s₂) selects free
    ⟨reaches.1, by simp [selects]⟩ (by simp [channel]) env 2 path fun _ _ _ _ => trivial
  let s₃ := s₂.answered x get r₃ ((changed.touchSession env.now x).watching x path) x
  have run := (reads.trans changes).trans rereads
  refine ⟨_, s₃, Under.run run, fun ordered => ?_⟩
  have socket : s₃.socket x = [.reply s.history.length r₁.response] ++
      [.reply (s.history.length + 2) r₃.response] := by
    simp [s₃, s₂, s₁, Service.apply, answered, setPhase, setChannel, Service.write, silent]
  have history : s₃.history = s.history ++ [⟨x, get, r₁.watchEvents⟩, ⟨y, set, r₂.watchEvents⟩,
      ⟨x, get, r₃.watchEvents⟩] := by
    simp [s₃, s₂, s₁, Service.apply, answered]
  have told₂ : s₃.Told (s.history.length + 1) x ⟨.changed, path⟩ :=
    ⟨⟨y, set, r₂.watchEvents⟩, by simp [history], other.symm, told⟩
  have pre : [.reply s.history.length r₁.response] ++
      [.reply (s.history.length + 2) r₃.response] <+: s₃.socket x := by rw [socket]
  have found : s₃.history[s.history.length + 2]? = some ⟨x, get, r₃.watchEvents⟩ := by
    simp [history]
  have overtaken := ordered x _ _ _ _ pre found _ _ (Nat.lt_succ_self _) told₂ rfl
  simp at overtaken

end Overtaking

/-- Session 1 watches the root, session 2 changes it, and session 1 reads it before it hears. -/
theorem read_overtakes_notification :
    ¬ ∀ (s₀ s : Service fun _ => 1) as, s₀.Started → Run Step s₀ as s → s.Ordered := by
  intro all
  obtain ⟨first, second, n, opens₁, opens₂, stored⟩ : ∃ first second n,
      (KeeperServer.initial fun _ => 1).exec (.working 0) (.createSession 5000) =
        .done (.session 1) first ∧
      first.exec (.working 0) (.createSession 5000) = .done (.session 2) second ∧
      second.storage.map.get "/" = some n := ⟨_, _, _, rfl, rfl, rfl⟩
  let s₁ := (initial fun _ => 1).joined 1 first
  let s₂ := s₁.joined 2 second
  have joins₁ := handshake_joined (fun _ _ _ => trivial) (s := initial fun _ => 1) rfl opens₁
  have joins₂ := handshake_joined (fun _ _ _ => trivial) (s := s₁) rfl opens₂
  have reaches : s₂.Reaches 1 := ⟨by simp [s₂, s₁, joined], by simp [s₂, s₁, joined, setChannel]⟩
  have works : (Env.working 0).flush = .succeeds := rfl
  obtain ⟨as, s, run, overtaken⟩ := reply_overtakes (s := s₂) works
    (x := 1) (y := 2) (by decide) rfl rfl rfl reaches rfl rfl stored
  exact overtaken (all _ _ _ initial_started ((Under.run (joins₁.trans joins₂)).trans run))

end Service
end TinyKeeper
