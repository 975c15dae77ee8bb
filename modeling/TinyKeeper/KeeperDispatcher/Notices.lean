import TinyKeeper.KeeperDispatcher.Deadlock
import TinyKeeper.KeeperDispatcher.Serial

/-! Notifications are neither lost nor doubled: as long as the loop of a session runs, each of the
notifications that a turn fired for it is on its socket, in its channel or still to be sent, once
and in the order in which they were fired. -/
namespace TinyKeeper

def Frame.notice? : Frame → Option Notice
  | .notification notice => some notice
  | .reply _ _ => none

/-- The notifications of the `n`-th turn among these. -/
def noticesOf (notices : List Notice) (n : ℕ) : List WatchNotification :=
  (notices.filter (·.turn = n)).map Notice.payload

/-- What these notifications tell the session `y`. -/
def toldTo (events : List WatchEvent) (y : SessionId) : List WatchNotification :=
  (events.filter (·.sessionId = y)).map WatchEvent.payload

section Lists
variable {notices : List Notice} {n : ℕ} {y : SessionId}

theorem noticesOf_append (notices notices' : List Notice) (n : ℕ) :
    noticesOf (notices ++ notices') n = noticesOf notices n ++ noticesOf notices' n := by
  simp [noticesOf]

theorem noticesOf_other (other : ∀ notice ∈ notices, notice.turn ≠ n) :
    noticesOf notices n = [] := by
  rw [noticesOf, List.filter_eq_nil_iff.mpr (by simpa using other), List.map_nil]

theorem toldTo_cons_self (e : WatchEvent) (es : List WatchEvent) :
    toldTo (e :: es) e.sessionId = e.payload :: toldTo es e.sessionId := by
  simp [toldTo]

theorem toldTo_cons_other {e : WatchEvent} (other : e.sessionId ≠ y) (es : List WatchEvent) :
    toldTo (e :: es) y = toldTo es y := by
  simp [toldTo, other]

end Lists

/-- What a task has yet to tell `y` about the `n`-th turn. -/
def Phase.untold (p : Phase) (n : ℕ) (y : SessionId) : List WatchNotification :=
  match p.dispatch with
  | some d => if d.turn = n then toldTo d.events y else []
  | none => []

namespace Service
variable {recordBytes : LogRecord → ℕ} {s s' : Service recordBytes} {x : SessionId} {p : Phase}

/-- The notifications for `y` that have left the dispatches, in their order. -/
def notices (s : Service recordBytes) (y : SessionId) : List Notice :=
  (s.socket y).filterMap Frame.notice? ++ s.channel y

/-- Every notification is accounted for, and in its place. -/
structure Delivers (s : Service recordBytes) : Prop where
  numbered : ∀ y, ∀ notice ∈ s.notices y, notice.turn < s.history.length
  owns : ∀ x d, (s.phase x).dispatch = some d → d.events ≠ [] →
    ∃ turn, s.history[d.turn]? = some turn ∧ turn.session = x
  sent : ∀ x d, s.phase x = .replying d → d.events = []
  once : ∀ y, ¬ (s.phase y).Out → ∀ n turn, s.history[n]? = some turn →
    noticesOf (s.notices y) n ++ (s.phase turn.session).untold n y = toldTo turn.events y
  written : ∀ y n turn, s.history[n]? = some turn →
    noticesOf ((s.socket y).filterMap Frame.notice?) n <+: toldTo turn.events y

theorem untold_of_empty (done : ∀ d, p.dispatch = some d → d.events = []) (n : ℕ) (y : SessionId) :
    p.untold n y = [] := by
  unfold Phase.untold
  cases carried : p.dispatch with
  | none => rfl
  | some d =>
    simp only [done d carried]
    split_ifs <;> rfl

/-- A step of the task `x` that touches no notification. -/
theorem Delivers.moves (h : s.Delivers) (phase : s'.phase = Function.update s.phase x p)
    (history : s'.history = s.history)
    (notices : ∀ y, (s'.socket y).filterMap Frame.notice? = (s.socket y).filterMap Frame.notice?)
    (channel : ∀ y, y ≠ x → s'.channel y = s.channel y)
    (own : ¬ p.Out → ¬ (s.phase x).Out ∧ ∀ n turn, s.history[n]? = some turn →
      noticesOf (s'.notices x) n = noticesOf (s.notices x) n)
    (shrinks : s'.channel x ⊆ s.channel x)
    (dispatch : ∀ d, p.dispatch = some d → d.events ≠ [] → (s.phase x).dispatch = some d)
    (untold : ∀ n y, p.untold n y = (s.phase x).untold n y)
    (sent : ∀ d, p = .replying d → d.events = []) : s'.Delivers := by
  have others (y : SessionId) (other : y ≠ x) : s'.phase y = s.phase y := by
    rw [phase, Function.update_of_ne other]
  have self : s'.phase x = p := by rw [phase, Function.update_self]
  have same (z : SessionId) (n : ℕ) (y : SessionId) :
      (s'.phase z).untold n y = (s.phase z).untold n y := by
    by_cases here : z = x
    · rw [here, self, untold]
    · rw [others z here]
  refine ⟨fun y notice mem => ?_, fun y d carried left => ?_, fun y d at_d => ?_,
    fun y runs n turn found => ?_, fun y n turn found => ?_⟩
  · rw [history]
    apply h.numbered y
    rw [Service.notices, notices, List.mem_append] at mem
    rw [Service.notices, List.mem_append]
    refine mem.imp_right fun queued => ?_
    by_cases here : y = x
    · subst here
      exact shrinks queued
    · rwa [channel y here] at queued
  · rw [history]
    by_cases here : y = x
    · subst here
      rw [self] at carried
      exact h.owns y d (dispatch d carried left) left
    · rw [others y here] at carried
      exact h.owns y d carried left
  · by_cases here : y = x
    · exact sent d (by rw [← self, ← here, at_d])
    · rw [others y here] at at_d
      exact h.sent y d at_d
  · rw [history] at found
    rw [same]
    by_cases here : y = x
    · subst here
      rw [self] at runs
      obtain ⟨ran, kept⟩ := own runs
      rw [kept n turn found]
      exact h.once y ran n turn found
    · rw [others y here] at runs
      rw [Service.notices, notices, channel y here]
      exact h.once y runs n turn found
  · rw [history] at found
    rw [notices]
    exact h.written y n turn found

/-- A step of the task that keeps its dispatch, or has nothing left to send. -/
theorem Delivers.quiet (h : s.Delivers) (phase : s'.phase = Function.update s.phase x p)
    (history : s'.history = s.history)
    (socket : ∀ y, (s'.socket y).filterMap Frame.notice? = (s.socket y).filterMap Frame.notice?)
    (channel : s'.channel = s.channel) (out : (s.phase x).Out → p.Out)
    (dispatch : ∀ d, p.dispatch = some d → d.events ≠ [] → (s.phase x).dispatch = some d)
    (untold : ∀ n y, p.untold n y = (s.phase x).untold n y)
    (sent : ∀ d, p = .replying d → d.events = []) : s'.Delivers := by
  refine h.moves phase history socket (fun y _ => congrFun channel y)
    (fun runs => ⟨fun left => runs (out left), fun n turn _ => ?_⟩) ?_ dispatch untold sent
  · rw [Service.notices, Service.notices, socket, channel]
  · rw [channel]
    exact List.Subset.refl _

/-- The task had nothing to send, and has nothing to send. -/
theorem Delivers.idle (h : s.Delivers) (phase : s'.phase = Function.update s.phase x p)
    (history : s'.history = s.history)
    (socket : ∀ y, (s'.socket y).filterMap Frame.notice? = (s.socket y).filterMap Frame.notice?)
    (channel : s'.channel = s.channel) (out : (s.phase x).Out → p.Out)
    (before : ∀ d, (s.phase x).dispatch = some d → d.events = [])
    (after : ∀ d, p.dispatch = some d → d.events = []) : s'.Delivers := by
  refine h.quiet phase history socket channel out
    (fun d carried left => absurd (after d carried) left) (fun n y => ?_) fun d at_d => ?_
  · rw [untold_of_empty after, untold_of_empty before]
  · subst at_d
    exact after d rfl

theorem toldTo_of_absent (sound : s.Sound) {y : SessionId} (absent : s.phase y = .absent) {n : ℕ}
    {turn : Turn} (found : s.history[n]? = some turn) : toldTo turn.events y = [] := by
  have nobody : turn.events.filter (·.sessionId = y) = [] := by
    rw [List.filter_eq_nil_iff]
    intro e mem same
    have joined := sound.fired turn (List.mem_of_getElem? found) e mem
    rw [of_decide_eq_true same] at joined
    exact joined.1 absent
  rw [toldTo, nobody, List.map_nil]

/-- A new session has nothing in its channel, and was told nothing before. -/
theorem Delivers.connect (h : s.Delivers) (sound : s.Sound) {env : Env} {timeoutMs : Int}
    {id : SessionId} {server : KeeperServer recordBytes}
    (done : s.server.exec env (.createSession timeoutMs) = .done (.session id) server) :
    Delivers { (s.setPhase id .connecting).setChannel id [] with
      server := server, tasks := insert id s.tasks, lock := s.lock.ask id .write } := by
  have fresh := sound.fresh done
  refine h.moves (x := id) rfl rfl (fun _ => rfl) (fun y other => Function.update_of_ne other _ _)
    (fun _ => ⟨by simp [fresh, Phase.Out], fun n turn found => ?_⟩) ?_ (by simp [Phase.dispatch])
    (fun n y => by simp [Phase.untold, Phase.dispatch, fresh]) (by simp)
  · have told := h.once id (by simp [fresh, Phase.Out]) n turn found
    rw [toldTo_of_absent sound fresh found, List.append_eq_nil_iff] at told
    rw [told.1]
    have split := told.1
    rw [Service.notices, noticesOf_append, List.append_eq_nil_iff] at split
    simp only [Service.notices, setChannel, setPhase, Function.update_self, List.append_nil]
    exact split.1
  · simp [setChannel]

theorem Delivers.apply (h : s.Delivers) {payload : Payload} {touched : Bool} {req : Request}
    {result : ApplyResult} {server : KeeperServer recordBytes}
    (applying : s.phase x = .applying payload touched) :
    (s.apply x req result server).Delivers := by
  have history : (s.apply x req result server).history =
    s.history ++ [⟨x, req, result.watchEvents⟩] := rfl
  have others (y : SessionId) (other : y ≠ x) :
      (s.apply x req result server).phase y = s.phase y := Function.update_of_ne other _ _
  have self : (s.apply x req result server).phase x = .applied ⟨s.history.length, req = .close,
      some result.response, result.watchEvents⟩ := Function.update_self _ _ _
  have mine (n : ℕ) (y : SessionId) : (s.phase x).untold n y = [] := by
    rw [applying]
    rfl
  -- A turn is an earlier one, or the new one.
  have turns {n : ℕ} {turn : Turn} (found : (s.apply x req result server).history[n]? = some turn) :
      s.history[n]? = some turn ∨
        (n = s.history.length ∧ turn = ⟨x, req, result.watchEvents⟩) := by
    rw [history] at found
    obtain before | rfl | after := lt_trichotomy n s.history.length
    · rw [List.getElem?_append_left before] at found
      exact .inl found
    · rw [List.getElem?_concat_length] at found
      exact .inr ⟨rfl, (Option.some.inj found).symm⟩
    · rw [List.getElem?_eq_none (by simpa using after)] at found
      cases found
  have unnumbered (y : SessionId) : noticesOf (s.notices y) s.history.length = [] :=
    noticesOf_other fun notice mem => (h.numbered y notice mem).ne
  refine ⟨fun y notice mem => ?_, fun y d carried left => ?_, fun y d at_d => ?_,
    fun y runs n turn found => ?_, fun y n turn found => ?_⟩
  · rw [history, List.length_append]
    exact (h.numbered y notice mem).trans_le (Nat.le_add_right _ _)
  · by_cases here : y = x
    · subst here
      rw [self] at carried
      cases carried
      exact ⟨_, List.getElem?_concat_length, rfl⟩
    · rw [others y here] at carried
      obtain ⟨turn, found, owner⟩ := h.owns y d carried left
      refine ⟨turn, ?_, owner⟩
      rw [history, List.getElem?_append_left (List.getElem?_eq_some_iff.mp found).1, found]
  · by_cases here : y = x
    · rw [here, self] at at_d
      cases at_d
    · rw [others y here] at at_d
      exact h.sent y d at_d
  · have ran : ¬ (s.phase y).Out := by
      by_cases here : y = x
      · rw [here, applying]
        simp [Phase.Out]
      · rwa [others y here] at runs
    obtain before | ⟨rfl, rfl⟩ := turns found
    · have less := (List.getElem?_eq_some_iff.mp before).1
      have same : ((s.apply x req result server).phase turn.session).untold n y =
          (s.phase turn.session).untold n y := by
        by_cases here : turn.session = x
        · rw [here, self, mine]
          simp [Phase.untold, Phase.dispatch, less.ne']
        · rw [others _ here]
      rw [same]
      exact h.once y ran n turn before
    · have all : ((s.apply x req result server).phase x).untold s.history.length y =
          toldTo result.watchEvents y := by
        simp [self, Phase.untold, Phase.dispatch]
      change noticesOf (s.notices y) _ ++ _ = _
      rw [unnumbered, List.nil_append, all]
  · obtain before | ⟨rfl, rfl⟩ := turns found
    · exact h.written y n turn before
    · have none := unnumbered y
      rw [Service.notices, noticesOf_append, List.append_eq_nil_iff] at none
      change noticesOf ((s.socket y).filterMap Frame.notice?) _ <+: _
      rw [none.1]
      exact List.nil_prefix

/-- The first notification of a dispatch goes to the channel of its session, or its session has
left. -/
theorem Delivers.forward (h : s.Delivers) {d : Dispatch} {e : WatchEvent} {es : List WatchEvent}
    (sending : s.phase x = .sending d) (next : d.events = e :: es)
    (phase : s'.phase = Function.update s.phase x (.sending { d with events := es }))
    (history : s'.history = s.history) (socket : s'.socket = s.socket)
    (others : ∀ y, y ≠ e.sessionId → s'.channel y = s.channel y)
    (handed : s'.channel e.sessionId = s.channel e.sessionId ++ [⟨d.turn, e.payload⟩] ∨
      (s'.channel e.sessionId = s.channel e.sessionId ∧ (s.phase e.sessionId).Out)) :
    s'.Delivers := by
  have carried : (s.phase x).dispatch = some d := by
    rw [sending]
    rfl
  obtain ⟨own, found_own, owner⟩ := h.owns x d carried (by simp [next])
  have self : s'.phase x = .sending { d with events := es } := by rw [phase, Function.update_self]
  have rest (y : SessionId) (other : y ≠ x) : s'.phase y = s.phase y := by
    rw [phase, Function.update_of_ne other]
  have runs_before {y : SessionId} (runs : ¬ (s'.phase y).Out) : ¬ (s.phase y).Out := by
    by_cases here : y = x
    · rw [here, sending]
      simp [Phase.Out]
    · rwa [rest y here] at runs
  refine ⟨fun y notice mem => ?_, fun y d' carried' left => ?_, fun y d' at_d => ?_,
    fun y runs n turn found => ?_, fun y n turn found => ?_⟩
  · rw [history]
    by_cases here : y = e.sessionId
    · subst here
      obtain more | ⟨same, -⟩ := handed
      · rw [Service.notices, socket, more, ← List.append_assoc, List.mem_append,
          List.mem_singleton] at mem
        obtain before | rfl := mem
        · exact h.numbered _ notice before
        · exact (List.getElem?_eq_some_iff.mp found_own).1
      · rw [Service.notices, socket, same] at mem
        exact h.numbered _ notice mem
    · rw [Service.notices, socket, others y here] at mem
      exact h.numbered y notice mem
  · rw [history]
    by_cases here : y = x
    · subst here
      rw [self] at carried'
      cases carried'
      exact ⟨own, found_own, owner⟩
    · rw [rest y here] at carried'
      exact h.owns y d' carried' left
  · by_cases here : y = x
    · rw [here, self] at at_d
      cases at_d
    · rw [rest y here] at at_d
      exact h.sent y d' at_d
  · rw [history] at found
    have before := h.once y (runs_before runs) n turn found
    by_cases this : n = d.turn
    · subst this
      obtain rfl := Option.some.inj (found_own.symm.trans found)
      rw [owner, self]
      rw [owner, sending] at before
      simp only [Phase.untold, Phase.dispatch, if_pos, next] at before ⊢
      by_cases here : e.sessionId = y
      · subst here
        obtain more | ⟨-, left⟩ := handed
        · rw [toldTo_cons_self] at before
          have notice : noticesOf [⟨d.turn, e.payload⟩] d.turn = [e.payload] := by
            simp [noticesOf]
          rw [Service.notices, socket, more, ← List.append_assoc, noticesOf_append, notice,
            List.append_assoc]
          exact before
        · exact absurd left (runs_before runs)
      · rw [toldTo_cons_other here] at before
        rw [Service.notices, socket, others y (Ne.symm here)]
        exact before
    · have same : (s'.phase turn.session).untold n y = (s.phase turn.session).untold n y := by
        by_cases here : turn.session = x
        · rw [here, self, sending]
          simp [Phase.untold, Phase.dispatch, Ne.symm this]
        · rw [rest _ here]
      have notices : noticesOf (s'.notices y) n = noticesOf (s.notices y) n := by
        by_cases here : y = e.sessionId
        · subst here
          obtain more | ⟨kept, -⟩ := handed
          · have notice : noticesOf [⟨d.turn, e.payload⟩] n = [] :=
              noticesOf_other (by simpa using Ne.symm this)
            rw [Service.notices, socket, more, ← List.append_assoc, noticesOf_append, notice,
              List.append_nil]
            rfl
          · rw [Service.notices, socket, kept]
            rfl
        · rw [Service.notices, socket, others y here]
          rfl
      rw [same, notices]
      exact before
  · rw [history] at found
    rw [socket]
    exact h.written y n turn found

/-- A notification that is written was the first one in the channel. -/
theorem Delivers.notify (h : s.Delivers) (selecting : s.phase x = .selecting) {n : Notice}
    {rest : List Notice} (next : s.channel x = n :: rest) :
    ((s.write x (.notification n)).setChannel x rest).Delivers := by
  have others (y : SessionId) (other : y ≠ x) :
      ((s.write x (.notification n)).setChannel x rest).socket y = s.socket y :=
    Function.update_of_ne other _ _
  have self : ((s.write x (.notification n)).setChannel x rest).socket x =
      s.socket x ++ [.notification n] := Function.update_self _ _ _
  have notices (y : SessionId) :
      ((s.write x (.notification n)).setChannel x rest).notices y = s.notices y := by
    by_cases here : y = x
    · subst here
      have channel : ((s.write y (.notification n)).setChannel y rest).channel y = rest :=
        Function.update_self _ _ _
      rw [Service.notices, self, channel, Service.notices, next, List.filterMap_append,
        List.append_assoc]
      rfl
    · have channel : ((s.write x (.notification n)).setChannel x rest).channel y = s.channel y :=
        Function.update_of_ne here _ _
      rw [Service.notices, others y here, channel]
      rfl
  have once : ∀ y, ¬ (s.phase y).Out → ∀ n' turn, s.history[n']? = some turn →
      noticesOf (((s.write x (.notification n)).setChannel x rest).notices y) n' ++
        (s.phase turn.session).untold n' y = toldTo turn.events y := by
    intro y runs n' turn found
    rw [notices]
    exact h.once y runs n' turn found
  refine ⟨fun y notice mem => h.numbered y notice (notices y ▸ mem), h.owns, h.sent, once,
    fun y n' turn found => ?_⟩
  by_cases here : y = x
  · subst here
    have all := once y (by simp [selecting, Phase.Out]) n' turn found
    rw [Service.notices, noticesOf_append, List.append_assoc] at all
    exact ⟨_, all⟩
  · rw [others y here]
    exact h.written y n' turn found

theorem Delivers.leave (h : s.Delivers)
    (before : ∀ d, (s.phase x).dispatch = some d → d.events = []) : (s.leave x).Delivers :=
  h.idle rfl rfl (fun _ => rfl) rfl (fun _ => .inl rfl) before (by simp [Phase.dispatch])

theorem Delivers.proceed (h : s.Delivers) {d : Dispatch} (replying : s.phase x = .replying d)
    (socket : ∀ y, (s'.socket y).filterMap Frame.notice? = (s.socket y).filterMap Frame.notice?)
    (closes : Bool) (phase : s'.phase = s.phase) (history : s'.history = s.history)
    (channel : s'.channel = s.channel) : (s'.proceed x closes).Delivers := by
  obtain ⟨-, history', socket', phase'⟩ := s'.proceed_eq x closes
  have channel' : (s'.proceed x closes).channel = s.channel := by
    rw [← channel]
    cases closes <;> rfl
  refine h.idle (x := x) (phase ▸ phase') (history'.trans history) (fun y => socket' ▸ socket y)
    channel' (by simp [replying, Phase.Out]) (fun d' carried => ?_) ?_
  · rw [replying] at carried
    cases carried
    exact h.sent x d replying
  · cases closes <;> simp [Phase.dispatch]

theorem Delivers.step (h : s.Delivers) (sound : s.Sound) {a : Action} (step : s.Step a s') :
    s'.Delivers := by
  cases step with
  | connect done => exact h.connect sound done
  | @expire env closed server done =>
    exact h.quiet (x := closed) (Function.update_eq_self _ _).symm rfl (fun _ => rfl) rfl id
      (fun _ carried _ => carried) (fun _ _ => rfl) (h.sent closed)
  | enter connecting next alone =>
    exact h.idle rfl rfl (fun _ => rfl) rfl (by simp [connecting, Phase.Out])
      (by simp [connecting, Phase.dispatch]) (by simp [Phase.dispatch])
  | enterLost connecting next alone =>
    exact h.idle rfl rfl (fun _ => rfl) rfl (by simp [connecting, Phase.Out])
      (by simp [connecting, Phase.dispatch]) (by simp [Phase.dispatch])
  | receive selecting =>
    exact h.idle rfl rfl (fun _ => rfl) rfl (by simp [selecting, Phase.Out])
      (by simp [selecting, Phase.dispatch]) (by simp [Phase.dispatch])
  | crash selecting =>
    exact h.idle rfl rfl (fun _ => rfl) rfl (by simp [selecting, Phase.Out])
      (by simp [selecting, Phase.dispatch]) (by simp [Phase.dispatch])
  | touch applying done =>
    exact h.idle rfl rfl (fun _ => rfl) rfl (by simp [applying, Phase.Out])
      (by simp [applying, Phase.dispatch]) (by simp [Phase.dispatch])
  | handle applying done => exact h.apply applying
  | panic applying =>
    exact h.idle rfl rfl (fun _ => rfl) rfl (by simp [applying, Phase.Out])
      (by simp [applying, Phase.dispatch]) (by simp [Phase.dispatch])
  | ask applied =>
    exact h.quiet rfl rfl (fun _ => rfl) rfl (by simp [applied, Phase.Out])
      (fun _ carried _ => by rw [applied]; exact carried) (fun _ _ => by rw [applied]; rfl)
      (by simp)
  | acquire waiting next =>
    exact h.quiet rfl rfl (fun _ => rfl) rfl (by simp [waiting, Phase.Out])
      (fun _ carried _ => by rw [waiting]; exact carried) (fun _ _ => by rw [waiting]; rfl)
      (by simp)
  | send sending next reaches room =>
    refine h.forward sending next rfl rfl rfl (fun y other => ?_) (.inl ?_)
    · exact Function.update_of_ne other _ _
    · exact Function.update_self _ _ _
  | @discard x d e es sending next lost =>
    refine h.forward sending next rfl rfl rfl (fun _ _ => rfl) (.inr ⟨rfl, .inr ?_⟩)
    have joined : (s.phase e.sessionId).Joined :=
      sound.owed x e (by simp [sending, Phase.owes, next])
    by_contra runs
    exact lost ⟨sound.senders _ joined runs, runs⟩
  | finish sending sent =>
    exact h.quiet rfl rfl (fun _ => rfl) rfl (by simp [sending, Phase.Out])
      (fun _ carried _ => by rw [sending]; exact carried) (fun _ _ => by rw [sending]; rfl)
      (by rintro d' ⟨⟩; exact sent)
  | @reply x d r replying response =>
    refine h.proceed replying (fun y => ?_) d.closes rfl rfl rfl
    rw [socket_write]
    by_cases here : y = x
    · subst here
      rw [Function.update_self, List.filterMap_append]
      exact List.append_nil _
    · rw [Function.update_of_ne here]
  | @replyEmpty x d replying response =>
    exact h.proceed replying (fun _ => rfl) d.closes rfl rfl rfl
  | @replyLost x d r replying response =>
    refine h.leave fun d' carried => ?_
    rw [replying] at carried
    cases carried
    exact h.sent x d replying
  | notify selecting next => exact h.notify selecting next
  | @notifyLost x n rest selecting next =>
    refine h.moves (p := .leaving) (x := x) rfl rfl (fun _ => rfl)
      (fun y other => Function.update_of_ne other _ _) (fun runs => absurd (.inl rfl) runs) ?_
      (by simp [Phase.dispatch]) (fun n y => ?_) (by simp)
    · have channel : ((s.leave x).setChannel x rest).channel x = rest := Function.update_self _ _ _
      rw [channel, next]
      exact List.subset_cons_self _ _
    · rw [selecting]
      rfl
  | leave selecting => exact h.leave (by simp [selecting, Phase.dispatch])
  | exit leaving next alone =>
    exact h.idle rfl rfl (fun _ => rfl) rfl (fun _ => .inr rfl) (by simp [leaving, Phase.dispatch])
      (by simp [Phase.dispatch])

theorem Started.delivers (h : s.Started) : s.Delivers := by
  obtain ⟨dir, orders, server, -, rfl⟩ := h
  refine ⟨?_, ?_, ?_, ?_, ?_⟩
  · intro y notice mem
    simp [Service.notices, start] at mem
  · intro x d carried
    cases carried
  · intro x d at_d
    cases at_d
  · intro y runs n turn found
    simp [start] at found
  · intro y n turn found
    simp [start] at found

/-- In every run, each notification that a turn fired for a session is delivered once: what is on
the socket about the turn is a first part of what was fired, in the same order, and as long as the
loop of the session has not ended, the rest of it is in the channel or still to be sent. -/
theorem notices_delivered_once {s₀ : Service recordBytes} (started : s₀.Started) {as : List Action}
    (run : Run Step s₀ as s) (y : SessionId) {n : ℕ} {turn : Turn}
    (found : s.history[n]? = some turn) :
    noticesOf ((s.socket y).filterMap Frame.notice?) n <+: toldTo turn.events y ∧
      (¬ (s.phase y).Out →
        noticesOf ((s.socket y).filterMap Frame.notice?) n ++ noticesOf (s.channel y) n ++
          (s.phase turn.session).untold n y = toldTo turn.events y) := by
  have invariant := run.invariant (fun s => s.Sound ∧ s.Delivers) ⟨started.sound, started.delivers⟩
    fun _ _ _ h step => ⟨h.1.step step, h.2.step h.1 step⟩
  obtain ⟨-, delivers⟩ := invariant
  refine ⟨delivers.written y n turn found, fun runs => ?_⟩
  have all := delivers.once y runs n turn found
  rwa [Service.notices, noticesOf_append] at all

/-- A session changes the root, which it watches. -/
theorem notices_delivered_once_set : ∃ (s : Service fun _ => 1) (n : ℕ),
    noticesOf ((s.socket 1).filterMap Frame.notice?) n ++ noticesOf (s.channel 1) n =
      [⟨.changed, "/"⟩] := by
  obtain ⟨as₀, s₀, joins, flooded⟩ := initial_flooded
  have works : (Env.working 0).flush = .succeeds := rfl
  obtain ⟨as, s, touched, r, server', watches, ready, touch, sets, fired, -, -⟩ :=
    flooded.rewatch (Nat.zero_le _) works
  have room : (s.channel 1).length + r.watchEvents.length ≤ channelCapacity := by
    rw [ready.length, fired]
    decide
  obtain ⟨bs, changes⟩ := turn_answered (fun _ _ _ => trivial) ready.selecting ready.free touch
    sets trivial (by simp) (by simp [fired]) ready.reaches room
  have run := (joins.trans watches).trans (Under.run changes)
  let s' := s.answered 1 (.set ⟨"/", [], -1⟩) r server' 1
  have selects : s'.phase 1 = .selecting := ready.selecting
  have last : s'.history[s.history.length]? = some ⟨1, .set ⟨"/", [], -1⟩, r.watchEvents⟩ :=
    List.getElem?_concat_length
  have all := (notices_delivered_once initial_started run 1 last).2 (by
    simp [selects, Phase.Out, s'])
  refine ⟨s', s.history.length, ?_⟩
  rw [fired] at all
  have quiet : (s'.phase 1).untold s.history.length 1 = [] := by rw [selects]; rfl
  simpa [quiet, toldTo, s'] using all

end Service
end TinyKeeper
