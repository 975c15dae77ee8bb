import TinyKeeper.KeeperDispatcher
import TinyKeeper.KeeperServer.SessionIds
import TinyKeeper.KeeperServer.Watches

/-! What the tasks keep: the lock is as they see it, a session is told nothing before its handshake
is done, and it has a sender from then on until its loop has ended. -/
namespace TinyKeeper
namespace Service
variable {recordBytes : LogRecord → ℕ}

/-- The sessions that the server has opened are below the counter. -/
def nextSessionId (s : Service recordBytes) : SessionId :=
  s.server.storage.sessionState.nextSessionId

def stands (s : Service recordBytes) (x : SessionId) : Stand := (s.phase x).stand

structure Sound (s : Service recordBytes) : Prop where
  kept : s.server.storage.Kept
  lock : s.lock.Agrees s.stands
  issued : ∀ x, s.phase x ≠ .absent → x < s.nextSessionId
  spawned : ∀ x, s.phase x ≠ .absent → x ∈ s.tasks
  senders : ∀ x, (s.phase x).Joined → s.phase x ≠ .gone → x ∈ s.watchSenders
  watchers : ∀ t p x, s.server.storage.watchState.Registered t p x → (s.phase x).Joined
  fired : ∀ turn ∈ s.history, ∀ e ∈ turn.events, (s.phase e.sessionId).Joined
  owed : ∀ x, ∀ e ∈ (s.phase x).owes, (s.phase e.sessionId).Joined

/-- What one step of the task `x`, which is at `p` afterwards, does to the rest. -/
structure Moves (s s' : Service recordBytes) (x : SessionId) (p : Phase) : Prop where
  phase : s'.phase = Function.update s.phase x p
  joins : (s.phase x).Joined → p.Joined
  kept : s'.server.storage.Kept
  lock : s'.lock.Agrees (Function.update s.stands x p.stand)
  next : s.nextSessionId ≤ s'.nextSessionId
  issued : x < s'.nextSessionId
  tasks : s.tasks ⊆ s'.tasks
  spawned : x ∈ s'.tasks
  senders : ∀ y ∈ s.watchSenders, y ≠ x → y ∈ s'.watchSenders
  sender : p.Joined → p ≠ .gone → x ∈ s'.watchSenders
  watchers : ∀ t q y, s'.server.storage.watchState.Registered t q y →
    s.server.storage.watchState.Registered t q y ∨ (y = x ∧ p.Joined)
  fired : ∀ turn ∈ s'.history, turn ∈ s.history ∨ ∀ e ∈ turn.events, (s.phase e.sessionId).Joined
  owes : ∀ e ∈ p.owes, (s.phase e.sessionId).Joined

variable {s s' : Service recordBytes} {x : SessionId} {p : Phase}

theorem Moves.joined (h : s.Moves s' x p) {y : SessionId} (joined : (s.phase y).Joined) :
    (s'.phase y).Joined := by
  rw [h.phase]
  by_cases here : y = x
  · subst here
    rw [Function.update_self]
    exact h.joins joined
  · rwa [Function.update_of_ne here]

theorem Sound.moves (h : s.Sound) (move : s.Moves s' x p) : s'.Sound := by
  have other {y : SessionId} (ne : y ≠ x) : s'.phase y = s.phase y := by
    rw [move.phase, Function.update_of_ne ne]
  have self : s'.phase x = p := by rw [move.phase, Function.update_self]
  refine ⟨move.kept, ?_, fun y live => ?_, fun y live => ?_, fun y joined runs => ?_,
    fun t q y registered => ?_, fun turn mem e told => ?_, fun y e mem => ?_⟩
  · have same : s'.stands = Function.update s.stands x p.stand := by
      funext y
      by_cases here : y = x
      · subst here
        rw [stands, self, Function.update_self]
      · rw [stands, other here, Function.update_of_ne here, stands]
    rw [same]
    exact move.lock
  · by_cases here : y = x
    · exact here ▸ move.issued
    · rw [other here] at live
      exact (h.issued y live).trans_le move.next
  · by_cases here : y = x
    · exact here ▸ move.spawned
    · rw [other here] at live
      exact move.tasks (h.spawned y live)
  · by_cases here : y = x
    · subst here
      rw [self] at joined runs
      exact move.sender joined runs
    · rw [other here] at joined runs
      exact move.senders y (h.senders y joined runs) here
  · obtain before | ⟨rfl, joined⟩ := move.watchers t q y registered
    · exact move.joined (h.watchers t q y before)
    · rwa [self]
  · obtain before | fired := move.fired turn mem
    · exact move.joined (h.fired turn before e told)
    · exact move.joined (fired e told)
  · by_cases here : y = x
    · subst here
      rw [self] at mem
      exact move.joined (move.owes e mem)
    · rw [other here] at mem
      exact move.joined (h.owed y e mem)

theorem Sound.setChannel (h : s.Sound) (x : SessionId) (notices : List Notice) :
    (s.setChannel x notices).Sound :=
  ⟨h.kept, h.lock, h.issued, h.spawned, h.senders, h.watchers, h.fired, h.owed⟩

theorem Sound.write (h : s.Sound) (x : SessionId) (frame : Frame) : (s.write x frame).Sound :=
  ⟨h.kept, h.lock, h.issued, h.spawned, h.senders, h.watchers, h.fired, h.owed⟩

/-- A step of the task `x` that leaves everything but the task, its sender and the lock as it
is. -/
theorem Sound.moved (h : s.Sound) {old : Phase} (at_old : s.phase x = old) (live : old ≠ .absent)
    (joins : old.Joined → p.Joined) {senders : Finset SessionId}
    (keeps : ∀ y ∈ s.watchSenders, y ≠ x → y ∈ senders)
    (sender : p.Joined → p ≠ .gone → x ∈ senders) (owes : p.owes ⊆ old.owes)
    {lock : RwLock SessionId} (agrees : lock.Agrees (Function.update s.stands x p.stand)) :
    Sound { s.setPhase x p with watchSenders := senders, lock := lock } := by
  have here : s.phase x ≠ .absent := by rwa [at_old]
  exact h.moves {
    phase := rfl
    joins := by rwa [at_old]
    kept := h.kept
    lock := agrees
    next := Int.le_refl _
    issued := h.issued x here
    tasks := Finset.Subset.refl _
    spawned := h.spawned x here
    senders := keeps
    sender := sender
    watchers := fun _ _ _ => .inl
    fired := fun _ => .inl
    owes := fun e mem => h.owed x e (at_old ▸ owes mem) }

/-- The task of a session whose handshake is done has its sender, and keeps it. -/
theorem Sound.running (h : s.Sound) {old : Phase} (at_old : s.phase x = old) (joined : old.Joined)
    (runs : old ≠ .gone) (still : p.Joined) (owes : p.owes ⊆ old.owes) {lock : RwLock SessionId}
    (agrees : lock.Agrees (Function.update s.stands x p.stand)) :
    Sound { s.setPhase x p with lock := lock } :=
  h.moved at_old joined.1 (fun _ => still) (fun _ mem _ => mem)
    (fun _ _ => h.senders x (at_old ▸ joined) (at_old ▸ runs)) owes agrees

theorem Sound.stays (h : s.Sound) {old : Phase} (at_old : s.phase x = old)
    (same : p.stand = old.stand) : s.lock.Agrees (Function.update s.stands x p.stand) := by
  have before : s.stands x = old.stand := by rw [stands, at_old]
  rw [same, ← before, Function.update_eq_self]
  exact h.lock

/-- A step of such a task that has nothing to do with the lock. -/
theorem Sound.quiet (h : s.Sound) {old : Phase} (at_old : s.phase x = old) (joined : old.Joined)
    (runs : old ≠ .gone) (still : p.Joined) (same : p.stand = old.stand)
    (owes : p.owes ⊆ old.owes) : (s.setPhase x p).Sound :=
  h.running at_old joined runs still owes (h.stays at_old same)

theorem Sound.leave (h : s.Sound) {old : Phase} (at_old : s.phase x = old)
    (joined : old.Joined) (runs : old ≠ .gone) (idle : old.stand = .idle) : (s.leave x).Sound := by
  have stood : s.stands x = .idle := by rw [stands, at_old, idle]
  exact h.running (p := .leaving) at_old joined runs ⟨by simp, by simp⟩ (by simp [Phase.owes])
    (h.lock.ask stood)

theorem Sound.proceed (h : s.Sound) {d : Dispatch} (replying : s.phase x = .replying d)
    (closes : Bool) : (s.proceed x closes).Sound := by
  unfold Service.proceed
  split_ifs
  · exact h.leave replying ⟨by simp, by simp⟩ (by simp) rfl
  · exact h.quiet replying ⟨by simp, by simp⟩ (by simp) ⟨by simp, by simp⟩ rfl
      (by simp [Phase.owes])

theorem Sound.forward (h : s.Sound) {d : Dispatch} {e : WatchEvent} {es : List WatchEvent}
    (sending : s.phase x = .sending d) (next : d.events = e :: es) :
    (s.setPhase x (.sending { d with events := es })).Sound := by
  refine h.quiet sending ⟨by simp, by simp⟩ (by simp) ⟨by simp, by simp⟩ rfl ?_
  simp [Phase.owes, next]

/-- A step of the server leaves the registrations of the other sessions alone, and tells only
sessions that have one. -/
theorem Sound.served (h : s.Sound) {env : Env} {e : ServerEvent} {out : Output}
    {server : KeeperServer recordBytes} (done : s.server.exec env e = .done out server) :
    server.storage.Kept ∧
      s.nextSessionId ≤ server.storage.sessionState.nextSessionId ∧
      (∀ t p y, server.storage.watchState.Registered t p y →
        s.server.storage.watchState.Registered t p y ∨ ∃ xid req, e = .handle xid y req) ∧
      ∀ event ∈ out.watchEvents, (s.phase event.sessionId).Joined := by
  obtain ⟨out', op, done', move, -⟩ :=
    KeeperServer.Step.transition (e := (env, e)) ⟨out, done⟩ h.kept.linked
  rw [done, Exec.done.injEq] at done'
  obtain ⟨rfl, -⟩ := done'
  refine ⟨move.kept h.kept, (move.sessionMove h.kept.linked h.kept.covered).nextId_le,
    fun t p y => move.registered, fun event mem => ?_⟩
  obtain ⟨t, p, registered⟩ := move.told mem
  exact h.watchers t p _ registered

/-- A session that is opened has no task yet. -/
theorem Sound.fresh (h : s.Sound) {env : Env} {e : ServerEvent} {id : SessionId}
    {server : KeeperServer recordBytes} (done : s.server.exec env e = .done (.session id) server) :
    s.phase id = .absent := by
  obtain ⟨rfl, -⟩ := KeeperServer.exec_session done
  by_contra live
  exact lt_irrefl _ (h.issued _ live)

theorem Sound.connect (h : s.Sound) {env : Env} {timeoutMs : Int} {id : SessionId}
    {server : KeeperServer recordBytes}
    (done : s.server.exec env (.createSession timeoutMs) = .done (.session id) server) :
    Sound { (s.setPhase id .connecting).setChannel id [] with
      server := server, tasks := insert id s.tasks, lock := s.lock.ask id .write } := by
  obtain ⟨kept, next, registered, -⟩ := h.served done
  have fresh := h.fresh done
  obtain ⟨rfl, -⟩ := KeeperServer.exec_session done
  have counted : s.server.storage.sessionState.nextSessionId <
      server.storage.sessionState.nextSessionId := by
    cases done
    exact Int.lt_succ _
  refine h.moves (p := .connecting) {
    phase := rfl
    joins := fun joined => absurd fresh joined.1
    kept := kept
    lock := h.lock.ask (by rw [stands, fresh]; rfl)
    next := next
    issued := counted
    tasks := Finset.subset_insert _ _
    spawned := Finset.mem_insert_self _ _
    senders := fun _ mem _ => mem
    sender := fun joined => absurd rfl joined.2
    watchers := fun t p y watch => .inl ((registered t p y watch).resolve_right (by simp))
    fired := fun _ => .inl
    owes := by simp [Phase.owes] }

/-- A step of the server on behalf of the task `x`. -/
theorem Sound.serve (h : s.Sound) {payload : Payload} {touched : Bool}
    (applying : s.phase x = .applying payload touched) {env : Env} {e : ServerEvent} {out : Output}
    {server : KeeperServer recordBytes} (done : s.server.exec env e = .done out server)
    (own : ∀ xid y req, e = .handle xid y req → y = x) (joined : p.Joined)
    (idle : p.stand = .idle) (owes : p.owes ⊆ out.watchEvents) {history : List Turn}
    (fired : ∀ turn ∈ history, turn ∈ s.history ∨ turn.events = out.watchEvents) :
    Sound { s.setPhase x p with server := server, history := history } := by
  obtain ⟨kept, next, registered, told⟩ := h.served done
  have sender : x ∈ s.watchSenders :=
    h.senders x (by simp [applying, Phase.Joined]) (by simp [applying])
  refine h.moves (x := x) (p := p) {
    phase := rfl
    joins := fun _ => joined
    kept := kept
    lock := h.stays applying idle
    next := next
    issued := (h.issued x (by simp [applying])).trans_le next
    tasks := Finset.Subset.refl _
    spawned := h.spawned x (by simp [applying])
    senders := fun _ mem _ => mem
    sender := fun _ _ => sender
    watchers := fun t q y watch => ?_
    fired := fun turn mem => ?_
    owes := fun event mem => told event (owes mem) }
  · refine (registered t q y watch).imp_right ?_
    rintro ⟨xid, req, same⟩
    exact ⟨own xid y req same, joined⟩
  · refine (fired turn mem).imp_right fun here => ?_
    rw [here]
    exact told

theorem Sound.step (h : s.Sound) {a : Action} (step : s.Step a s') : s'.Sound := by
  cases step with
  | connect done => exact h.connect done
  | expire done =>
    obtain ⟨kept, next, registered, -⟩ := h.served done
    refine ⟨kept, h.lock, fun x live => (h.issued x live).trans_le next, h.spawned, h.senders,
      fun t p x watch => h.watchers t p x ?_, h.fired, h.owed⟩
    exact (registered t p x watch).resolve_right (by simp)
  | enter connecting next alone =>
    exact h.moved connecting (by simp) (fun _ => ⟨by simp, by simp⟩)
      (fun _ mem _ => Finset.mem_insert_of_mem mem) (fun _ _ => Finset.mem_insert_self _ _)
      (by simp [Phase.owes]) (h.lock.pass next)
  | enterLost connecting next alone =>
    exact h.moved connecting (by simp) (fun _ => ⟨by simp, by simp⟩)
      (fun _ mem _ => Finset.mem_insert_of_mem mem) (fun _ gone => absurd rfl gone)
      (by simp [Phase.owes]) (h.lock.pass next)
  | receive selecting =>
    exact h.quiet selecting ⟨by simp, by simp⟩ (by simp) ⟨by simp, by simp⟩ rfl
      (by simp [Phase.owes])
  | crash selecting =>
    exact h.quiet selecting ⟨by simp, by simp⟩ (by simp) ⟨by simp, by simp⟩ rfl
      (by simp [Phase.owes])
  | touch applying done =>
    exact h.serve applying done (by simp) ⟨by simp, by simp⟩ rfl (by simp [Phase.owes])
      (fun _ => .inl)
  | handle applying done =>
    refine h.serve applying done (by simp) ⟨by simp, by simp⟩ rfl (List.Subset.refl _) ?_
    intro turn mem
    refine (List.mem_append.mp mem).imp_right fun last => ?_
    rw [List.mem_singleton.mp last]
    rfl
  | panic applying =>
    exact h.quiet applying ⟨by simp, by simp⟩ (by simp) ⟨by simp, by simp⟩ rfl
      (by simp [Phase.owes])
  | ask applied =>
    exact h.running applied ⟨by simp, by simp⟩ (by simp) ⟨by simp, by simp⟩ (by simp [Phase.owes])
      (h.lock.ask (by rw [stands, applied]; rfl))
  | acquire waiting next =>
    exact h.running waiting ⟨by simp, by simp⟩ (by simp) ⟨by simp, by simp⟩ (by simp [Phase.owes])
      (h.lock.acquire next)
  | send sending next reaches room => exact (h.forward sending next).setChannel _ _
  | discard sending next lost => exact h.forward sending next
  | finish sending sent =>
    exact h.running sending ⟨by simp, by simp⟩ (by simp) ⟨by simp, by simp⟩ (by simp [Phase.owes])
      (h.lock.release (by rw [stands, sending]; rfl))
  | reply replying response => exact (h.write _ _).proceed replying _
  | replyEmpty replying response => exact h.proceed replying _
  | replyLost replying response => exact h.leave replying ⟨by simp, by simp⟩ (by simp) rfl
  | notify selecting next => exact (h.write _ _).setChannel _ _
  | notifyLost selecting next =>
    exact (h.leave selecting ⟨by simp, by simp⟩ (by simp) rfl).setChannel _ _
  | leave selecting => exact h.leave selecting ⟨by simp, by simp⟩ (by simp) rfl
  | exit leaving next alone =>
    exact h.moved leaving (by simp) (fun _ => ⟨by simp, by simp⟩)
      (fun _ mem other => Finset.mem_erase.mpr ⟨other, mem⟩) (fun _ gone => absurd rfl gone)
      (by simp [Phase.owes]) (h.lock.pass next)

theorem initial_started : (initial recordBytes).Started :=
  ⟨_, _, _, KeeperServer.new_empty fun _ => ⟨.choice, .choice, .choice⟩, rfl⟩

theorem Started.sound (h : s.Started) : s.Sound := by
  obtain ⟨dir, orders, server, started, rfl⟩ := h
  have kept : server.storage.Kept := (KeeperServer.Reachable.started started).kept
  refine ⟨kept, RwLock.free_agrees fun _ => rfl, ?_, ?_, ?_, ?_, ?_, ?_⟩
  · exact fun x live => absurd rfl live
  · exact fun x live => absurd rfl live
  · exact fun x joined => absurd rfl joined.1
  · intro t p x watch
    have empty : server.storage.watchState = .new :=
      (KeeperServer.new_replays started).invariant (fun st => st.watchState = .new) rfl
        (fun _ _ _ empty last => (KeeperStorage.Replays.watchState last).trans empty)
    obtain ⟨sessions, found, -⟩ : WatchState.Registered .new t p x := empty ▸ watch
    cases t <;> cases found
  · intro turn mem
    cases mem
  · intro x e mem
    cases mem

end Service
end TinyKeeper
