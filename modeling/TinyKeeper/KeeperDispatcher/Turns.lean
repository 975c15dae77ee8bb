import TinyKeeper.KeeperDispatcher
import TinyKeeper.KeeperServer.Watches

/-! Undisturbed turns. While nobody else has the lock or asks for it, a session can join, and a
request is applied and answered as long as the channel that it notifies has room. -/
namespace TinyKeeper
namespace Service
variable {recordBytes : LogRecord → ℕ} {s : Service recordBytes} {x y : SessionId}

/-- A request of `x` that is about to be applied. -/
def applying (s : Service recordBytes) (x : SessionId) (xid : Int32) (req : Request)
    (server : KeeperServer recordBytes) : Service recordBytes :=
  { s.setPhase x (.applying (some (xid, req)) true) with server := server }

/-- The state once a request of `x` has been applied and has its notifications to send. -/
def acquired (s : Service recordBytes) (x : SessionId) (req : Request) (result : ApplyResult)
    (server : KeeperServer recordBytes) : Service recordBytes :=
  { s.setPhase x (.sending ⟨s.history.length, req = .close, some result.response,
      result.watchEvents⟩) with
    server := server
    lock := ⟨{x}, []⟩
    history := s.history ++ [⟨x, req, result.watchEvents⟩] }

/-- The state after a request of `x` that notified `y` and was answered. -/
def answered (s : Service recordBytes) (x : SessionId) (req : Request) (result : ApplyResult)
    (server : KeeperServer recordBytes) (y : SessionId) : Service recordBytes :=
  { (s.write x (.reply s.history.length result.response)).setChannel y
      (s.channel y ++ result.watchEvents.map fun e => ⟨s.history.length, e.payload⟩) with
    server := server
    history := s.history ++ [⟨x, req, result.watchEvents⟩] }

/-- The state after the handshake of session `x`. -/
def joined (s : Service recordBytes) (x : SessionId) (server : KeeperServer recordBytes) :
    Service recordBytes :=
  { (s.setPhase x .selecting).setChannel x [] with
    server := server, watchSenders := insert x s.watchSenders, tasks := insert x s.tasks }

/-- A run that meets a condition is a run. -/
theorem Under.run {C : Service recordBytes → Action → Prop} {s' : Service recordBytes}
    {as : List Action} (run : Run (Under C) s as s') : Run Step s as s' :=
  run.mono fun _ _ _ last => last.1

/-- No task is under way, and nothing is in the channels. -/
structure Idle (s : Service recordBytes) : Prop where
  phase : ∀ x, s.phase x = .absent ∨ s.phase x = .selecting
  free : s.lock = .free
  quiet : ∀ x, s.channel x = []

theorem Idle.owes (idle : s.Idle) (x : SessionId) : (s.phase x).owes = [] := by
  obtain absent | selecting := idle.phase x
  · rw [absent]
    rfl
  · rw [selecting]
    rfl

theorem Idle.joined (idle : s.Idle) (x : SessionId) (server : KeeperServer recordBytes) :
    (s.joined x server).Idle := by
  refine ⟨fun y => ?_, idle.free, fun y => ?_⟩
  · by_cases here : y = x
    · simp [Service.joined, setChannel, here]
    · simpa [Service.joined, setChannel, here] using idle.phase y
  · by_cases here : y = x
    · simp [Service.joined, here]
    · simpa [Service.joined, setPhase, here] using idle.quiet y

theorem Idle.answered (idle : s.Idle) (x : SessionId) (req : Request) {result : ApplyResult}
    (silent : result.watchEvents = []) (server : KeeperServer recordBytes) (y : SessionId) :
    (s.answered x req result server y).Idle := by
  refine ⟨idle.phase, idle.free, fun z => ?_⟩
  by_cases here : z = y
  · simp [Service.answered, here, silent, idle.quiet y]
  · simpa [Service.answered, write, here] using idle.quiet z

theorem initial_idle : (initial recordBytes).Idle := ⟨fun _ => .inl rfl, rfl, fun _ => rfl⟩

section Calm
variable {C : Service recordBytes → Action → Prop}
variable (calm : ∀ s a, (∀ x env, a ≠ .handle x env) → C s a)
include calm

/-- A dispatch sends all it has to one session, if there is room for all of it. -/
theorem sends_all {d : Dispatch} {es : List WatchEvent} (sending : s.phase x = .sending d)
    (events : d.events = es) (only : ∀ e ∈ es, e.sessionId = y) (reaches : s.Reaches y)
    (room : (s.channel y).length + es.length ≤ channelCapacity) :
    Run (Under C) s (es.map fun _ => .send x)
      ((s.setPhase x (.sending { d with events := [] })).setChannel y
        (s.channel y ++ es.map fun e => ⟨d.turn, e.payload⟩)) := by
  induction es generalizing s d with
  | nil =>
    obtain ⟨turn, closes, response, _⟩ := d
    cases events
    have same : s = (s.setPhase x (.sending ⟨turn, closes, response, []⟩)).setChannel y
        (s.channel y ++ []) := by
      simp [setPhase, setChannel, ← sending]
    rw [List.map_nil, List.map_nil, ← same]
    exact .nil
  | cons e es ih =>
    obtain rfl : e.sessionId = y := only e (List.mem_cons_self ..)
    rw [List.length_cons] at room
    let s₁ := (s.setPhase x (.sending { d with events := es })).setChannel e.sessionId
      (s.channel e.sessionId ++ [⟨d.turn, e.payload⟩])
    have first : s.Step (.send x) s₁ := .send sending events reaches (by omega)
    have runs : s₁.phase e.sessionId ≠ .gone := by
      by_cases here : e.sessionId = x
      · simp [s₁, setChannel, here]
      · simpa [s₁, setChannel, here] using reaches.2
    have more : (s₁.channel e.sessionId).length + es.length ≤ channelCapacity := by
      simp only [s₁, channel_setChannel, Function.update_self, List.length_append,
        List.length_singleton]
      omega
    have rest := ih (s := s₁) (d := { d with events := es }) (by simp [s₁, setChannel]) rfl
      (fun e mem => only e (List.mem_cons_of_mem _ mem)) ⟨reaches.1, runs⟩ more
    refine Run.cons_iff.mpr ⟨s₁, ⟨first, calm _ _ (by simp)⟩, ?_⟩
    simpa [s₁, setPhase, setChannel] using rest

section Turn
variable {xid : Int32} {req : Request} {result : ApplyResult} {env env' : Env}
variable {touched server : KeeperServer recordBytes}

/-- A request of a session that waits for one is applied. -/
theorem turn_applied (selecting : s.phase x = .selecting)
    (touch : s.server.exec env (.touch x) = .done .touched touched)
    (handle : touched.exec env' (.handle xid x req) = .done (.applied result) server)
    (may : C (s.applying x xid req touched) (.handle x env')) :
    ∃ as, Run (Under C) s as (s.apply x req result server) := by
  let s₁ := s.setPhase x (.applying (some (xid, req)) false)
  let s₂ := s.applying x xid req touched
  have receives : s.Step (.receive x (some (xid, req))) s₁ := .receive selecting
  have touches : s₁.Step (.touch x env) s₂ := by
    have at_s₁ : s₁.phase x = .applying (some (xid, req)) false := by simp [s₁]
    have step := Step.touch at_s₁ touch
    simpa [s₁, s₂, Service.applying, setPhase] using step
  have applies : s₂.Step (.handle x env') (s.apply x req result server) := by
    have step := Step.handle (s := s₂) (x := x) (by simp [s₂, Service.applying]) handle
    simpa [s₂, Service.applying, apply, setPhase] using step
  have run : Run (Under C) s _ s₂ :=
    (Run.single ⟨receives, calm _ _ (by simp)⟩).snoc ⟨touches, calm _ _ (by simp)⟩
  exact ⟨_, run.snoc ⟨applies, may⟩⟩

/-- With nobody else at the lock, the request then gets to its notifications. -/
theorem turn_acquired (selecting : s.phase x = .selecting) (free : s.lock = .free)
    (touch : s.server.exec env (.touch x) = .done .touched touched)
    (handle : touched.exec env' (.handle xid x req) = .done (.applied result) server)
    (may : C (s.applying x xid req touched) (.handle x env')) :
    ∃ as, Run (Under C) s as (s.acquired x req result server) := by
  obtain ⟨as, applied⟩ := turn_applied calm selecting touch handle may
  let d : Dispatch :=
    ⟨s.history.length, req = .close, some result.response, result.watchEvents⟩
  let s₁ := s.apply x req result server
  let s₂ := { s₁.setPhase x (.waiting d) with lock := s₁.lock.ask x .read }
  have asks : s₁.Step (.ask x) s₂ := .ask (by simp [s₁, apply, d, setPhase])
  have queue : s₂.lock.queue = [(x, .read)] := by
    have same : s₂.lock = s.lock.ask x .read := rfl
    rw [same, free]
    rfl
  have acquires : s₂.Step (.acquire x) (s.acquired x req result server) := by
    have step := Step.acquire (s := s₂) (x := x) (d := d) (by simp [s₂]) queue
    simpa [s₂, s₁, apply, acquired, setPhase, d, free, RwLock.ask, RwLock.acquire, RwLock.free]
      using step
  exact ⟨_, (applied.snoc ⟨asks, calm _ _ (by simp)⟩).snoc ⟨acquires, calm _ _ (by simp)⟩⟩

/-- With room for all of them the notifications are sent, and the request is answered. -/
theorem turn_answered (selecting : s.phase x = .selecting) (free : s.lock = .free)
    (touch : s.server.exec env (.touch x) = .done .touched touched)
    (handle : touched.exec env' (.handle xid x req) = .done (.applied result) server)
    (may : C (s.applying x xid req touched) (.handle x env'))
    (stays : req ≠ .close) (only : ∀ e ∈ result.watchEvents, e.sessionId = y)
    (reaches : s.Reaches y)
    (room : (s.channel y).length + result.watchEvents.length ≤ channelCapacity) :
    ∃ as, Run (Under C) s as (s.answered x req result server y) := by
  obtain ⟨as, acquired⟩ := turn_acquired calm selecting free touch handle may
  let d : Dispatch :=
    ⟨s.history.length, req = .close, some result.response, result.watchEvents⟩
  let s₁ := s.acquired x req result server
  have runs : s₁.phase y ≠ .gone := by
    by_cases here : y = x
    · simp [s₁, Service.acquired, here]
    · simpa [s₁, Service.acquired, here] using reaches.2
  have sends := sends_all calm (s := s₁) (x := x) (d := d) (by simp [s₁, Service.acquired, d]) rfl
    only ⟨reaches.1, runs⟩ room
  let s₂ := (s₁.setPhase x (.sending { d with events := [] })).setChannel y
    (s₁.channel y ++ result.watchEvents.map fun e => ⟨d.turn, e.payload⟩)
  let s₃ := { s₂.setPhase x (.replying { d with events := [] }) with lock := s₂.lock.release x }
  have finishes : s₂.Step (.finish x) s₃ := .finish (by simp [s₂, setChannel]) rfl
  have replies : s₃.Step (.reply x) (s.answered x req result server y) := by
    have step := Step.reply (s := s₃) (x := x) (d := { d with events := [] }) (by simp [s₃]) rfl
    have again : Function.update s.phase x .selecting = s.phase := by
      rw [← selecting, Function.update_eq_self]
    simpa [s₃, s₂, s₁, stays, Service.acquired, answered, proceed, write, setPhase, setChannel,
      again, free, RwLock.release, RwLock.free, d] using step
  exact ⟨_, ((acquired.trans sends).snoc ⟨finishes, calm _ _ (by simp)⟩).snoc
    ⟨replies, calm _ _ (by simp)⟩⟩

/-- A session reads a node, and watches it from then on. -/
theorem watch_answered (selecting : s.phase x = .selecting) (free : s.lock = .free)
    (reaches : s.Reaches x) (room : (s.channel x).length ≤ channelCapacity) (env : Env)
    (xid : Int32) (path : String)
    (may : ∀ result server, (s.server.touchSession env.now x).exec env
        (.handle xid x (.get ⟨path, true⟩)) = .done (.applied result) server →
      result.watchEvents = [] →
      C (s.applying x xid (.get ⟨path, true⟩) (s.server.touchSession env.now x))
        (.handle x env)) :
    ∃ as r, r.watchEvents = [] ∧ Run (Under C) s as (s.answered x (.get ⟨path, true⟩) r
      ((s.server.touchSession env.now x).watching x path) x) := by
  let touched := s.server.touchSession env.now x
  have touch : s.server.exec env (.touch x) = .done .touched touched := rfl
  obtain ⟨r, gets, quiet⟩ := KeeperServer.exec_get_watching env xid x path (s := touched)
  obtain ⟨as, reads⟩ := turn_answered calm selecting free touch gets (may r _ gets quiet) (by simp)
    (by simp [quiet]) reaches (by simpa [quiet] using room)
  exact ⟨as, r, quiet, reads⟩

end Turn

/-- With nobody else at the lock, a handshake is completed. -/
theorem handshake_joined {env : Env} {timeoutMs : Int} {server : KeeperServer recordBytes}
    (free : s.lock = .free)
    (done : s.server.exec env (.createSession timeoutMs) = .done (.session x) server) :
    Run (Under C) s [.connect env timeoutMs, .enter x] (s.joined x server) := by
  let s₁ : Service recordBytes := { (s.setPhase x .connecting).setChannel x [] with
    server := server, tasks := insert x s.tasks, lock := s.lock.ask x .write }
  have connects : s.Step (.connect env timeoutMs) s₁ := .connect done
  have queue : s₁.lock.queue = [(x, .write)] := by
    have same : s₁.lock = s.lock.ask x .write := rfl
    rw [same, free]
    rfl
  have enters : s₁.Step (.enter x) (s.joined x server) := by
    have step := Step.enter (s := s₁) (x := x) (by simp [s₁, setChannel]) queue
      (by simp [s₁, free, RwLock.ask, RwLock.free])
    simpa [s₁, joined, setPhase, setChannel, free, RwLock.ask, RwLock.pass, RwLock.free] using step
  exact (Run.single ⟨connects, calm _ _ (by simp)⟩).snoc ⟨enters, calm _ _ (by simp)⟩

end Calm

/-- The first client connects and makes two requests, the second of which may fire watches of its
own. -/
theorem initial_turns {env : Env} {timeoutMs : Int} {xid xid' : Int32} {req req' : Request}
    {result result' : ApplyResult}
    {server touched served touched' served' : KeeperServer recordBytes}
    (opens : (KeeperServer.initial recordBytes).exec env (.createSession timeoutMs) =
      .done (.session 1) server)
    (touch : server.exec env (.touch 1) = .done .touched touched)
    (first : touched.exec env (.handle xid 1 req) = .done (.applied result) served)
    (touch' : served.exec env (.touch 1) = .done .touched touched')
    (second : touched'.exec env (.handle xid' 1 req') = .done (.applied result') served')
    (stays : req ≠ .close) (stays' : req' ≠ .close) (quiet : result.watchEvents = [])
    (own : ∀ e ∈ result'.watchEvents, e.sessionId = 1)
    (room : result'.watchEvents.length ≤ channelCapacity) :
    ∃ (as as' : List Action) (s s' : Service recordBytes), Run Step (initial recordBytes) as s ∧
      Run Step s as' s' ∧ s'.phase = Function.update (fun _ => .absent) 1 .selecting ∧
      s'.socket 1 = [.reply 0 result.response, .reply 1 result'.response] ∧
      s'.channel 1 = result'.watchEvents.map (fun e => ⟨1, e.payload⟩) ∧
      s'.history = [⟨1, req, []⟩, ⟨1, req', result'.watchEvents⟩] := by
  have calm (s : Service recordBytes) (a : Action) : (∀ x env, a ≠ .handle x env) → True :=
    fun _ => trivial
  let s := (initial recordBytes).joined 1 server
  have joins : Run (Under fun _ _ => True) (initial recordBytes) _ s :=
    handshake_joined calm rfl opens
  have sender : 1 ∈ s.watchSenders := by simp [s, joined]
  obtain ⟨as, answered₁⟩ := turn_answered calm (s := s) (x := 1) (y := 1) rfl rfl touch first
    trivial stays (by simp [quiet]) ⟨sender, by simp [s, joined, setChannel]⟩
    (by simp [s, joined, quiet])
  let s₁ := s.answered 1 req result served 1
  have phase : s₁.phase = Function.update (fun _ => .absent) 1 .selecting := rfl
  have channel : s₁.channel 1 = [] := by simp [s₁, s, joined, answered, quiet]
  have turns : s₁.history.length = 1 := rfl
  obtain ⟨as', answered₂⟩ := turn_answered calm (s := s₁) (x := 1) (y := 1) (by simp [phase]) rfl
    touch' second trivial stays' own ⟨sender, by simp [phase]⟩ (by simpa [channel] using room)
  refine ⟨_, _, s, _, Under.run joins, Under.run (answered₁.trans answered₂), phase, ?_, ?_, ?_⟩
  · simp [answered, setChannel, write, s₁, s, joined, setPhase, initial, start]
  · simp [answered, channel, turns]
  · simp [answered, s₁, s, joined, setPhase, setChannel, quiet, initial, start]

/-- Session 1 watches the root, session 2 changes it, and session 1 hears of it and reads it
again. -/
theorem initial_hears {C : (Service fun _ => 1) → Action → Prop}
    (calm : ∀ s a, (∀ x env, a ≠ .handle x env) → C s a)
    (may : ∀ (s : Service fun _ => 1) x xid req touched result server, s.Idle →
      touched.exec (.working 0) (.handle xid x req) = .done (.applied result) server →
      result.watchEvents.length ≤ 1 →
      C (s.applying x xid req touched) (.handle x (.working 0))) :
    ∃ (as : List Action) (s : Service fun _ => 1) (r r' r'' : Reply),
      Run (Under C) (initial fun _ => 1) as s ∧
      s.socket 1 = [.reply 0 r, .notification ⟨1, ⟨.changed, "/"⟩⟩, .reply 2 r''] ∧
      s.socket 2 = [.reply 1 r'] ∧ s.server.storage.watchState.Registered .watch "/" 1 := by
  obtain ⟨first, second, n, opens, opens', stored, fresh⟩ : ∃ first second n,
      (KeeperServer.initial fun _ => 1).exec (.working 0) (.createSession 5000) =
        .done (.session 1) first ∧
      first.exec (.working 0) (.createSession 5000) = .done (.session 2) second ∧
      second.storage.map.get "/" = some n ∧ second.storage.watchState = .new :=
    ⟨_, _, _, rfl, rfl, rfl, rfl⟩
  let s₁ := (initial fun _ => 1).joined 1 first
  let s₂ := s₁.joined 2 second
  have idle₂ : s₂.Idle := (initial_idle.joined 1 first).joined 2 second
  have joins := handshake_joined calm (s := initial fun _ => 1) rfl opens
  have joins' := handshake_joined calm (s := s₁) rfl opens'
  have reaches : s₂.Reaches 1 := ⟨by simp [s₂, s₁, joined], by simp [s₂, s₁, joined, setChannel]⟩
  -- The read registers the watch.
  obtain ⟨as, r, quiet, reads⟩ := watch_answered calm (s := s₂) (x := 1) rfl rfl reaches
    (by simp [idle₂.quiet]) (.working 0) 1 "/"
    fun result server gets quiet => may s₂ 1 1 _ _ result server idle₂ gets (by simp [quiet])
  let watched := (second.touchSession 0 1).watching 1 "/"
  let s₃ := s₂.answered 1 (.get ⟨"/", true⟩) r watched 1
  have idle₃ : s₃.Idle := idle₂.answered 1 _ quiet watched 1
  -- The change fires it.
  let t₂ := watched.touchSession 0 2
  have touch₂ : watched.exec (.working 0) (.touch 2) = .done .touched t₂ := rfl
  obtain ⟨r', changed, sets, fired, -⟩ :=
    KeeperServer.exec_set_fires (s := t₂) (show (Env.working 0).flush = .succeeds from rfl)
      1 2 stored []
  have watching : t₂.storage.watchState = WatchState.new.register 1 "/" .watch := by
    rw [← fresh]
    rfl
  rw [watching, WatchState.fire_registered] at fired
  let s₄ := s₃.answered 2 (.set ⟨"/", [], -1⟩) r' changed 1
  obtain ⟨as', changes⟩ := turn_answered calm (s := s₃) (x := 2) (y := 1) rfl rfl touch₂ sets
    (may s₃ 2 1 _ t₂ r' changed idle₃ sets (by simp [fired])) (by simp) (by simp [fired])
    ⟨reaches.1, by simp [s₃, s₂, s₁, answered, joined, setChannel, write]⟩
    (by simp [fired, idle₃.quiet, channelCapacity])
  -- The session is told, and reads again.
  let notice : Notice := ⟨1, ⟨.changed, "/"⟩⟩
  let s₅ := (s₄.write 1 (.notification notice)).setChannel 1 []
  have waits : s₄.channel 1 = [notice] := by
    have turn : s₃.history.length = 1 := rfl
    simp [s₄, answered, fired, idle₃.quiet, notice, turn]
  have selecting : s₄.phase 1 = .selecting := rfl
  have hears : s₄.Step (.notify 1) s₅ := .notify selecting waits
  have idle₅ : s₅.Idle := by
    refine ⟨idle₃.phase, idle₃.free, fun y => ?_⟩
    by_cases here : y = 1
    · simp [s₅, here]
    · simpa [s₅, s₄, answered, write, here] using idle₃.quiet y
  obtain ⟨as'', r'', -, rereads⟩ := watch_answered calm (s := s₅) (x := 1) rfl rfl
    ⟨reaches.1, by simp [s₅, s₄, s₃, s₂, s₁, answered, joined, setChannel, write]⟩
    (by simp [idle₅.quiet]) (.working 0) 2 "/"
    fun result server gets quiet => may s₅ 1 2 _ _ result server idle₅ gets (by simp [quiet])
  have told : Run (Under C) s₄ [.notify 1] s₅ := .single ⟨hears, calm _ _ (by simp)⟩
  have run := ((((joins.trans joins').trans reads).trans changes).trans told).trans rereads
  refine ⟨_, _, r.response, r'.response, r''.response, run, ?_, ?_,
    WatchState.register_self _ _ _ _⟩
  · simp [s₅, s₄, s₃, s₂, s₁, answered, joined, setChannel, setPhase, write, initial, start, notice]
  · simp [s₅, s₄, s₃, s₂, s₁, answered, joined, setChannel, setPhase, write, initial, start]

end Service
end TinyKeeper
