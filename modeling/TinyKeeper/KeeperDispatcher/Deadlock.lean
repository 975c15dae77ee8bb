import TinyKeeper.KeeperDispatcher.Load
import TinyKeeper.KeeperDispatcher.Turns

/-! Waiting for room. A call of `dispatch` holds the lock while it waits for room in a channel, and
the receiver of that channel may be in a call of its own; whether the tasks can block one another
depends on how many notifications are under way to one session. -/
namespace TinyKeeper

/-- Where a task is once all that has been applied is handed over, and the lock is free. -/
def Phase.settled : Phase → Phase
  | .applied d | .waiting d | .sending d => .replying { d with events := [] }
  | .connecting => .selecting
  | .leaving => .gone
  | p => p

/-- The steps that a task is away from there. -/
def Phase.distance : Phase → ℕ
  | .applied d => d.events.length + 3
  | .waiting d => d.events.length + 2
  | .sending d => d.events.length + 1
  | .connecting | .leaving => 1
  | _ => 0

namespace Service
variable {recordBytes : LogRecord → ℕ}

/-- The steps of the tasks among themselves: no request, no reply and no client takes part. -/
def Action.Internal : Action → Prop
  | .ask _ | .acquire _ | .send _ | .finish _ | .enter _ | .exit _ => True
  | _ => False

/-- The task `x` cannot go on before the task `y` does: it has a notification for `y`, whose channel
is full, or `y` has to be done with the lock first. -/
inductive WaitsFor (s : Service recordBytes) (x y : SessionId) : Prop
  | room {d : Dispatch} {e : WatchEvent} {es : List WatchEvent} (sending : s.phase x = .sending d)
      (next : d.events = e :: es) (receiver : e.sessionId = y) (reaches : s.Reaches y)
      (full : channelCapacity ≤ (s.channel y).length)
  | lock (waits : s.lock.Waits x y)

/-- No tasks wait for each other in a circle, and by themselves they can get to where every call of
`dispatch` whose request has been applied has returned, and every task that asked for the lock in
order to write has had it. -/
structure DeadlockFree (s : Service recordBytes) : Prop where
  acyclic : ∀ x, ¬ Relation.TransGen s.WaitsFor x x
  settles : ∃ as t, Run (fun s a s' => s.Step a s' ∧ a.Internal) s as t ∧
    ∀ x, t.phase x = (s.phase x).settled

variable {s s' : Service recordBytes} {x y : SessionId} {p : Phase}

theorem Bounded.acyclic (h : s.Bounded) (hs : s.Sound) (x : SessionId) :
    ¬ Relation.TransGen s.WaitsFor x x := by
  intro cycle
  refine RwLock.waits_acyclic hs.lock x (Relation.TransGen.mono (fun y z waits => ?_) x x cycle)
  cases waits with
  | room sending next receiver reaches full =>
    subst receiver
    exact absurd full (h.room hs sending next reaches).not_ge
  | lock waits => exact waits

/-- One step of the task `x` by itself, towards where it settles. -/
structure Nears (s : Service recordBytes) (a : Action) (s' : Service recordBytes) (x : SessionId)
    (p : Phase) : Prop where
  step : s.Step a s'
  internal : a.Internal
  phase : s'.phase = Function.update s.phase x p
  tasks : s'.tasks = s.tasks
  settled : p.settled = (s.phase x).settled
  nearer : p.distance < (s.phase x).distance

theorem Nears.of_phase {old : Phase} {a : Action} (at_old : s.phase x = old) (step : s.Step a s')
    (internal : a.Internal) (phase : s'.phase = Function.update s.phase x p)
    (tasks : s'.tasks = s.tasks) (settled : p.settled = old.settled)
    (nearer : p.distance < old.distance) : s.Nears a s' x p := by
  subst at_old
  exact ⟨step, internal, phase, tasks, settled, nearer⟩

/-- A call of `dispatch` that has the lock goes on, if there is room for what it sends next. -/
theorem Sound.sender_nears {d : Dispatch} (sending : s.phase x = .sending d)
    (room : ∀ e es, d.events = e :: es → s.Reaches e.sessionId →
      (s.channel e.sessionId).length < channelCapacity) : ∃ a s' p, s.Nears a s' x p := by
  cases next : d.events with
  | nil =>
    have same : { d with events := [] } = d := by rw [← next]
    exact ⟨_, _, _, .of_phase sending (.finish sending next) trivial rfl rfl
      (congrArg Phase.replying same.symm) (Nat.succ_pos _)⟩
  | cons e es =>
    have nearer : (Phase.sending { d with events := es }).distance <
        (Phase.sending d).distance := by
      rw [Phase.distance, Phase.distance, next]
      exact Nat.lt_succ_self _
    by_cases reaches : s.Reaches e.sessionId
    · exact ⟨_, _, _, .of_phase sending (.send sending next reaches (room e es next reaches))
        trivial rfl rfl rfl nearer⟩
    · exact ⟨_, _, _, .of_phase sending (.discard sending next reaches) trivial rfl rfl rfl nearer⟩

/-- Where no call of `dispatch` has the lock, the task that asked first gets it. -/
theorem Sound.head_nears (h : s.Sound) (alone : s.lock.readers = ∅) {m : Access}
    {rest : List (SessionId × Access)} (next : s.lock.queue = (x, m) :: rest) :
    ∃ a s' p, s.Nears a s' x p := by
  have asks : (s.phase x).stand = .asks m := (h.lock.head_split next).1
  cases at_x : s.phase x with
  | waiting d =>
    rw [at_x] at asks
    cases asks
    exact ⟨_, _, _, .of_phase at_x (.acquire at_x next) trivial rfl rfl rfl (Nat.lt_succ_self _)⟩
  | connecting =>
    rw [at_x] at asks
    cases asks
    exact ⟨_, _, _, .of_phase at_x (.enter at_x next alone) trivial rfl rfl rfl
      (Nat.lt_succ_self _)⟩
  | leaving =>
    rw [at_x] at asks
    cases asks
    exact ⟨_, _, _, .of_phase at_x (.exit at_x next alone) trivial rfl rfl rfl (Nat.lt_succ_self _)⟩
  | _ =>
    rw [at_x] at asks
    cases asks

/-- While a task is not settled, it or one that it waits for can take a step by itself. -/
theorem Bounded.nears (h : s.Bounded) (hs : s.Sound) (away : (s.phase x).distance ≠ 0) :
    ∃ a s' y p, s.Nears a s' y p := by
  by_cases holds : ∃ y, y ∈ s.lock.readers
  · obtain ⟨y, reads⟩ := holds
    have stand : (s.phase y).stand = .holds := (hs.lock.holds y).mp reads
    cases sending : s.phase y with
    | sending d =>
      obtain ⟨a, s', p, nears⟩ := Sound.sender_nears sending fun e es => h.room hs sending
      exact ⟨a, s', y, p, nears⟩
    | _ =>
      rw [sending] at stand
      cases stand
  have alone : s.lock.readers = ∅ :=
    Finset.eq_empty_of_forall_notMem fun y reads => holds ⟨y, reads⟩
  cases queue : s.lock.queue with
  | cons head rest =>
    obtain ⟨a, s', p, nears⟩ := hs.head_nears alone queue
    exact ⟨a, s', head.1, p, nears⟩
  | nil =>
    have free : (s.phase x).stand = .idle := by
      cases stand : (s.phase x).stand with
      | idle => rfl
      | asks m =>
        have listed := (hs.lock.asks x m).mpr stand
        rw [queue] at listed
        cases listed
      | holds => exact absurd ⟨x, (hs.lock.holds x).mpr stand⟩ holds
    cases applied : s.phase x with
    | applied d =>
      exact ⟨_, _, x, _, .of_phase applied (.ask applied) trivial rfl rfl rfl
        (Nat.lt_succ_self _)⟩
    | waiting | sending | connecting | leaving =>
      rw [applied] at free
      cases free
    | _ =>
      rw [applied] at away
      exact absurd rfl away

theorem Phase.settled_eq_self {p : Phase} (near : p.distance = 0) : p.settled = p := by
  cases p with
  | applied | waiting | sending | connecting | leaving => cases near
  | _ => rfl

theorem Action.Internal.careful {a : Action} (h : a.Internal) : s.Careful a := by
  cases a with
  | handle => cases h
  | _ => trivial

theorem Nears.distance_lt {a : Action} (h : s.Nears a s' x p) (spawned : x ∈ s.tasks) :
    ∑ y ∈ s'.tasks, (s'.phase y).distance < ∑ y ∈ s.tasks, (s.phase y).distance := by
  rw [h.tasks]
  refine Finset.sum_lt_sum (fun y _ => ?_) ⟨x, spawned, ?_⟩
  · by_cases here : y = x
    · subst here
      rw [h.phase, Function.update_self]
      exact h.nearer.le
    · rw [h.phase, Function.update_of_ne here]
  · rw [h.phase, Function.update_self]
    exact h.nearer

theorem Nears.settled_eq {a : Action} (h : s.Nears a s' x p) (y : SessionId) :
    (s'.phase y).settled = (s.phase y).settled := by
  rw [h.phase]
  by_cases here : y = x
  · subst here
    rw [Function.update_self, h.settled]
  · rw [Function.update_of_ne here]

theorem Bounded.settles (h : s.Bounded) (hs : s.Sound) :
    ∃ as t, Run (fun s a s' => s.Step a s' ∧ a.Internal) s as t ∧
      ∀ x, t.phase x = (s.phase x).settled := by
  let kept (t : Service recordBytes) : Prop :=
    t.Sound ∧ t.Bounded ∧ ∀ x, (t.phase x).settled = (s.phase x).settled
  have go (t : Service recordBytes) (keeps : kept t)
      (left : ∑ x ∈ t.tasks, (t.phase x).distance ≠ 0) :
      ∃ a u, (t.Step a u ∧ a.Internal) ∧ kept u ∧
        ∑ x ∈ u.tasks, (u.phase x).distance < ∑ x ∈ t.tasks, (t.phase x).distance := by
    obtain ⟨sound, bounded, same⟩ := keeps
    obtain ⟨x, -, away⟩ := Finset.exists_ne_zero_of_sum_ne_zero left
    obtain ⟨a, u, y, p, nears⟩ := bounded.nears sound away
    have live : t.phase y ≠ .absent := by
      intro absent
      have nearer := nears.nearer
      rw [absent] at nearer
      exact Nat.not_lt_zero _ nearer
    refine ⟨a, u, ⟨nears.step, nears.internal⟩, ⟨sound.step nears.step, ?_, fun z => ?_⟩,
      nears.distance_lt (sound.spawned y live)⟩
    · exact bounded.step sound nears.step nears.internal.careful
    · rw [nears.settled_eq, same]
  obtain ⟨as, t, run, ⟨sound, -, same⟩, done⟩ :=
    Run.exhaust kept _ go ⟨hs, h, fun _ => rfl⟩
  refine ⟨as, t, run, fun x => ?_⟩
  rw [← same, Phase.settled_eq_self]
  by_contra away
  refine away (Finset.sum_eq_zero_iff.mp done x (sound.spawned x ?_))
  intro absent
  rw [absent] at away
  exact away rfl

theorem Started.bounded (h : s.Started) : s.Bounded := by
  obtain ⟨dir, orders, server, started, rfl⟩ := h
  refine ⟨?_, ?_, ?_⟩
  · rintro x ⟨mem, -⟩
    cases mem
  · intro x mem
    cases mem
  · intro x connecting
    cases connecting

/-- In every run in which requests are applied with care, no tasks block each other. -/
theorem no_deadlock {s₀ : Service recordBytes} (started : s₀.Started) {as : List Action}
    (run : Run (Under Careful) s₀ as s) : s.DeadlockFree := by
  have kept : s.Sound ∧ s.Bounded :=
    run.invariant (fun t => t.Sound ∧ t.Bounded) ⟨started.sound, started.bounded⟩
      fun _ _ _ h last => ⟨h.1.step last.1, h.2.step h.1 last.1 last.2⟩
  exact ⟨kept.2.acyclic kept.1, kept.2.settles kept.1⟩

theorem careful_calm (s : Service recordBytes) (a : Action) (calm : ∀ x env, a ≠ .handle x env) :
    s.Careful a := by
  cases a with
  | handle x env => exact absurd rfl (calm x env)
  | _ => trivial

/-- A session has been told of a change of the root that another session made, and watches the root
again. -/
theorem no_deadlock_watching : ∃ (s : Service fun _ => 1) (r r'' : Reply),
    s.socket 1 = [.reply 0 r, .notification ⟨1, ⟨.changed, "/"⟩⟩, .reply 2 r''] ∧
      s.server.storage.watchState.Registered .watch "/" 1 ∧ s.DeadlockFree := by
  obtain ⟨as, s, r, r', r'', run, socket, -, watches⟩ := initial_hears careful_calm (by
    intro s x xid req touched result server idle handle few xid' req' result' server' applying done
      y listens
    rw [Service.applying, phase_setPhase, Function.update_self] at applying
    cases applying
    rw [show Service.server _ = touched from rfl, handle] at done
    cases done
    have silent : (s.applying x xid req touched).channel y = [] := idle.quiet y
    have owed (z : SessionId) : (s.applying x xid req touched).owedTo y z = 0 := by
      by_cases here : z = x
      · simp [owedTo, Service.applying, here, Phase.owes, notices]
      · simp [owedTo, Service.applying, here, idle.owes z, notices]
    have told : notices y result.watchEvents ≤ 1 := List.countP_le_length.trans few
    rw [load, silent]
    simp only [owed, List.length_nil, Finset.sum_const_zero, channelCapacity]
    omega)
  exact ⟨s, r, r'', socket, watches, no_deadlock initial_started run⟩

section Flood
variable {env : Env} {path : String} {k : ℕ}

/-- A session that waits for requests with `k` notifications in its channel, and that nobody shares
the watches at `path` with. -/
structure Flooded (s : Service recordBytes) (x : SessionId) (path : String) (k : ℕ) : Prop where
  selecting : s.phase x = .selecting
  free : s.lock = .free
  sender : x ∈ s.watchSenders
  stored : ∃ n, s.server.storage.map.get path = some n
  only : ∀ y, s.server.storage.watchState.Registered .watch path y → y = x
  length : (s.channel x).length = k

theorem Flooded.reaches (h : s.Flooded x path k) : s.Reaches x :=
  ⟨h.sender, by simp [h.selecting]⟩

/-- The session reads the node, and what it changes there next is then told to it alone. -/
theorem Flooded.rewatch (h : s.Flooded x path k) (fits : k ≤ channelCapacity)
    (works : env.flush = .succeeds) :
    ∃ as s' touched r server, Run Step s as s' ∧ s'.Flooded x path k ∧
      s'.server.exec env (.touch x) = .done .touched touched ∧
      touched.exec env (.handle 1 x (.set ⟨path, [], -1⟩)) = .done (.applied r) server ∧
      r.watchEvents = [⟨x, ⟨.changed, path⟩⟩] ∧
      (∃ n, server.storage.map.get path = some n) ∧
      ∀ y, ¬ server.storage.watchState.Registered .watch path y := by
  obtain ⟨n, stored⟩ := h.stored
  obtain ⟨as, r, quiet, reads⟩ := watch_answered (fun _ _ _ => trivial) h.selecting h.free h.reaches
    (by rwa [h.length]) env 1 path fun _ _ _ _ => trivial
  let watched := (s.server.touchSession env.now x).watching x path
  have registered : watched.storage.watchState.Registered .watch path x :=
    WatchState.register_self _ _ _ _
  have only (y : SessionId) (watches : watched.storage.watchState.Registered .watch path y) :
      y = x := by
    by_contra other
    exact other (h.only y (WatchState.registered_of_register other watches))
  let s₁ := s.answered x (.get ⟨path, true⟩) r watched x
  let again := watched.touchSession env.now x
  obtain ⟨r', server, sets, fired, left, found⟩ :=
    KeeperServer.exec_set_fires (s := again) works 1 x stored []
  refine ⟨_, s₁, again, r', server, Under.run reads, ?_, rfl, sets, ?_, found,
    fun y watches => ?_⟩
  · refine ⟨h.selecting, h.free, h.sender, ⟨n, stored⟩, only, ?_⟩
    simp [s₁, answered, quiet, h.length]
  · rw [fired]
    exact WatchState.fire_changed_eq _ _ registered only
  · rw [left] at watches
    exact WatchState.not_registered_fire_changed _ _ _ _ watches

theorem Flooded.grow (h : s.Flooded x path k) (fits : k < channelCapacity)
    (works : env.flush = .succeeds) : ∃ as s', Run Step s as s' ∧ s'.Flooded x path (k + 1) := by
  obtain ⟨as, s₁, touched, r, server, run, flooded, touch, sets, fired, stored, none⟩ :=
    h.rewatch fits.le works
  have room : (s₁.channel x).length + r.watchEvents.length ≤ channelCapacity := by
    rw [flooded.length, fired, List.length_singleton]
    exact fits
  obtain ⟨bs, changes⟩ := turn_answered (fun _ _ _ => trivial) flooded.selecting flooded.free touch
    sets trivial (by simp) (by simp [fired]) flooded.reaches room
  refine ⟨_, _, run.trans (Under.run changes), flooded.selecting, flooded.free,
    flooded.sender, stored, fun y watches => absurd watches (none y), ?_⟩
  simp [answered, fired, flooded.length]

theorem Flooded.fill (h : s.Flooded x path k) (works : env.flush = .succeeds) {m : ℕ}
    (fits : k + m ≤ channelCapacity) : ∃ as s', Run Step s as s' ∧ s'.Flooded x path (k + m) := by
  induction m with
  | zero => exact ⟨[], s, .nil, h⟩
  | succ m ih =>
    obtain ⟨as, s₁, run, flooded⟩ := ih (Nat.le_of_succ_le fits)
    obtain ⟨bs, s₂, more, fuller⟩ := flooded.grow fits works
    exact ⟨_, s₂, run.trans more, fuller⟩

/-- A session that changes what only it watches, and never gets to its channel in between, blocks
on that channel. -/
theorem Flooded.blocks (h : s.Flooded x path k) (fits : k ≤ channelCapacity)
    (works : env.flush = .succeeds) : ∃ as s', Run Step s as s' ∧ s'.WaitsFor x x := by
  obtain ⟨as, s₁, run, full⟩ := h.fill (m := channelCapacity - k) works (by omega)
  rw [Nat.add_sub_cancel' fits] at full
  obtain ⟨bs, s₂, touched, r, server, more, flooded, touch, sets, fired, -, -⟩ :=
    full.rewatch le_rfl works
  obtain ⟨cs, changes⟩ := turn_acquired (fun _ _ _ => trivial) flooded.selecting flooded.free touch
    sets trivial
  let s₃ := s₂.acquired x (.set ⟨path, [], -1⟩) r server
  let d : Dispatch := ⟨s₂.history.length, false, some r.response, r.watchEvents⟩
  have sending : s₃.phase x = .sending d := by simp [s₃, d, acquired]
  refine ⟨_, s₃, (run.trans more).trans (Under.run changes),
    .room sending fired rfl ⟨flooded.sender, by simp [sending]⟩ ?_⟩
  exact flooded.length.ge

end Flood

/-- The first session has connected, and nobody watches the root. -/
theorem initial_flooded : ∃ as s, Run Step (initial fun _ => 1) as s ∧ s.Flooded 1 "/" 0 := by
  obtain ⟨server, n, opens, stored, unwatched⟩ := KeeperServer.initial_createSession
  have joins := handshake_joined (fun _ _ _ => trivial) (s := initial fun _ => 1) rfl opens
  refine ⟨_, _, Under.run joins, rfl, rfl, by simp [joined], ⟨n, stored⟩, fun y watches => ?_, rfl⟩
  obtain ⟨sessions, found, -⟩ := watches
  change (server.storage.watchState.forwardMap .watch).get "/" = some sessions at found
  rw [unwatched] at found
  cases found

/-- Session 1 reads the root with a watch and then changes it, sixty-five times in a row. -/
theorem watcher_blocks_itself :
    ¬ ∀ (s₀ s : Service fun _ => 1) as, s₀.Started → Run Step s₀ as s → s.DeadlockFree := by
  intro all
  obtain ⟨as, s, joins, flooded⟩ := initial_flooded
  have works : (Env.working 0).flush = .succeeds := rfl
  obtain ⟨as', s', run, waits⟩ := flooded.blocks (Nat.zero_le _) works
  have blocked := all _ _ _ initial_started (joins.trans run)
  exact blocked.acyclic 1 (.single waits)

end Service
end TinyKeeper
