import Mathlib.Algebra.BigOperators.Group.Finset.Basic
import Mathlib.Algebra.Order.BigOperators.Group.Finset
import TinyKeeper.KeeperDispatcher.Tasks

/-! What is under way to a session: the notifications in its channel and those that calls of
`dispatch` have yet to send to it. Where requests are applied with care, there is room for them. -/
namespace TinyKeeper

/-- How many of the notifications are for session `x`. -/
def notices (x : SessionId) (es : List WatchEvent) : ℕ := es.countP (·.sessionId = x)

namespace Service
variable {recordBytes : LogRecord → ℕ}

/-- What the task `y` has yet to send to session `x`. -/
def owedTo (s : Service recordBytes) (x y : SessionId) : ℕ := notices x (s.phase y).owes

/-- The notifications under way to session `x`. -/
def load (s : Service recordBytes) (x : SessionId) : ℕ :=
  (s.channel x).length + ∑ y ∈ s.tasks, s.owedTo x y

/-- Session `x` is notified, and its loop has not ended. -/
def Listens (s : Service recordBytes) (x : SessionId) : Prop :=
  x ∈ s.watchSenders ∧ s.phase x ≠ .leaving ∧ s.phase x ≠ .gone

/-- A request is applied only if every listening session has room for all that is then under way to
it. -/
def Careful (s : Service recordBytes) : Action → Prop
  | .handle x env => ∀ xid req result server, s.phase x = .applying (some (xid, req)) true →
      s.server.exec env (.handle xid x req) = .done (.applied result) server →
      ∀ y, s.Listens y → s.load y + notices y result.watchEvents ≤ channelCapacity
  | _ => True

/-- Every listening session has room for all that is under way to it, and every session that is
leaving for what will be sent to it before it has left. -/
structure Bounded (s : Service recordBytes) : Prop where
  listens : ∀ x, s.Listens x → s.load x ≤ channelCapacity
  leaves : ∀ x, x ∈ s.watchSenders → s.phase x = .leaving →
    (s.channel x).length + ∑ y ∈ s.lock.ahead x, s.owedTo x y ≤ channelCapacity
  quiet : ∀ x, s.phase x = .connecting → s.channel x = []

variable {s s' : Service recordBytes} {x y : SessionId} {p : Phase}

theorem owedTo_update (phase : s'.phase = Function.update s.phase x p) (y : SessionId) :
    s'.owedTo y = Function.update (s.owedTo y) x (notices y p.owes) := by
  funext z
  by_cases here : z = x
  · subst here
    simp [owedTo, phase]
  · simp [owedTo, phase, here]

/-- Where the task `x` owes no more than before, nothing grows. -/
theorem sum_owedTo_le (phase : s'.phase = Function.update s.phase x p)
    (owes : notices y p.owes ≤ s.owedTo y x) (tasks : Finset SessionId) :
    ∑ z ∈ tasks, s'.owedTo y z ≤ ∑ z ∈ tasks, s.owedTo y z := by
  refine Finset.sum_le_sum fun z _ => ?_
  rw [owedTo_update phase]
  by_cases here : z = x
  · subst here
    simpa using owes
  · simp [here]

theorem sum_owedTo_of_notMem (phase : s'.phase = Function.update s.phase x p)
    {tasks : Finset SessionId} (absent : x ∉ tasks) :
    ∑ z ∈ tasks, s'.owedTo y z = ∑ z ∈ tasks, s.owedTo y z := by
  rw [owedTo_update phase]
  exact Finset.sum_update_of_notMem absent _ _

/-- What the task `x` owes more, or less, than before. -/
theorem sum_owedTo_of_mem (phase : s'.phase = Function.update s.phase x p)
    {tasks : Finset SessionId} (present : x ∈ tasks) :
    (∑ z ∈ tasks, s'.owedTo y z) + s.owedTo y x =
      (∑ z ∈ tasks, s.owedTo y z) + notices y p.owes := by
  rw [owedTo_update phase, Finset.sum_update_of_mem present,
    ← Finset.add_sum_erase tasks (s.owedTo y) present, Finset.sdiff_singleton_eq_erase]
  omega

theorem notices_le_of_sublist {es es' : List WatchEvent} (sub : es.Sublist es') (x : SessionId) :
    notices x es ≤ notices x es' :=
  sub.countP_le

/-- What is ahead of a task at the lock has been spawned. -/
theorem Sound.ahead_subset (h : s.Sound) (x : SessionId) : s.lock.ahead x ⊆ s.tasks := by
  intro y mem
  by_contra absent
  have unborn : s.phase y = .absent := by
    by_contra live
    exact absent (h.spawned y live)
  refine h.lock.not_mem_ahead ?_ mem
  rw [stands, unborn]
  rfl

/-- What has to be shown after a step of the task `x`: the other tasks leave, or are in their
handshake, as before. -/
theorem Bounded.of_task (phase : s'.phase = Function.update s.phase x p)
    (listens : ∀ y, s'.Listens y → s'.load y ≤ channelCapacity)
    (leaves_self : p = .leaving → x ∈ s'.watchSenders →
      (s'.channel x).length + ∑ z ∈ s'.lock.ahead x, s'.owedTo x z ≤ channelCapacity)
    (leaves : ∀ y, y ≠ x → y ∈ s'.watchSenders → s.phase y = .leaving →
      (s'.channel y).length + ∑ z ∈ s'.lock.ahead y, s'.owedTo y z ≤ channelCapacity)
    (quiet_self : p = .connecting → s'.channel x = [])
    (quiet : ∀ y, y ≠ x → s.phase y = .connecting → s'.channel y = []) : s'.Bounded := by
  have self : s'.phase x = p := by rw [phase, Function.update_self]
  have other {y : SessionId} (ne : y ≠ x) : s'.phase y = s.phase y := by
    rw [phase, Function.update_of_ne ne]
  refine ⟨listens, fun y mem leaving => ?_, fun y connecting => ?_⟩
  · by_cases here : y = x
    · subst here
      exact leaves_self (self.symm.trans leaving) mem
    · exact leaves y here mem ((other here).symm.trans leaving)
  · by_cases here : y = x
    · subst here
      exact quiet_self (self.symm.trans connecting)
    · exact quiet y here ((other here).symm.trans connecting)

/-- A session listens after a step of the task `x` if it did before. -/
theorem Listens.of_task {old : Phase} (at_old : s.phase x = old)
    (runs : old ≠ .leaving ∧ old ≠ .gone) (phase : s'.phase = Function.update s.phase x p)
    (senders : s'.watchSenders = s.watchSenders) (h : s'.Listens y) : s.Listens y := by
  refine ⟨senders ▸ h.1, ?_⟩
  by_cases here : y = x
  · rw [here, at_old]
    exact runs
  · have same : s'.phase y = s.phase y := by rw [phase, Function.update_of_ne here]
    rw [← same]
    exact h.2

/-- A step of the task `x` after which nothing more is under way. -/
theorem Bounded.moves (h : s.Bounded) (sound : s'.Sound)
    (phase : s'.phase = Function.update s.phase x p) (owes : ∀ y, notices y p.owes ≤ s.owedTo y x)
    (channel : ∀ y, (s'.channel y).length ≤ (s.channel y).length) (tasks : s'.tasks = s.tasks)
    (senders : ∀ y, y ≠ x → y ∈ s'.watchSenders → y ∈ s.watchSenders)
    (room : p ≠ .gone → x ∈ s'.watchSenders → s.load x ≤ channelCapacity)
    (joined : p ≠ .connecting)
    (ahead : ∀ y, y ≠ x → s.phase y = .leaving → s'.lock.ahead y ⊆ s.lock.ahead y) :
    s'.Bounded := by
  have self : s'.phase x = p := by rw [phase, Function.update_self]
  have le (y : SessionId) : s'.load y ≤ s.load y := by
    have sum := sum_owedTo_le phase (owes y) s.tasks
    have length := channel y
    rw [load, load, tasks]
    omega
  refine .of_task phase (fun y listening => ?_) (fun leaving mem => ?_)
    (fun y other mem leaving => ?_) (fun connecting => absurd connecting joined)
    fun y other connecting => ?_
  · refine (le y).trans ?_
    by_cases here : y = x
    · subst here
      exact room (self ▸ listening.2.2) listening.1
    · refine h.listens y ⟨senders y here listening.1, ?_⟩
      have same : s'.phase y = s.phase y := by rw [phase, Function.update_of_ne here]
      rw [← same]
      exact listening.2
  · have sub := Finset.sum_le_sum_of_subset (f := s'.owedTo x) (sound.ahead_subset x)
    have bound := room (by simp [leaving]) mem
    have less := le x
    rw [load] at less
    omega
  · have bound := h.leaves y (senders y other mem) leaving
    have sub := Finset.sum_le_sum_of_subset (f := s'.owedTo y) (ahead y other leaving)
    have sum := sum_owedTo_le phase (owes y) (s.lock.ahead y)
    have length := channel y
    omega
  · have length := channel y
    rw [h.quiet y connecting, List.length_nil, Nat.le_zero, List.length_eq_zero_iff] at length
    exact length

/-- Nothing is under way to a session before its handshake is done. -/
theorem Sound.owedTo_eq_zero (h : s.Sound) (out : ¬ (s.phase x).Joined) (y : SessionId) :
    s.owedTo x y = 0 := by
  rw [owedTo, notices, List.countP_eq_zero]
  intro e mem receiver
  rw [decide_eq_true_eq] at receiver
  exact out (receiver ▸ h.owed y e mem)

theorem Sound.load_eq (h : s.Sound) (out : ¬ (s.phase x).Joined) :
    s.load x = (s.channel x).length := by
  rw [load, Finset.sum_eq_zero fun y _ => h.owedTo_eq_zero out y, Nat.add_zero]

/-- A task that leaves keeps its place, whoever asks behind it. -/
theorem Sound.ahead_ask (h : s.Sound) (leaving : s.phase y = .leaving) (m : Access) :
    (s.lock.ask x m).ahead y = s.lock.ahead y := by
  refine RwLock.ahead_ask (List.mem_map.mpr ⟨(y, .write), ?_, rfl⟩)
  exact (h.lock.asks y .write).mpr (by rw [stands, leaving]; rfl)

theorem Bounded.connect (h : s.Bounded) (hs : s.Sound) {env : Env} {timeoutMs : Int}
    {id : SessionId} {server : KeeperServer recordBytes}
    (done : s.server.exec env (.createSession timeoutMs) = .done (.session id) server) :
    Bounded { (s.setPhase id .connecting).setChannel id [] with
      server := server, tasks := insert id s.tasks, lock := s.lock.ask id .write } := by
  have sound := hs.connect done
  set s' : Service recordBytes := { (s.setPhase id .connecting).setChannel id [] with
    server := server, tasks := insert id s.tasks, lock := s.lock.ask id .write }
  have phase : s'.phase = Function.update s.phase id .connecting := rfl
  have channel : s'.channel = Function.update s.channel id [] := rfl
  have nothing (y : SessionId) : notices y Phase.connecting.owes = 0 := rfl
  have sum (y : SessionId) (tasks : Finset SessionId) :
      ∑ z ∈ tasks, s'.owedTo y z ≤ ∑ z ∈ tasks, s.owedTo y z :=
    sum_owedTo_le phase (nothing y ▸ Nat.zero_le _) tasks
  refine .of_task phase (fun y listening => ?_) (by simp) (fun y other mem leaving => ?_)
    (fun _ => by rw [channel, Function.update_self]) fun y other connecting => ?_
  · by_cases here : y = id
    · subst here
      rw [sound.load_eq (by simp [phase, Phase.Joined]), channel, Function.update_self]
      exact Nat.zero_le _
    · have before : s.Listens y := ⟨listening.1, by simpa [phase, here] using listening.2⟩
      have bound := h.listens y before
      have same : ∑ z ∈ insert id s.tasks, s'.owedTo y z = ∑ z ∈ s.tasks, s'.owedTo y z := by
        refine Finset.sum_insert_of_eq_zero_if_notMem fun _ => ?_
        rw [owedTo_update phase, Function.update_self, nothing]
      have less := sum y s.tasks
      rw [load] at bound
      rw [load, channel, Function.update_of_ne here]
      change _ + ∑ z ∈ insert id s.tasks, s'.owedTo y z ≤ _
      omega
  · have bound := h.leaves y mem leaving
    have same : s'.lock.ahead y = s.lock.ahead y := hs.ahead_ask leaving .write
    have less := sum y (s.lock.ahead y)
    rw [same, channel, Function.update_of_ne other]
    omega
  · rw [channel, Function.update_of_ne other]
    exact h.quiet y connecting

theorem Bounded.apply (h : s.Bounded) (hs : s.Sound) {xid : Int32} {req : Request}
    {result : ApplyResult} {server : KeeperServer recordBytes}
    (applying : s.phase x = .applying (some (xid, req)) true)
    (careful : ∀ y, s.Listens y → s.load y + notices y result.watchEvents ≤ channelCapacity) :
    (s.apply x req result server).Bounded := by
  set s' := s.apply x req result server
  let d : Dispatch :=
    ⟨s.history.length, req = .close, some result.response, result.watchEvents⟩
  have phase : s'.phase = Function.update s.phase x (.applied d) := rfl
  have channel (y : SessionId) : s'.channel y = s.channel y := rfl
  have idle (y : SessionId) : s.owedTo y x = 0 := by simp [owedTo, applying, Phase.owes, notices]
  refine .of_task phase (fun y listening => ?_) (by simp) (fun y other mem leaving => ?_) (by simp)
    fun y _ connecting => h.quiet y connecting
  · have bound := careful y (listening.of_task applying ⟨by simp, by simp⟩ phase rfl)
    have sum := sum_owedTo_of_mem (y := y) phase (hs.spawned x (by simp [applying]))
    have none := idle y
    have owes : notices y (Phase.applied d).owes = notices y result.watchEvents := rfl
    rw [load] at bound ⊢
    change _ + ∑ z ∈ s.tasks, s'.owedTo y z ≤ _
    rw [channel]
    omega
  · have absent : x ∉ s.lock.ahead y := hs.lock.not_mem_ahead (by rw [stands, applying]; rfl)
    have same := sum_owedTo_of_notMem (y := y) phase absent
    have bound := h.leaves y mem leaving
    change _ + ∑ z ∈ s.lock.ahead y, s'.owedTo y z ≤ _
    rw [same]
    exact bound

/-- A notification that goes into a channel is under way as before. -/
theorem Bounded.send (h : s.Bounded) (hs : s.Sound) {d : Dispatch} {e : WatchEvent}
    {es : List WatchEvent} (sending : s.phase x = .sending d) (next : d.events = e :: es) :
    ((s.setPhase x (.sending { d with events := es })).setChannel e.sessionId
      (s.channel e.sessionId ++ [⟨d.turn, e.payload⟩])).Bounded := by
  set s' := (s.setPhase x (.sending { d with events := es })).setChannel e.sessionId
    (s.channel e.sessionId ++ [⟨d.turn, e.payload⟩])
  have phase : s'.phase = Function.update s.phase x (.sending { d with events := es }) := rfl
  have moved (y : SessionId) {tasks : Finset SessionId} (present : x ∈ tasks) :
      (s'.channel y).length + ∑ z ∈ tasks, s'.owedTo y z =
        (s.channel y).length + ∑ z ∈ tasks, s.owedTo y z := by
    have sum := sum_owedTo_of_mem (y := y) phase present
    have owed : s.owedTo y x = notices y es + if e.sessionId = y then 1 else 0 := by
      simp [owedTo, sending, Phase.owes, next, notices, List.countP_cons]
    have owes : notices y (Phase.sending { d with events := es }).owes = notices y es := rfl
    have channel : (s'.channel y).length =
        (s.channel y).length + if e.sessionId = y then 1 else 0 := by
      by_cases here : y = e.sessionId
      · subst here
        simp [s', setPhase]
      · simp [s', setPhase, here, Ne.symm here]
    omega
  refine .of_task phase (fun y listening => ?_) (by simp) (fun y other mem leaving => ?_) (by simp)
    fun y _ connecting => ?_
  · have bound := h.listens y (listening.of_task sending ⟨by simp, by simp⟩ phase rfl)
    have same := moved y (hs.spawned x (by simp [sending]))
    rw [load] at bound ⊢
    change _ + ∑ z ∈ s.tasks, s'.owedTo y z ≤ _
    omega
  · have holds : x ∈ s.lock.readers := (hs.lock.holds x).mpr (by rw [stands, sending]; rfl)
    have same := moved y (Finset.mem_union_left (s.lock.earlier y).toFinset holds)
    have bound := h.leaves y mem leaving
    change _ + ∑ z ∈ s.lock.ahead y, s'.owedTo y z ≤ _
    rw [RwLock.ahead] at bound ⊢
    omega
  · have joined : (s.phase e.sessionId).Joined :=
      hs.owed x e (by simp [sending, Phase.owes, next])
    have other : y ≠ e.sessionId := by
      intro here
      exact joined.2 (here ▸ connecting)
    simpa [s', setPhase, other] using h.quiet y connecting

/-- A step of a task whose loop has not ended, by which it owes no more. -/
theorem Bounded.quiet_step (h : s.Bounded) (sound : s'.Sound) {old : Phase}
    (at_old : s.phase x = old) (runs : old ≠ .leaving ∧ old ≠ .gone)
    (phase : s'.phase = Function.update s.phase x p) (owes : p.owes.Sublist old.owes)
    (channel : ∀ y, (s'.channel y).length ≤ (s.channel y).length) (tasks : s'.tasks = s.tasks)
    (senders : s'.watchSenders = s.watchSenders) (joined : p ≠ .connecting)
    (ahead : ∀ y, y ≠ x → s.phase y = .leaving → s'.lock.ahead y ⊆ s.lock.ahead y) :
    s'.Bounded := by
  refine h.moves sound phase (fun y => ?_) channel tasks (fun y _ mem => senders ▸ mem)
    (fun _ mem => h.listens x ⟨senders ▸ mem, at_old ▸ runs⟩) joined ahead
  rw [owedTo, at_old]
  exact notices_le_of_sublist owes y

theorem Bounded.leave (h : s.Bounded) (hs : s.Sound) (sound : (s.leave x).Sound) {old : Phase}
    (at_old : s.phase x = old) (runs : old ≠ .leaving ∧ old ≠ .gone) : (s.leave x).Bounded :=
  h.quiet_step sound at_old runs rfl (List.nil_sublist _) (fun _ => Nat.le_refl _) rfl rfl
    (by simp) fun y _ leaving => (hs.ahead_ask leaving .write).subset

theorem Bounded.write (h : s.Bounded) (x : SessionId) (frame : Frame) : (s.write x frame).Bounded :=
  ⟨h.listens, h.leaves, h.quiet⟩

theorem Bounded.proceed (h : s.Bounded) (hs : s.Sound) {d : Dispatch}
    (replying : s.phase x = .replying d) (closes : Bool) : (s.proceed x closes).Bounded := by
  have sound := hs.proceed replying closes
  unfold Service.proceed at sound ⊢
  split_ifs at sound ⊢
  · exact h.leave hs sound replying ⟨by simp, by simp⟩
  · exact h.quiet_step sound replying ⟨by simp, by simp⟩ rfl (List.nil_sublist _)
      (fun _ => Nat.le_refl _) rfl rfl (by simp) fun _ _ _ => Finset.Subset.refl _

/-- A shorter channel is no worse. -/
theorem Bounded.setChannel (h : s.Bounded) {notices : List Notice}
    (shorter : notices.length ≤ (s.channel x).length) : (s.setChannel x notices).Bounded := by
  have length (y : SessionId) : ((s.setChannel x notices).channel y).length ≤
      (s.channel y).length := by
    by_cases here : y = x
    · subst here
      simpa using shorter
    · simp [here]
  refine ⟨fun y listening => ?_, fun y mem leaving => ?_, fun y connecting => ?_⟩
  · exact (Nat.add_le_add_right (length y) _).trans (h.listens y listening)
  · exact (Nat.add_le_add_right (length y) _).trans (h.leaves y mem leaving)
  · have none := length y
    rw [h.quiet y connecting, List.length_nil, Nat.le_zero, List.length_eq_zero_iff] at none
    exact none

theorem Bounded.step (h : s.Bounded) (hs : s.Sound) {a : Action} (step : s.Step a s')
    (careful : s.Careful a) : s'.Bounded := by
  have sound := hs.step step
  cases step with
  | connect done => exact h.connect hs done
  | expire done => exact ⟨h.listens, h.leaves, h.quiet⟩
  | @enter x rest connecting next alone =>
    have empty : s.load x = 0 := by
      rw [hs.load_eq (by simp [connecting, Phase.Joined]), h.quiet x connecting]
      rfl
    refine h.moves sound rfl (fun _ => Nat.zero_le _) (fun _ => Nat.le_refl _) rfl ?_
      (fun _ _ => empty ▸ Nat.zero_le _) (by simp)
      fun y other _ => RwLock.ahead_pass_subset next (Ne.symm other)
    exact fun y other mem => (Finset.mem_insert.mp mem).resolve_left other
  | enterLost connecting next alone =>
    refine h.moves sound rfl (fun _ => Nat.zero_le _) (fun _ => Nat.le_refl _) rfl ?_
      (fun gone => absurd rfl gone) (by simp)
      fun y other _ => RwLock.ahead_pass_subset next (Ne.symm other)
    exact fun y other mem => (Finset.mem_insert.mp mem).resolve_left other
  | receive selecting | crash selecting =>
    exact h.quiet_step sound selecting ⟨by simp, by simp⟩ rfl (List.nil_sublist _)
      (fun _ => Nat.le_refl _) rfl rfl (by simp) fun _ _ _ => Finset.Subset.refl _
  | touch applying done =>
    exact h.quiet_step sound applying ⟨by simp, by simp⟩ rfl (List.nil_sublist _)
      (fun _ => Nat.le_refl _) rfl rfl (by simp) fun _ _ _ => Finset.Subset.refl _
  | handle applying done => exact h.apply hs applying (careful _ _ _ _ applying done)
  | panic applying =>
    exact h.quiet_step sound applying ⟨by simp, by simp⟩ rfl (List.nil_sublist _)
      (fun _ => Nat.le_refl _) rfl rfl (by simp) fun _ _ _ => Finset.Subset.refl _
  | ask applied =>
    exact h.quiet_step sound applied ⟨by simp, by simp⟩ rfl (List.Sublist.refl _)
      (fun _ => Nat.le_refl _) rfl rfl (by simp)
      fun y _ leaving => (hs.ahead_ask leaving .read).subset
  | acquire waiting next =>
    exact h.quiet_step sound waiting ⟨by simp, by simp⟩ rfl (List.Sublist.refl _)
      (fun _ => Nat.le_refl _) rfl rfl (by simp)
      fun y other _ => RwLock.ahead_acquire_subset next (Ne.symm other)
  | send sending next reaches room => exact h.send hs sending next
  | discard sending next lost =>
    refine h.quiet_step sound sending ⟨by simp, by simp⟩ rfl ?_ (fun _ => Nat.le_refl _) rfl rfl
      (by simp) fun _ _ _ => Finset.Subset.refl _
    rw [Phase.owes, Phase.owes, next]
    exact List.sublist_cons_self _ _
  | finish sending sent =>
    exact h.quiet_step sound sending ⟨by simp, by simp⟩ rfl (List.nil_sublist _)
      (fun _ => Nat.le_refl _) rfl rfl (by simp) fun _ _ _ => RwLock.ahead_release_subset
  | reply replying response => exact (h.write _ _).proceed (hs.write _ _) replying _
  | replyEmpty replying response => exact h.proceed hs replying _
  | replyLost replying response => exact h.leave hs sound replying ⟨by simp, by simp⟩
  | notify selecting next =>
    refine (h.write _ _).setChannel ?_
    rw [show (s.write _ _).channel = s.channel from rfl, next]
    exact Nat.le_succ _
  | notifyLost selecting next =>
    refine (h.leave hs (hs.leave selecting ⟨by simp, by simp⟩ (by simp) rfl) selecting
      ⟨by simp, by simp⟩).setChannel ?_
    rw [show (s.leave _).channel = s.channel from rfl, next]
    exact Nat.le_succ _
  | leave selecting => exact h.leave hs sound selecting ⟨by simp, by simp⟩
  | exit leaving next alone =>
    exact h.moves sound rfl (fun _ => Nat.zero_le _) (fun _ => Nat.le_refl _) rfl
      (fun _ _ mem => Finset.mem_of_mem_erase mem) (fun gone => absurd rfl gone) (by simp)
      fun y other _ => RwLock.ahead_pass_subset next (Ne.symm other)

/-- A channel that a notification is for has room for it. -/
theorem Bounded.room (h : s.Bounded) (hs : s.Sound) {d : Dispatch} {e : WatchEvent}
    {es : List WatchEvent} (sending : s.phase x = .sending d) (next : d.events = e :: es)
    (reaches : s.Reaches e.sessionId) : (s.channel e.sessionId).length < channelCapacity := by
  have owed : 1 ≤ s.owedTo e.sessionId x := by
    simp [owedTo, sending, Phase.owes, next, notices]
  have within {tasks : Finset SessionId} (present : x ∈ tasks) :
      s.owedTo e.sessionId x ≤ ∑ z ∈ tasks, s.owedTo e.sessionId z :=
    Finset.single_le_sum (fun _ _ => Nat.zero_le _) present
  by_cases leaving : s.phase e.sessionId = .leaving
  · have holds : x ∈ s.lock.readers := (hs.lock.holds x).mpr (by rw [stands, sending]; rfl)
    have bound := h.leaves _ reaches.1 leaving
    have part := within (Finset.mem_union_left (s.lock.earlier e.sessionId).toFinset holds)
    rw [RwLock.ahead] at bound
    omega
  · have bound := h.listens _ ⟨reaches.1, leaving, reaches.2⟩
    have part := within (hs.spawned x (by simp [sending]))
    rw [load] at bound
    omega

end Service
end TinyKeeper
