import TinyKeeper.KeeperDispatcher.Notices
import TinyKeeper.KeeperDispatcher.Sockets
import TinyKeeper.KeeperServer.WatchCalls

/-! Watches as a client sees them: each is answered once at most, and what triggers it while its
session stays reaches the socket of the session or is on the way there. -/
namespace TinyKeeper

/-- Notifications by the turns that fired them. -/
theorem countP_le_of_turns (P : WatchNotification → Bool) (y : SessionId) {turns : List Turn}
    {notices : List Notice} (numbered : ∀ notice ∈ notices, notice.turn < turns.length)
    (fired : ∀ n turn, turns[n]? = some turn → noticesOf notices n <+: toldTo turn.events y) :
    (notices.map Notice.payload).countP P ≤
      (turns.map fun turn => (toldTo turn.events y).countP P).sum := by
  induction turns using List.reverseRecOn generalizing notices with
  | nil =>
    have none : notices = [] :=
      List.eq_nil_iff_forall_not_mem.mpr fun notice mem => Nat.not_lt_zero _ (numbered notice mem)
    simp [none]
  | append_singleton turns turn ih =>
    have last := (fired turns.length turn List.getElem?_concat_length).sublist.countP_le (p := P)
    let others := notices.filter (·.turn ≠ turns.length)
    have split : (notices.map Notice.payload).countP P =
        (others.map Notice.payload).countP P + (noticesOf notices turns.length).countP P := by
      rw [List.countP_map, List.countP_eq_countP_filter_add notices _ (·.turn ≠ turns.length),
        noticesOf, List.countP_map, List.countP_map]
      simp [others]
    have before (notice : Notice) (mem : notice ∈ others) : notice.turn < turns.length := by
      obtain ⟨mem, other⟩ := List.mem_filter.mp mem
      have less := numbered notice mem
      rw [List.length_append, List.length_singleton] at less
      have ne : notice.turn ≠ turns.length := of_decide_eq_true other
      omega
    have earlier := ih before fun n turn' found => ?_
    · rw [split, List.map_append, List.sum_append, List.map_singleton, List.sum_singleton]
      omega
    · have less := (List.getElem?_eq_some_iff.mp found).1
      have same : noticesOf others n = noticesOf notices n := by
        rw [noticesOf, noticesOf, List.filter_filter]
        congr 1
        refine List.filter_congr fun notice _ => ?_
        by_cases here : notice.turn = n <;> simp [here, less.ne]
      rw [same]
      exact fired n turn' (by rw [List.getElem?_append_left less, found])

namespace KeeperServer
variable {recordBytes : LogRecord → ℕ} {s s₀ : KeeperServer recordBytes} {log : List Executed}

/-- Only requests fire notifications. -/
theorem executes_watchEvents {e : Executed} (executes : s₀.Executes e s) :
    e.output.watchEvents = e.handled.toList.flatMap fun h => h.result.watchEvents := by
  obtain ⟨env, event, output⟩ := e
  cases event with
  | createSession _ =>
    cases executes
    rfl
  | closeSession _ =>
    obtain ⟨rfl, -⟩ := exec_closeSession executes
    rfl
  | touch _ =>
    cases executes
    rfl
  | handle xid id req =>
    obtain ⟨r, rfl, -⟩ := exec_handle executes
    exact (List.append_nil _).symm

theorem run_watchEvents (run : Run Executes s₀ log s) :
    (log.flatMap fun e => e.output.watchEvents) =
      (log.filterMap Executed.handled).flatMap fun h => h.result.watchEvents := by
  induction run with
  | nil => rfl
  | @snoc log t e u init last ih =>
    rw [List.flatMap_append, List.filterMap_append, List.flatMap_append, ih, List.flatMap_singleton,
      executes_watchEvents last]
    cases handled : e.handled <;> simp [handled]

/-- The registrations of an execution are watches that its requests ask for. -/
theorem count_watchCalls (log : List Executed) (id : SessionId) (p : String) (t : WatchType) :
    (log.flatMap Executed.watchCalls).count (.register id p t) ≤
      (log.filterMap Executed.handled).countP fun h =>
        h.session = id ∧ h.request.watch? = some (p, t) := by
  induction log with
  | nil => exact Nat.le_refl 0
  | cons e log ih =>
    rw [List.flatMap_cons, List.count_append]
    cases handled : e.handled with
    | none =>
      have quiet : e.watchCalls = [] := by rw [Executed.watchCalls, handled]
      rw [List.filterMap_cons_none handled, quiet, List.count_nil, Nat.zero_add]
      exact ih
    | some h =>
      have calls : e.watchCalls = h.request.watchCalls h.session h.result.response := by
        rw [Executed.watchCalls, handled]
      have one := Request.count_watchCalls id h.session h.request h.result.response p t
      rw [List.filterMap_cons_some handled, List.countP_cons, calls]
      simp only [decide_eq_true_eq]
      omega

end KeeperServer

namespace Service
variable {recordBytes : LogRecord → ℕ} {s₁ s : Service recordBytes} {as : List Action}

theorem countP_toldTo (events : List WatchEvent) (y : SessionId) (p : String) (t : WatchType) :
    (toldTo events y).countP (·.About p t) = events.countP (·.Tells y p t) := by
  rw [toldTo, List.countP_map, List.countP_filter]
  refine List.countP_congr fun e _ => ?_
  simp only [Function.comp_apply, Bool.and_eq_true, decide_eq_true_eq]
  exact and_comm

/-- In every run, the notifications on a session's socket about a node and a kind of watch are no
more than the reads of the session that asked for such a watch. -/
theorem watch_answered_once (started : s₁.Started) (run : Run Step s₁ as s) (y : SessionId)
    (p : String) (t : WatchType) :
    ((s.socket y).filterMap Frame.notice?).countP (·.payload.About p t) ≤
      s.history.countP fun turn => turn.session = y ∧ turn.request.watch? = some (p, t) := by
  obtain ⟨log, explains⟩ := started.explained run
  obtain ⟨-, delivers⟩ := run.invariant (fun s => s.Sound ∧ s.Delivers)
    ⟨started.sound, started.delivers⟩ fun _ _ _ h step => ⟨h.1.step step, h.2.step h.1 step⟩
  have calls := KeeperServer.watches_refine started.reachable explains.executes
  have told := calls.told_le y p t fun c mem => KeeperServer.watchCalls_plain mem
  have none : WatchCall.standing y p t s₁.server.storage.watchState = 0 := by
    obtain ⟨dir, orders, server, opened, rfl⟩ := started
    refine if_neg fun registered => ?_
    rw [start, KeeperServer.new_watchState opened] at registered
    exact WatchState.not_mentions_new y (.inl ⟨t, p, registered⟩)
  have asked := KeeperServer.count_watchCalls log y p t
  have written := countP_le_of_turns (·.About p t) y
    (fun notice mem => delivers.numbered y notice (List.mem_append_left _ mem))
    (fun n turn found => delivers.written y n turn found)
  have fired : (s.history.map fun turn => (toldTo turn.events y).countP (·.About p t)).sum =
      (log.flatMap fun e => e.output.watchEvents).countP (·.Tells y p t) := by
    rw [KeeperServer.run_watchEvents explains.executes, explains.history, List.countP_flatMap,
      List.map_map]
    simp only [countP_toldTo, Function.comp_def, Handled.turn]
  have reads : (s.history.countP fun turn => turn.session = y ∧ turn.request.watch? = some (p, t)) =
      (log.filterMap Executed.handled).countP fun h =>
        h.session = y ∧ h.request.watch? = some (p, t) := by
    rw [explains.history, List.countP_map]
    rfl
  rw [List.countP_map] at written
  calc ((s.socket y).filterMap Frame.notice?).countP (·.payload.About p t)
      ≤ _ := written
    _ = _ := fired
    _ ≤ _ := by omega
    _ ≤ _ := asked
    _ = _ := reads.symm

/-- A client watches the root, changes it, and has yet to read that it did. -/
theorem initial_watched : ∃ (as : List Action) (s : Service fun _ => 1) (r r' : Reply),
    Run Step (initial fun _ => 1) as s ∧ s.phase 1 = .selecting ∧
    s.socket 1 = [.reply 0 r, .reply 1 r'] ∧ s.channel 1 = [⟨1, ⟨.changed, "/"⟩⟩] ∧
    s.history = [⟨1, .get ⟨"/", true⟩, []⟩, ⟨1, .set ⟨"/", [], -1⟩, [⟨1, ⟨.changed, "/"⟩⟩]⟩] ∧
    r'.err = .ok := by
  let server := ((KeeperServer.initial fun _ => 1).createSession (.working 0) 1000).2
  have opens : (KeeperServer.initial fun _ => 1).exec (.working 0) (.createSession 1000) =
      .done (.session 1) server := rfl
  let touched := server.touchSession 0 1
  have touch : server.exec (.working 0) (.touch 1) = .done .touched touched := rfl
  obtain ⟨r, served, watches, quiet, watching⟩ : ∃ r served,
      touched.exec (.working 0) (.handle 7 1 (.get ⟨"/", true⟩)) = .done (.applied r) served ∧
      r.watchEvents = [] ∧
      served.storage.watchState = WatchState.new.register 1 "/" .watch := ⟨_, _, rfl, rfl, rfl⟩
  let touched' := served.touchSession 0 1
  have touch' : served.exec (.working 0) (.touch 1) = .done .touched touched' := rfl
  obtain ⟨r', served', sets, fired, ok⟩ : ∃ r' served',
      touched'.exec (.working 0) (.handle 8 1 (.set ⟨"/", [], -1⟩)) = .done (.applied r') served' ∧
      r'.watchEvents = (served.storage.watchState.fire (Env.working 0).orders "/" .changed).2 ∧
      r'.response.err = .ok := by
    cases watches
    exact ⟨_, _, rfl, rfl, rfl⟩
  rw [watching, WatchState.fire_registered] at fired
  obtain ⟨as, as', s, s', connects, goes, phase, socket, channel, history⟩ := initial_turns opens
    touch watches touch' sets (by simp) (by simp) quiet (by simp [fired])
    (by simp [fired, channelCapacity])
  rw [fired] at channel history
  exact ⟨_, s', r.response, r'.response, connects.trans goes, by simp [phase], socket, channel,
    history, ok⟩

/-- The client reads that the root was changed. -/
theorem watch_answered_once_set : ∃ s : Service fun _ => 1,
    ((s.socket 1).filterMap Frame.notice?).countP (·.payload.About "/" .watch) = 1 ∧
    1 ≤ s.history.countP fun turn =>
      turn.session = 1 ∧ turn.request.watch? = some ("/", .watch) := by
  obtain ⟨as, s, r, r', run, selects, socket, channel, -, -⟩ := initial_watched
  let s' := (s.write 1 (.notification ⟨1, ⟨.changed, "/"⟩⟩)).setChannel 1 []
  have notify : s.Step (.notify 1) s' := .notify selects channel
  have written : s'.socket 1 = [.reply 0 r, .reply 1 r', .notification ⟨1, ⟨.changed, "/"⟩⟩] := by
    simp [s', setChannel, write, socket]
  have one : ((s'.socket 1).filterMap Frame.notice?).countP (·.payload.About "/" .watch) = 1 := by
    rw [written]
    rfl
  have once := watch_answered_once initial_started (run.snoc notify) 1 "/" .watch
  rw [one] at once
  exact ⟨s', one, once⟩

/-- What a turn fired for a session that stays is on the socket of the session, in its channel, or
in the dispatch of that turn. -/
theorem fired_reaches (started : s₁.Started) (run : Run Step s₁ as s)
    {before later : List Executed} (explains : Explains s₁.server as s (before ++ later))
    {told : WatchEvent}
    (fired : told ∈ later.flatMap fun e => e.output.watchEvents)
    (runs : ¬ (s.phase told.sessionId).Out) :
    (∃ notice ∈ s.notices told.sessionId, (before.filterMap Executed.handled).length ≤ notice.turn ∧
      notice.payload = told.payload) ∨
    ∃ x d, (s.phase x).dispatch = some d ∧ (before.filterMap Executed.handled).length ≤ d.turn ∧
      told ∈ d.events := by
  obtain ⟨-, delivers⟩ := run.invariant (fun s => s.Sound ∧ s.Delivers)
    ⟨started.sound, started.delivers⟩ fun _ _ _ h step => ⟨h.1.step step, h.2.step h.1 step⟩
  obtain ⟨server, init, rest⟩ := explains.executes.append_split
  rw [KeeperServer.run_watchEvents rest] at fired
  obtain ⟨h, there, fired⟩ := List.mem_flatMap.mp fired
  obtain ⟨k, found⟩ := List.mem_iff_getElem?.mp there
  let n := (before.filterMap Executed.handled).length + k
  have turn : s.history[n]? = some h.turn := by
    rw [explains.history, List.getElem?_map, List.filterMap_append,
      List.getElem?_append_right (Nat.le_add_right _ _), Nat.add_sub_cancel_left, found]
    rfl
  have listed : told.payload ∈ toldTo h.turn.events told.sessionId :=
    List.mem_map_of_mem (List.mem_filter.mpr ⟨fired, decide_eq_true rfl⟩)
  rw [← delivers.once told.sessionId runs n h.turn turn, List.mem_append] at listed
  obtain sent | waits := listed
  · obtain ⟨notice, inside, same⟩ := List.mem_map.mp sent
    obtain ⟨mem, numbered⟩ := List.mem_filter.mp inside
    have turn : notice.turn = n := of_decide_eq_true numbered
    exact .inl ⟨notice, mem, turn ▸ Nat.le_add_right _ _, same⟩
  · right
    unfold Phase.untold at waits
    cases carried : (s.phase h.turn.session).dispatch with
    | none =>
      rw [carried] at waits
      cases waits
    | some d =>
      simp only [carried] at waits
      split_ifs at waits with numbered
      · obtain ⟨e, inside, same⟩ := List.mem_map.mp waits
        obtain ⟨mem, session⟩ := List.mem_filter.mp inside
        obtain rfl : e = told := congrArg₂ WatchEvent.mk (of_decide_eq_true session) same
        exact ⟨_, d, carried, numbered ▸ Nat.le_add_right _ _, mem⟩
      · cases waits

/-- An execution of two requests of one session, with both answers on its socket. -/
theorem Explains.two_turns {s₀ : KeeperServer recordBytes} {log : List Executed}
    (explains : Explains s₀ as s log) {turn turn' : Turn} (history : s.history = [turn, turn'])
    (same : turn'.session = turn.session) {r r' : Reply}
    (socket : s.socket turn.session = [.reply 0 r, .reply 1 r']) :
    ∃ before e later h h', log = before ++ e :: later ∧ e.handled = some h ∧ h.turn = turn ∧
      later.filterMap Executed.handled = [h'] ∧ h'.turn = turn' ∧ h.result.response = r ∧
      h'.result.response = r' := by
  have turns := explains.history
  rw [history] at turns
  obtain ⟨h, rest, handled, first, others⟩ := List.map_eq_cons_iff.mp turns.symm
  obtain ⟨h', last, second⟩ := List.map_eq_singleton_iff.mp others
  have session : h.session = turn.session := congrArg Turn.session first
  have session' : h'.session = turn.session := (congrArg Turn.session second).trans same
  obtain ⟨missing, -, -, replies⟩ := (explains.fifo turn.session).replies
  have answers : answersTo [h, h'] turn.session =
      [(0, h.result.response), (1, h'.result.response)] := by
    simp [answersTo, session, session']
  rw [socket, handled, last, answers] at replies
  simp only [List.filterMap_cons, Frame.reply?, List.filterMap_nil, List.cons_append,
    List.cons.injEq, Prod.mk.injEq, true_and] at replies
  obtain ⟨before, e, later, rfl, -, at_e, at_later⟩ := List.filterMap_eq_cons_iff.mp handled
  exact ⟨before, e, later, h, h', rfl, at_e, first, at_later.trans last, second, replies.1.symm,
    replies.2.1.symm⟩

/-- What triggers a watch reaches its session: after a read that asked for a watch, once a request
fires an event that triggers it, and the session has not closed and its loop runs, a notification
about it that was fired behind the read is on the socket, in the channel, or in a dispatch that has
yet to send it. -/
theorem watch_reaches (started : s₁.Started) (run : Run Step s₁ as s) {before later : List Executed}
    {e : Executed} (explains : Explains s₁.server as s (before ++ e :: later)) {h : Handled}
    (handled : e.handled = some h) {p : String} {t : WatchType}
    (asks : h.request.watch? = some (p, t))
    (stays : ∀ h' ∈ later.filterMap Executed.handled, h'.session = h.session →
      h'.request ≠ .close) (runs : ¬ (s.phase h.session).Out) {path : String}
    {event : WatchEventType} (fires : .fire path event ∈ later.flatMap Executed.watchCalls)
    (triggers : WatchState.Triggers path event t p) :
    (∃ notice ∈ (s.socket h.session).filterMap Frame.notice? ++ s.channel h.session,
      (before.filterMap Executed.handled).length < notice.turn ∧ notice.payload.About p t) ∨
    ∃ x d, (s.phase x).dispatch = some d ∧ (before.filterMap Executed.handled).length < d.turn ∧
      ∃ e ∈ d.events, e.Tells h.session p t := by
  obtain ⟨server, init, rest⟩ := explains.executes.append_split
  have reachable := (KeeperServer.consistent_of_run started.reachable init).reachable
  obtain ⟨ws, consistent, registered, lives, calls⟩ :=
    KeeperServer.watch_calls reachable rest handled asks stays
  obtain ⟨told, mem, tells⟩ := calls.fulfils consistent
    (fun c mem => KeeperServer.watchCalls_plain mem) lives registered fires triggers
  rw [← tells.1]
  rw [← tells.1] at runs
  -- the read is the turn before those that fire
  have split : before ++ e :: later = (before ++ [e]) ++ later := by simp
  have turns : ((before ++ [e]).filterMap Executed.handled).length =
      (before.filterMap Executed.handled).length + 1 := by
    simp [handled]
  obtain ⟨notice, inside, behind, same⟩ | ⟨x, d, carried, behind, mem⟩ :=
    fired_reaches started run (split ▸ explains) mem runs
  · exact .inl ⟨notice, inside, by omega, same ▸ tells.2⟩
  · exact .inr ⟨x, d, carried, by omega, told, mem, rfl, tells.2⟩

/-- The client has read the root and changed it, and the notification waits in its channel. -/
theorem watch_reaches_set : ∃ s : Service fun _ => 1, s.phase 1 = .selecting ∧
    ((∃ notice ∈ (s.socket 1).filterMap Frame.notice? ++ s.channel 1,
      0 < notice.turn ∧ notice.payload.About "/" .watch) ∨
    ∃ x d, (s.phase x).dispatch = some d ∧ 0 < d.turn ∧ ∃ e ∈ d.events, e.Tells 1 "/" .watch) := by
  obtain ⟨as, s, r, r', run, selects, socket, channel, history, ok⟩ := initial_watched
  obtain ⟨log, explains⟩ := initial_started.explained run
  obtain ⟨before, e, later, h, h', rfl, at_e, first, at_later, second, -, answer⟩ :=
    explains.two_turns history rfl socket
  have session : h.session = 1 := congrArg Turn.session first
  have request : h.request = .get ⟨"/", true⟩ := congrArg Turn.request first
  have request' : h'.request = .set ⟨"/", [], -1⟩ := congrArg Turn.request second
  obtain ⟨e', inside, at_e'⟩ := List.mem_filterMap.mp (at_later ▸ List.mem_singleton_self h')
  have fires : .fire "/" .changed ∈ later.flatMap Executed.watchCalls := by
    refine List.mem_flatMap.mpr ⟨e', inside, ?_⟩
    simp [Executed.watchCalls, at_e', request', Request.watchCalls, Request.changes, answer, ok,
      Change.firing]
  have reaches := watch_reaches initial_started run explains at_e (p := "/") (t := .watch)
    (by simp [request, Request.watch?]) (fun h'' mem _ => by
      rw [at_later, List.mem_singleton] at mem
      simp [mem, request']) (by simp [session, selects, Phase.Out]) fires (.inl ⟨rfl, rfl⟩)
  -- the read is the first request of the execution
  have first : (before.filterMap Executed.handled).length = 0 := by
    have turns := congrArg List.length explains.history
    simp only [history, List.length_map, List.filterMap_append, List.filterMap_cons, at_e, at_later,
      List.length_append, List.length_cons, List.length_nil] at turns
    omega
  rw [session, first] at reaches
  exact ⟨s, selects, reaches⟩

end Service
end TinyKeeper
