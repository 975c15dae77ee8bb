import TinyKeeper.WatchState.Calls

/-! A registered watch is a promise: until it is cleared it stands, and the first firing that
triggers it tells the session of it and takes it away. -/
namespace TinyKeeper

/-- The kind of watch that a notification answers. -/
def WatchNotification.kind (n : WatchNotification) : WatchType :=
  if n.eventType = .child then .listWatch else .watch

/-- The notification answers a watch of this kind on `p`. -/
def WatchNotification.About (n : WatchNotification) (p : String) (t : WatchType) : Prop :=
  n.path = p ∧ n.kind = t
  deriving Decidable

/-- The event tells the session `id` about its watch of this kind on `p`. -/
def WatchEvent.Tells (e : WatchEvent) (id : SessionId) (p : String) (t : WatchType) : Prop :=
  e.sessionId = id ∧ e.payload.About p t
  deriving Decidable

/-- The call fires no event of the kind that stands for a change of the children. -/
def WatchCall.Plain : WatchCall → Prop
  | .fire _ event => event ≠ .child
  | _ => True

namespace WatchState
variable {ws ws' : WatchState} {calls : List WatchCall} {events : List WatchEvent} {c : WatchCall}
  {id : SessionId} {p : String} {t : WatchType}

/-- What is told about a registration names it. -/
theorem told_tells_iff {path : String} {event : WatchEventType} {r : SessionId × WatchInfo}
    (plain : event ≠ .child) (triggers : Triggers path event r.2.watchType r.2.path) :
    (told event r).Tells id p t ↔ r = (id, ⟨p, t⟩) := by
  obtain ⟨id', p', t'⟩ := r
  have kind : (told event (id', ⟨p', t'⟩)).payload.kind = t' := by
    obtain ⟨rfl, -⟩ | ⟨rfl, -⟩ | ⟨rfl, -⟩ := triggers <;> simp [WatchNotification.kind, told, plain]
  rw [WatchEvent.Tells, WatchNotification.About, kind]
  simp [told]

/-- A call tells a session of its watches, and of nothing else. -/
theorem Performs.tells_eq (h : ws.Performs (c, events) ws') (plain : c.Plain) :
    events.countP (·.Tells id p t) = WatchCall.tells id p t (c, events) := by
  obtain ⟨orders, performed⟩ := h
  cases c with
  | register id' path t' =>
    cases performed
    rfl
  | clear id' =>
    cases performed
    rfl
  | fire path event =>
    obtain rfl : (ws.fire orders path event).2 = events := congrArg Prod.snd performed
    obtain ⟨drained, -, mem, told⟩ := (ws.fire_drains orders path event).told
    simp only [WatchCall.tells, told]
    refine List.countP_congr fun e inside => ?_
    obtain ⟨r, drains, rfl⟩ := List.mem_map.mp inside
    have triggers := ((mem r.1 r.2.path r.2.watchType).mp drains).2
    have kind := WatchCall.answers_told triggers
    simp only [decide_eq_true_eq, told_tells_iff plain triggers, kind]
    obtain ⟨id', p', t'⟩ := r
    simp [WatchState.told]

/-- A firing that triggers a registration tells its session. -/
theorem Performs.triggered {path : String} {event : WatchEventType}
    (h : ws.Performs (.fire path event, events) ws') (plain : event ≠ .child)
    (registered : ws.Registered t p id) (triggers : Triggers path event t p) :
    ∃ e ∈ events, e.Tells id p t := by
  obtain ⟨orders, performed⟩ := h
  obtain rfl : (ws.fire orders path event).2 = events := congrArg Prod.snd performed
  obtain ⟨drained, -, mem, told⟩ := (ws.fire_drains orders path event).told
  refine ⟨WatchState.told event (id, ⟨p, t⟩), ?_, (told_tells_iff plain triggers).mpr rfl⟩
  rw [told]
  exact List.mem_map_of_mem ((mem id p t).mpr ⟨registered, triggers⟩)

/-- A registration stands until its session is cleared or told. -/
theorem Performs.keeps (h : ws.Performs (c, events) ws') (mirrored : ws.Mirrored) (plain : c.Plain)
    (lives : c ≠ .clear id) (registered : ws.Registered t p id) :
    ws'.Registered t p id ∨ ∃ e ∈ events, e.Tells id p t := by
  have performs := h
  obtain ⟨orders, performed⟩ := h
  cases c with
  | register id' path t' =>
    cases performed
    exact .inl ((registered_register_iff ..).mpr (.inr registered))
  | clear id' =>
    cases performed
    have other : id ≠ id' := fun same => lives (same ▸ rfl)
    exact .inl ((mirrored.registered_clear_iff ..).mpr ⟨registered, other⟩)
  | fire path event =>
    by_cases triggers : Triggers path event t p
    · exact .inr (performs.triggered plain registered triggers)
    · have after : ws' = (ws.fire orders path event).1 := congrArg Prod.fst performed.symm
      rw [after]
      exact .inl (((ws.fire_drains orders path event).forward ..).mpr ⟨registered, triggers⟩)

/-- The calls, one after another, with all the events that they return. -/
def Calls (ws : WatchState) (calls : List WatchCall) (events : List WatchEvent)
    (ws' : WatchState) : Prop :=
  ∃ performed : List (WatchCall × List WatchEvent), Run Performs ws performed ws' ∧
    performed.map Prod.fst = calls ∧ performed.flatMap Prod.snd = events

namespace Calls

theorem none (same : ws' = ws) : ws.Calls [] [] ws' := ⟨[], same ▸ .nil, rfl, rfl⟩

theorem one (orders : HashOrders) (performed : ws.perform orders c = (ws', events)) :
    ws.Calls [c] events ws' :=
  ⟨[(c, events)], .single ⟨orders, performed⟩, rfl, by simp⟩

theorem fired (ws : WatchState) (orders : HashOrders) (path : String) (event : WatchEventType) :
    ws.Calls [.fire path event] (ws.fire orders path event).2 (ws.fire orders path event).1 :=
  one orders rfl

theorem append {calls' : List WatchCall} {events' : List WatchEvent} {ws'' : WatchState}
    (first : ws.Calls calls events ws') (second : ws'.Calls calls' events' ws'') :
    ws.Calls (calls ++ calls') (events ++ events') ws'' := by
  obtain ⟨performed, run, rfl, rfl⟩ := first
  obtain ⟨performed', run', rfl, rfl⟩ := second
  exact ⟨performed ++ performed', run.trans run', List.map_append, List.flatMap_append⟩

/-- The rule of induction over the calls, from the last one. -/
theorem snoc_cases (h : ws.Calls (calls ++ [c]) events ws') :
    ∃ mid before after, ws.Calls calls before mid ∧ mid.Performs (c, after) ws' ∧
      events = before ++ after := by
  obtain ⟨performed, run, same, rfl⟩ := h
  obtain ⟨performed, last, rfl, rfl, one⟩ := List.map_eq_append_iff.mp same
  obtain ⟨⟨c', after⟩, rfl, rfl⟩ := List.map_eq_singleton_iff.mp one
  obtain ⟨mid, init, step⟩ := run.snoc_split
  exact ⟨mid, _, after, ⟨performed, init, rfl, rfl⟩, step, by simp⟩

theorem nil_cases (h : ws.Calls [] events ws') : ws' = ws ∧ events = [] := by
  obtain ⟨performed, run, same, rfl⟩ := h
  obtain rfl := List.map_eq_nil_iff.mp same
  exact ⟨run.nil_eq, rfl⟩

theorem consistent (h : ws.Calls calls events ws') (before : ws.Consistent) : ws'.Consistent := by
  obtain ⟨performed, run, -, -⟩ := h
  exact run.invariant Consistent before fun _ _ _ kept last => last.consistent kept

theorem registered (h : ws.Calls [.register id p t] events ws') : ws'.Registered t p id := by
  obtain ⟨mid, _, _, start, ⟨orders, performed⟩, _⟩ := (List.nil_append [_] ▸ h).snoc_cases
  have after : ws' = mid.register id p t := congrArg Prod.fst performed.symm
  rw [after]
  exact register_self ..

variable (id p t) in
/-- A session is told of a watch as often as it registered it, at most. -/
theorem told_le (h : ws.Calls calls events ws') (plain : ∀ c ∈ calls, c.Plain) :
    events.countP (·.Tells id p t) + WatchCall.standing id p t ws' ≤
      WatchCall.standing id p t ws + calls.count (.register id p t) := by
  induction calls using List.reverseRecOn generalizing events ws' with
  | nil =>
    obtain ⟨rfl, rfl⟩ := h.nil_cases
    simp
  | append_singleton calls c ih =>
    obtain ⟨mid, before, after, init, last, rfl⟩ := h.snoc_cases
    have earlier := ih init fun c' mem => plain c' (List.mem_append_left _ mem)
    have paid := WatchCall.pays id p t last
    rw [← last.tells_eq (plain c (by simp))] at paid
    have asked : WatchCall.asks id p t (c, after) = [c].count (.register id p t) := by
      simp only [WatchCall.asks, List.count_singleton, beq_iff_eq]
    rw [asked] at paid
    rw [List.countP_append, List.count_append]
    omega

/-- A registered watch still stands, unless its session was told. -/
theorem keeps (h : ws.Calls calls events ws') (before : ws.Consistent)
    (plain : ∀ c ∈ calls, c.Plain) (lives : .clear id ∉ calls)
    (registered : ws.Registered t p id) :
    ws'.Registered t p id ∨ ∃ e ∈ events, e.Tells id p t := by
  induction calls using List.reverseRecOn generalizing events ws' with
  | nil =>
    obtain ⟨rfl, -⟩ := h.nil_cases
    exact .inl registered
  | append_singleton calls c ih =>
    obtain ⟨mid, told, after, init, last, rfl⟩ := h.snoc_cases
    simp only [List.mem_append, List.mem_singleton, not_or] at lives
    have plains (c' : WatchCall) (mem : c' ∈ calls) : c'.Plain :=
      plain c' (List.mem_append_left _ mem)
    obtain stands | ⟨e, mem, tells⟩ := ih init plains lives.1
    · obtain stands | ⟨e, mem, tells⟩ := last.keeps (init.consistent before).mirrored
        (plain c (by simp)) (fun same => lives.2 same.symm) stands
      · exact .inl stands
      · exact .inr ⟨e, List.mem_append_right _ mem, tells⟩
    · exact .inr ⟨e, List.mem_append_left _ mem, tells⟩

/-- The session of a registered watch is told once something triggers it. -/
theorem fulfils (h : ws.Calls calls events ws') (before : ws.Consistent)
    (plain : ∀ c ∈ calls, c.Plain) (lives : .clear id ∉ calls)
    (registered : ws.Registered t p id) {path : String} {event : WatchEventType}
    (fires : .fire path event ∈ calls) (triggers : Triggers path event t p) :
    ∃ e ∈ events, e.Tells id p t := by
  induction calls using List.reverseRecOn generalizing events ws' with
  | nil => cases fires
  | append_singleton calls c ih =>
    obtain ⟨mid, told, after, init, last, rfl⟩ := h.snoc_cases
    simp only [List.mem_append, List.mem_singleton, not_or] at lives fires
    have plains (c' : WatchCall) (mem : c' ∈ calls) : c'.Plain :=
      plain c' (List.mem_append_left _ mem)
    obtain earlier | rfl := fires
    · obtain ⟨e, mem, tells⟩ := ih init plains lives.1 earlier
      exact ⟨e, List.mem_append_left _ mem, tells⟩
    · obtain stands | ⟨e, mem, tells⟩ := init.keeps before plains lives.1 registered
      · have fires : event ≠ .child := plain (.fire path event) (by simp)
        obtain ⟨e, mem, tells⟩ := last.triggered fires stands triggers
        exact ⟨e, List.mem_append_right _ mem, tells⟩
      · exact ⟨e, List.mem_append_left _ mem, tells⟩

end Calls
end WatchState
end TinyKeeper
