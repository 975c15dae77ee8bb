import TinyKeeper.Lib.Run
import TinyKeeper.WatchState.Indexes

/-! Runs of calls to the watch state: what firing tells and removes after any history of
registrations, and that no session is told more than it asked for. -/
namespace TinyKeeper

/-- A call that changes the watch state. -/
inductive WatchCall
  | register (id : SessionId) (path : String) (t : WatchType)
  | clear (id : SessionId)
  | fire (path : String) (event : WatchEventType)
  deriving DecidableEq

namespace WatchState

def perform (ws : WatchState) (orders : HashOrders) : WatchCall → WatchState × List WatchEvent
  | .register id path t => (ws.register id path t, [])
  | .clear id => (ws.clear orders id, [])
  | .fire path event => ws.fire orders path event

/-- The call, whatever the orders of the hash sets, with the events it returns. -/
def Performs (ws : WatchState) (c : WatchCall × List WatchEvent) (ws' : WatchState) : Prop :=
  ∃ orders, ws.perform orders c.1 = (ws', c.2)

variable {ws ws' : WatchState} {c : WatchCall × List WatchEvent}

theorem Performs.consistent (h : ws.Performs c ws') (before : ws.Consistent) : ws'.Consistent := by
  obtain ⟨call, events⟩ := c
  obtain ⟨orders, performed⟩ := h
  obtain rfl : ws' = (ws.perform orders call).1 := congrArg Prod.fst performed.symm
  cases call with
  | register id path t => exact before.register id path t
  | clear id => exact before.clear orders id
  | fire path event => exact before.fire orders path event

theorem run_consistent {calls : List (WatchCall × List WatchEvent)}
    (run : Run Performs .new calls ws) : ws.Consistent :=
  run.invariant Consistent new_consistent (fun _ _ _ before last => last.consistent before)

/-- After any calls the forward maps and the reverse map hold the same registrations, and no set
in a forward map is empty. Clearing a session takes it out of every index and leaves the
registrations of all other sessions. -/
theorem indexes_mirror {calls : List (WatchCall × List WatchEvent)}
    (run : Run Performs .new calls ws) :
    (∀ t p id, ws.Registered t p id ↔ ws.Recorded id ⟨p, t⟩) ∧
    (∀ t p sessions, (ws.forwardMap t).get p = some sessions → sessions.Nonempty) ∧
    ∀ orders id, ¬ (ws.clear orders id).Mentions id ∧
      ∀ id', id' ≠ id → ∀ t p,
        ((ws.clear orders id).Registered t p id' ↔ ws.Registered t p id') ∧
        ((ws.clear orders id).Recorded id' ⟨p, t⟩ ↔ ws.Recorded id' ⟨p, t⟩) := by
  have consistent := run_consistent run
  refine ⟨consistent.same, consistent.filled, fun orders id => ⟨?_, ?_⟩⟩
  · exact consistent.mirrored.not_mentions_clear orders id
  · intro id' other t p
    rw [consistent.mirrored.registered_clear_iff, recorded_clear_iff]
    exact ⟨and_iff_left other, and_iff_left other⟩

/-- One of two sessions that watch a node is cleared. -/
theorem indexes_mirror_two_watchers : ∃ orders,
    ¬ (((new.register 1 "/a" .watch).register 2 "/a" .watch).clear orders 1).Mentions 1 ∧
      (((new.register 1 "/a" .watch).register 2 "/a" .watch).clear orders 1).Registered
        .watch "/a" 2 := by
  let orders : HashOrders := ⟨.choice, .choice, .choice⟩
  have first : new.Performs (.register 1 "/a" .watch, []) (new.register 1 "/a" .watch) :=
    ⟨orders, rfl⟩
  have second : (new.register 1 "/a" .watch).Performs (.register 2 "/a" .watch, [])
      ((new.register 1 "/a" .watch).register 2 "/a" .watch) := ⟨orders, rfl⟩
  obtain ⟨-, -, cleared⟩ := indexes_mirror ((Run.single first).snoc second)
  obtain ⟨gone, others⟩ := cleared orders 1
  exact ⟨orders, gone, (others 2 (by decide) .watch "/a").1.mpr (register_self ..)⟩

end WatchState

namespace WatchCall
open WatchState
variable (id : SessionId) (p : String) (t : WatchType)

/-- The kind of watch that an event answers: a firing tells data watches its own type. -/
def answers (event : WatchEventType) (e : WatchEvent) : WatchType :=
  if e.payload.eventType = event then .watch else .listWatch

/-- The events that a call returns for a session, a path and a kind of watch. -/
def tells (c : WatchCall × List WatchEvent) : ℕ :=
  match c.1 with
  | .fire _ event =>
    c.2.countP fun e => e.sessionId = id ∧ e.payload.path = p ∧ answers event e = t
  | _ => 0

/-- The call registers the session for the path and the kind of watch. -/
def asks (c : WatchCall × List WatchEvent) : ℕ := if c.1 = .register id p t then 1 else 0

/-- The registrations that a session has for a path and a kind of watch. -/
def standing (ws : WatchState) : ℕ := if ws.Registered t p id then 1 else 0

/-- A firing tells no kind of watch but those that it drains. -/
theorem answers_told {event : WatchEventType} {path : String} {r : SessionId × WatchInfo}
    (triggers : Triggers path event r.2.watchType r.2.path) :
    answers event (told event r) = r.2.watchType := by
  obtain ⟨kind, -⟩ | ⟨kind, rfl, -⟩ | ⟨kind, rfl | rfl, -⟩ := triggers <;>
    simp [answers, told, kind]

theorem standing_le {ws ws' : WatchState} (fewer : ws'.Registered t p id → ws.Registered t p id) :
    standing id p t ws' ≤ standing id p t ws := by
  unfold standing
  split_ifs with after before before
  · exact le_rfl
  · exact absurd (fewer after) before
  · exact Nat.zero_le 1
  · exact le_rfl

/-- Each event is paid for by the registration that it drains. -/
theorem fire_pays (ws : WatchState) (orders : HashOrders) (path : String)
    (event : WatchEventType) :
    tells id p t (.fire path event, (ws.fire orders path event).2) +
      standing id p t (ws.fire orders path event).1 ≤ standing id p t ws := by
  have drains := ws.fire_drains orders path event
  obtain ⟨drained, nodup, mem, events⟩ := drains.told
  have counted : tells id p t (.fire path event, (ws.fire orders path event).2) ≤
      drained.count (id, ⟨p, t⟩) := by
    simp only [tells, events, List.countP_map]
    refine List.countP_mono_left fun r inside matched => ?_
    obtain ⟨id', p', t'⟩ := r
    have kind := answers_told (r := (id', ⟨p', t'⟩)) ((mem id' p' t').mp inside).2
    simp only [Function.comp_apply, decide_eq_true_eq, kind] at matched
    obtain ⟨rfl, rfl, rfl⟩ := matched
    exact beq_self_eq_true _
  by_cases triggered : ws.Registered t p id ∧ Triggers path event t p
  · have once := List.nodup_iff_count_le_one.mp nodup (id, ⟨p, t⟩)
    have gone : ¬ (ws.fire orders path event).1.Registered t p id :=
      fun after => ((drains.forward t p id).mp after).2 triggered.2
    have paid : standing id p t ws = 1 := if_pos triggered.1
    have none : standing id p t (ws.fire orders path event).1 = 0 := if_neg gone
    omega
  · have none : drained.count (id, ⟨p, t⟩) = 0 :=
      List.count_eq_zero_of_not_mem fun inside => triggered ((mem id p t).mp inside)
    have fewer := standing_le id p t ((ws.fire_le orders path event).1 t p id)
    omega

/-- Every call that tells a session something uses up what it asked for. -/
theorem pays {ws ws' : WatchState} {c : WatchCall × List WatchEvent} (h : ws.Performs c ws') :
    tells id p t c + standing id p t ws' ≤ standing id p t ws + asks id p t c := by
  obtain ⟨call, events⟩ := c
  obtain ⟨orders, performed⟩ := h
  cases call with
  | register id' path t' =>
    cases performed
    by_cases here : WatchCall.register id' path t' = .register id p t
    · have one : asks id p t (.register id' path t', []) = 1 := if_pos here
      have most : standing id p t (ws.register id' path t') ≤ 1 := by
        unfold standing
        split_ifs <;> omega
      simp only [tells]
      omega
    · have fewer : standing id p t (ws.register id' path t') ≤ standing id p t ws := by
        apply standing_le
        intro after
        obtain ⟨rfl, rfl, rfl⟩ | before := (registered_register_iff ..).mp after
        · exact absurd rfl here
        · exact before
      simp only [tells]
      omega
  | clear id' =>
    cases performed
    have fewer := standing_le id p t (fun after => ws.clear_le orders id' after)
    simp only [tells]
    omega
  | fire path event =>
    have fired : ws.fire orders path event = (ws', events) := performed
    have paid := fire_pays id p t ws orders path event
    rw [fired] at paid
    exact paid.trans (Nat.le_add_right _ _)

end WatchCall

namespace WatchState
open WatchCall
variable {ws : WatchState}

/-- After any calls a firing tells one event for each registration that it triggers, takes exactly
these out of both indexes, and leaves all others. Over the calls a session is told at most as many
events for a path and a kind of watch as it registered. -/
theorem fire_exact {calls : List (WatchCall × List WatchEvent)}
    (run : Run Performs .new calls ws) :
    (∀ orders path event,
      (∃ drained : List (SessionId × WatchInfo), drained.Nodup ∧
        (∀ id p t, (id, ⟨p, t⟩) ∈ drained ↔ ws.Registered t p id ∧ Triggers path event t p) ∧
        (ws.fire orders path event).2 = drained.map (told event)) ∧
      (∀ t p id, (ws.fire orders path event).1.Registered t p id ↔
        ws.Registered t p id ∧ ¬ Triggers path event t p) ∧
      ∀ t p id, (ws.fire orders path event).1.Recorded id ⟨p, t⟩ ↔
        ws.Recorded id ⟨p, t⟩ ∧ ¬ Triggers path event t p) ∧
    ∀ id p t, (calls.map (tells id p t)).sum ≤ (calls.map (asks id p t)).sum := by
  refine ⟨fun orders path event => ⟨?_, ?_, ?_⟩, fun id p t => ?_⟩
  · exact (ws.fire_drains orders path event).told
  · exact (ws.fire_drains orders path event).forward
  · exact (run_consistent run).recorded_fire_iff orders path event
  · have total := run.balance (standing id p t) (tells id p t) (asks id p t)
      (fun _ _ _ last => WatchCall.pays id p t last)
    have none : standing id p t WatchState.new = 0 := by
      refine if_neg fun registered => ?_
      exact not_mentions_new id (.inl ⟨t, p, registered⟩)
    omega

/-- A session that watches a node is told that it is gone. -/
theorem fire_exact_watching : ∃ orders,
    ((new.register 1 "/a" .watch).fire orders "/a" .deleted).2 = [⟨1, ⟨.deleted, "/a"⟩⟩] := by
  let orders : HashOrders := ⟨.choice, .choice, .choice⟩
  have watches : new.Performs (.register 1 "/a" .watch, []) (new.register 1 "/a" .watch) :=
    ⟨orders, rfl⟩
  obtain ⟨fires, -⟩ := fire_exact (Run.single watches)
  obtain ⟨⟨drained, nodup, mem, events⟩, -⟩ := fires orders "/a" .deleted
  have one : drained.Perm [(1, ⟨"/a", .watch⟩)] := by
    refine (List.perm_ext_iff_of_nodup nodup (List.nodup_singleton _)).mpr ?_
    rintro ⟨id, p, t⟩
    rw [mem, registered_register_iff, List.mem_singleton, Prod.mk.injEq, WatchInfo.mk.injEq]
    constructor
    · rintro ⟨⟨rfl, rfl, rfl⟩ | before, -⟩
      · exact ⟨rfl, rfl, rfl⟩
      · exact absurd (.inl ⟨t, p, before⟩) (not_mentions_new id)
    · rintro ⟨rfl, rfl, rfl⟩
      exact ⟨.inl ⟨rfl, rfl, rfl⟩, .inl ⟨rfl, rfl⟩⟩
  refine ⟨orders, ?_⟩
  rw [events, List.perm_singleton.mp one]
  rfl

end WatchState
end TinyKeeper
