import TinyKeeper.ConnectionHandler.Framing

/-! Which of the frames a client sends the connection loop dispatches, over every way the network
cuts their bytes and every interleaving with notifications. -/
namespace TinyKeeper

def ConnectionEvent.bytes : ConnectionEvent → List UInt8
  | .receive chunk => chunk
  | .shutdown => []
  | .poll => []
  | .notify => []

/-- The bytes that reach the connection over a list of events. -/
def received (es : List ConnectionEvent) : List UInt8 := es.flatMap ConnectionEvent.bytes

/-- The payloads the loop can dispatch one after another: each within the limits of the reader and
of the opcode slice, and none after a close request. -/
structure Conforming (payloads : List (List UInt8)) : Prop where
  sized : ∀ payload ∈ payloads, 8 ≤ payload.length ∧ payload.length ≤ maxMessageLength
  close_last : ∀ payload ∈ payloads.dropLast, opcodeOf payload ≠ closeOpcode

theorem Conforming.snoc {payloads : List (List UInt8)} {payload : List UInt8}
    (h : Conforming payloads) (size : 8 ≤ payload.length ∧ payload.length ≤ maxMessageLength)
    (opened : ∀ p ∈ payloads, opcodeOf p ≠ closeOpcode) : Conforming (payloads ++ [payload]) where
  sized := by
    intro p mem
    obtain old | new := List.mem_append.mp mem
    · exact h.sized p old
    · rw [List.mem_singleton.mp new]
      exact size
  close_last := by
    rw [List.dropLast_concat]
    exact opened

theorem ReadFrame.decode_taken (future : ReadFrame) : frames.decode future.taken = .ok none := by
  cases future with
  | readLength lengthBuffer short => exact frames_decode_short lengthBuffer short
  | readPayload messageLength valid payload short =>
    rw [taken, frames_decode_length _ _ (by simp), beNat_header valid, if_neg (by omega),
      if_pos short]

namespace Connection

/-- The bytes of the stream from the start of the frame that is being read. -/
def unread (c : Connection) : List UInt8 := c.future.taken ++ c.socket

/-- What a poll of the read branch does to the connection. -/
inductive PollOutcome (c : Connection) : Connection → Prop
  | waiting {future : ReadFrame} (decoded : frames.decode c.unread = .ok none)
      (taken : future.taken = c.unread) :
      PollOutcome c { c with socket := [], future := future }
  | cutOff (decoded : frames.decode c.unread = .ok none) (ended : c.ended = true) :
      PollOutcome c { c with socket := [], future := .start, status := .stopped }
  | refused {rest : List UInt8} (decoded : frames.decode c.unread = .error ())
      (less : rest.length ≤ c.unread.length) :
      PollOutcome c { c with socket := rest, future := .start, status := .stopped }
  | tooShort {payload rest : List UInt8}
      (decoded : frames.decode c.unread = .ok (some (payload, rest)))
      (short : payload.length < 8) :
      PollOutcome c { c with socket := rest, future := .start, status := .panicked }
  | dispatch {payload rest : List UInt8}
      (decoded : frames.decode c.unread = .ok (some (payload, rest)))
      (long : 8 ≤ payload.length) :
      PollOutcome c { c with
        socket := rest
        future := .start
        dispatched := c.dispatched ++ [payload]
        status := if opcodeOf payload = closeOpcode then .stopped else .running }

theorem pollRead_outcome (c : Connection) : PollOutcome c c.pollRead := by
  have polled := ReadFrame.poll_polled c.future c.socket
  rw [pollRead]
  cases h : c.future.poll c.socket with
  | mk result rest =>
    rw [h] at polled
    cases polled with
    | short decoded taken =>
      dsimp only
      split_ifs with ended
      · exact .cutOff decoded ended
      · exact .waiting decoded taken
    | @frame payload _ decoded =>
      dsimp only [handleFrame]
      by_cases short : payload.length < 8
      · rw [if_pos short]
        exact .tooShort decoded short
      · rw [if_neg short]
        exact .dispatch decoded (by omega)
    | invalid decoded less => exact .refused decoded less

/-- A step takes no bytes away from a frame that is being read: a notification is taken only when
the reader holds nothing. -/
def Undisturbed (c : Connection) (e : ConnectionEvent) : Prop :=
  e = .notify → c.future.taken = []

def UndisturbedStep (c : Connection) (e : ConnectionEvent) (d : Connection) : Prop :=
  Step c e d ∧ Undisturbed c e

/-- The bytes the connection accounts for. -/
def weight (c : Connection) : ℕ := (frames.encodeAll c.dispatched).length + c.unread.length

theorem PollOutcome.weight_le {c d : Connection} (h : PollOutcome c d) : d.weight ≤ c.weight := by
  cases h with
  | waiting decoded taken => simp [weight, unread, taken]
  | cutOff decoded ended => simp [weight, unread]
  | refused decoded less => simpa [weight, unread] using less
  | tooShort decoded short =>
    obtain ⟨split, fits⟩ := (frames_decode_iff _ _ _).mp decoded
    rw [weight, weight, split]
    simp [unread]
  | dispatch decoded long =>
    obtain ⟨split, fits⟩ := (frames_decode_iff _ _ _).mp decoded
    rw [weight, weight, split, frames.encodeAll_append]
    simp [unread, Nat.add_assoc]

theorem Step.weight_le {c d : Connection} {e : ConnectionEvent} (h : Step c e d) :
    d.weight ≤ c.weight + e.bytes.length := by
  cases h with
  | receive chunk opened => simp [weight, unread, ConnectionEvent.bytes]; omega
  | shutdown => exact Nat.le_add_right _ _
  | poll running => exact c.pollRead_outcome.weight_le
  | notify running => simp [weight, unread, notified, ConnectionEvent.bytes]

/-- A step that loses no byte is undisturbed. -/
theorem Step.undisturbed {c d : Connection} {e : ConnectionEvent} (h : Step c e d)
    (kept : d.weight = c.weight + e.bytes.length) : Undisturbed c e := by
  intro notify
  subst notify
  cases h with
  | notify running => simpa [weight, unread, notified, ConnectionEvent.bytes] using kept

/-- Every payload dispatched has passed the checks, and the loop ends with a close request. -/
structure Checked (c : Connection) : Prop where
  conforming : Conforming c.dispatched
  opened : c.status = .running → ∀ payload ∈ c.dispatched, opcodeOf payload ≠ closeOpcode

theorem Checked.step {c d : Connection} {e : ConnectionEvent} (h : Checked c) (step : Step c e d) :
    Checked d := by
  cases step with
  | receive chunk opened => exact ⟨h.conforming, h.opened⟩
  | shutdown => exact ⟨h.conforming, h.opened⟩
  | notify running => exact ⟨h.conforming, h.opened⟩
  | poll running =>
    have opened := h.opened running
    have outcome := c.pollRead_outcome
    generalize c.pollRead = d at outcome
    cases outcome with
    | waiting decoded taken => exact ⟨h.conforming, h.opened⟩
    | cutOff decoded ended => exact ⟨h.conforming, nofun⟩
    | refused decoded less => exact ⟨h.conforming, nofun⟩
    | tooShort decoded short => exact ⟨h.conforming, nofun⟩
    | dispatch decoded long =>
      obtain ⟨split, fits⟩ := (frames_decode_iff _ _ _).mp decoded
      refine ⟨h.conforming.snoc ⟨long, fits⟩ opened, ?_⟩
      intro still payload mem
      obtain old | new := List.mem_append.mp mem
      · exact opened payload old
      · rw [List.mem_singleton.mp new]
        intro close
        simp [close] at still

theorem Checked.start : Checked start where
  conforming := ⟨nofun, nofun⟩
  opened := nofun

/-- The loop has dispatched an initial part of the payloads and stands at the start of the next
frame; it stops short of the last payload only where one does not conform or the stream ends. -/
structure OnTrack (payloads : List (List UInt8)) (future : List UInt8) (c : Connection)
    (more : List (List UInt8)) : Prop where
  split : payloads = c.dispatched ++ more
  stream : c.status = .running → c.unread ++ future = frames.encodeAll more
  complete : Conforming payloads → (c.ended = true → future = []) → c.status ≠ .running → more = []

section OnTrack
variable {payloads : List (List UInt8)} {future : List UInt8} {c d : Connection}
  {more : List (List UInt8)}
  (fits : ∀ payload ∈ payloads, payload.length ≤ maxMessageLength)
include fits

theorem OnTrack.more_fits (h : OnTrack payloads future c more) :
    ∀ payload ∈ more, payload.length ≤ maxMessageLength := by
  intro payload mem
  apply fits
  rw [h.split]
  exact List.mem_append_right _ mem

theorem OnTrack.poll (h : OnTrack payloads future c more) (running : c.status = .running)
    (outcome : PollOutcome c d) : ∃ more', OnTrack payloads future d more' := by
  have front :=
    frames_lawful.decode_front more c.unread future (h.more_fits fits) (h.stream running)
  cases outcome with
  | waiting decoded taken =>
    refine ⟨more, h.split, ?_, fun _ _ stopped => absurd running stopped⟩
    intro _
    simpa [unread, taken] using h.stream running
  | cutOff decoded ended =>
    refine ⟨more, h.split, by simp, ?_⟩
    intro _ nothing _
    obtain ⟨-, last⟩ | ⟨payload, more', rest, -, other, -⟩ := front
    · exact last (nothing ended)
    · rw [decoded] at other
      cases other
  | refused decoded less =>
    obtain ⟨other, -⟩ | ⟨payload, more', rest, -, other, -⟩ := front
    all_goals
      rw [decoded] at other
      cases other
  | @tooShort payload rest decoded short =>
    refine ⟨more, h.split, by simp, ?_⟩
    intro conforming _ _
    obtain ⟨other, -⟩ | ⟨payload, more', rest, next, other, -⟩ := front
    all_goals
      rw [decoded] at other
      cases other
    have sized := conforming.sized payload (by rw [h.split, next]; simp)
    rw [id] at short
    omega
  | @dispatch payload rest decoded long =>
    obtain ⟨other, -⟩ | ⟨payload, more', rest, next, other, stream⟩ := front
    all_goals
      rw [decoded] at other
      cases other
    refine ⟨more', by simp [h.split, next], fun _ => by simpa [unread] using stream, ?_⟩
    intro conforming _ stopped
    by_contra nonempty
    have early : payload ∈ payloads.dropLast := by
      rw [h.split, next, List.dropLast_append_of_ne_nil (by simp),
        List.dropLast_cons_of_ne_nil nonempty]
      simp
    exact stopped (if_neg (conforming.close_last payload early))

theorem OnTrack.step {e : ConnectionEvent} (h : OnTrack payloads (e.bytes ++ future) c more)
    (step : UndisturbedStep c e d) : ∃ more', OnTrack payloads future d more' := by
  obtain ⟨step, undisturbed⟩ := step
  cases step with
  | receive chunk opened =>
    refine ⟨more, h.split, ?_, ?_⟩
    · intro running
      simpa [unread, ConnectionEvent.bytes] using h.stream running
    · intro conforming nothing stopped
      exact h.complete conforming (fun ended => by simp [opened] at ended) stopped
  | shutdown =>
    refine ⟨more, h.split, h.stream, ?_⟩
    intro conforming nothing stopped
    exact h.complete conforming (fun _ => nothing rfl) stopped
  | poll running => exact OnTrack.poll fits h running c.pollRead_outcome
  | notify running =>
    refine ⟨more, h.split, ?_, fun _ _ stopped => absurd running stopped⟩
    intro _
    simpa [unread, notified, undisturbed rfl, ConnectionEvent.bytes] using h.stream running

theorem onTrack_of_run {es : List ConnectionEvent} (run : Run UndisturbedStep start es c)
    (sent : received es ++ future = frames.encodeAll payloads) :
    ∃ more, OnTrack payloads future c more := by
  induction run generalizing future with
  | nil => exact ⟨payloads, rfl, fun _ => sent, nofun⟩
  | @snoc es t e u init last ih =>
    have before : received es ++ (e.bytes ++ future) = frames.encodeAll payloads := by
      simpa [received] using sent
    obtain ⟨more, track⟩ := ih before
    exact track.step fits last

end OnTrack

/-- A run in which the network delivers the frames of `payloads` and the loop reads on as far as it
can. -/
structure Delivery (payloads : List (List UInt8)) (es : List ConnectionEvent) (c : Connection) :
    Prop where
  run : Run Step start es c
  sent : received es = frames.encodeAll payloads
  drained : c.status = .running → c.socket = []

theorem Delivery.dispatched_eq {payloads : List (List UInt8)} {es : List ConnectionEvent}
    {c : Connection} (h : Delivery payloads es c) (run : Run UndisturbedStep start es c)
    (conforming : Conforming payloads) : c.dispatched = payloads := by
  have fits := fun payload mem => (conforming.sized payload mem).2
  have sent : received es ++ [] = frames.encodeAll payloads := by simpa using h.sent
  obtain ⟨more, track⟩ := onTrack_of_run fits run sent
  have nothing : more = [] := by
    by_cases running : c.status = .running
    · have stream := track.stream running
      rw [unread, h.drained running, List.append_nil] at stream
      obtain ⟨-, last⟩ | ⟨payload, more', rest, -, other, -⟩ :=
        frames_lawful.decode_front more c.future.taken [] (track.more_fits fits) stream
      · exact last rfl
      · rw [c.future.decode_taken] at other
        cases other
    · exact track.complete conforming (fun _ => rfl) running
  rw [track.split, nothing, List.append_nil]

theorem length_received (es : List ConnectionEvent) :
    (received es).length = (es.map (fun e => e.bytes.length)).sum := by
  rw [received, List.length_flatMap]

/-- If the payloads are dispatched then no byte was lost on the way. -/
theorem Delivery.undisturbed {payloads : List (List UInt8)} {es : List ConnectionEvent}
    {c : Connection} (h : Delivery payloads es c) (all : c.dispatched = payloads) :
    Run UndisturbedStep start es c := by
  have full : start.weight + (es.map (fun e => e.bytes.length)).sum ≤ c.weight := by
    rw [← length_received, h.sent, weight, weight, all]
    simp [start, unread]
  have kept := h.run.full_weight weight (fun e => e.bytes.length)
    (fun _ _ _ step => step.weight_le) full
  exact kept.mono (fun _ _ _ step => ⟨step.1, step.1.undisturbed step.2⟩)

theorem Delivery.conforming {payloads : List (List UInt8)} {es : List ConnectionEvent}
    {c : Connection} (h : Delivery payloads es c) (all : c.dispatched = payloads) :
    Conforming payloads := by
  have checked : Checked c :=
    h.run.invariant Checked Checked.start (fun _ _ _ checked step => checked.step step)
  exact all ▸ checked.conforming

/-- The loop dispatches exactly the payloads the client sends if and only if no notification is
taken while the reader holds part of a frame, and the payloads are ones it can dispatch. -/
theorem dispatched_iff (payloads : List (List UInt8)) (es : List ConnectionEvent) (c : Connection)
    (h : Delivery payloads es c) :
    c.dispatched = payloads ↔ Run UndisturbedStep start es c ∧ Conforming payloads := by
  constructor
  · intro all
    exact ⟨h.undisturbed all, h.conforming all⟩
  · intro ⟨run, conforming⟩
    exact h.dispatched_eq run conforming

def pingRequest : List UInt8 := [0, 0, 0, 1, 0, 0, 0, 11]

theorem pingRequest_conforming : Conforming [pingRequest] where
  sized := by
    intro payload mem
    rw [List.mem_singleton.mp mem]
    decide
  close_last := nofun

theorem dispatched_iff_ping :
    ∃ es c, Delivery [pingRequest] es c ∧ .notify ∈ es ∧ c.dispatched = [pingRequest] := by
  let opened := { start.notified with socket := start.notified.socket ++ [0, 0] }
  let held := opened.pollRead
  let whole := { held with socket := held.socket ++ [0, 8, 0, 0, 0, 1, 0, 0, 0, 11] }
  have notified : UndisturbedStep start .notify start.notified := ⟨.notify rfl, fun _ => rfl⟩
  have first : UndisturbedStep start.notified (.receive [0, 0]) opened := ⟨.receive _ rfl, nofun⟩
  have partly : UndisturbedStep opened .poll held := ⟨.poll rfl, nofun⟩
  have second : UndisturbedStep held (.receive [0, 8, 0, 0, 0, 1, 0, 0, 0, 11]) whole :=
    ⟨.receive _ (by decide +kernel), nofun⟩
  have wholly : UndisturbedStep whole .poll whole.pollRead := ⟨.poll (by decide +kernel), nofun⟩
  have run := ((((Run.nil.snoc notified).snoc first).snoc partly).snoc second).snoc wholly
  have delivery : Delivery [pingRequest] _ whole.pollRead :=
    ⟨run.mono (fun _ _ _ step => step.1), by decide +kernel, by decide +kernel⟩
  exact ⟨_, _, delivery, by simp,
    (dispatched_iff _ _ _ delivery).mpr ⟨run, pingRequest_conforming⟩⟩

/-- A ping arrives in two parts, and a notification is taken in between. The reader starts over in
the middle of the length, waits for 524288 bytes, and the ping is never dispatched. -/
theorem notification_cuts_frame :
    ∃ es c, Delivery [pingRequest] es c ∧ Conforming [pingRequest] ∧ c.dispatched = [] := by
  let opened := { start with socket := start.socket ++ [0, 0] }
  let held := opened.pollRead
  let whole := { held.notified with
    socket := held.notified.socket ++ [0, 8, 0, 0, 0, 1, 0, 0, 0, 11] }
  have first : Step start (.receive [0, 0]) opened := .receive _ rfl
  have partly : Step opened .poll held := .poll rfl
  have notified : Step held .notify held.notified := .notify (by decide +kernel)
  have second : Step held.notified (.receive [0, 8, 0, 0, 0, 1, 0, 0, 0, 11]) whole :=
    .receive _ (by decide +kernel)
  have wholly : Step whole .poll whole.pollRead := .poll (by decide +kernel)
  have run := ((((Run.nil.snoc first).snoc partly).snoc notified).snoc second).snoc wholly
  exact ⟨_, _, ⟨run, by decide +kernel, by decide +kernel⟩, pingRequest_conforming,
    by decide +kernel⟩

end Connection
end TinyKeeper
