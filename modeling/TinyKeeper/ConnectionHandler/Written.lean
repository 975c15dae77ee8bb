import TinyKeeper.KeeperServer.Wire
import TinyKeeper.Lib.Stream

/-! The bytes that a connection writes after the handshake, and the client that takes them apart
while they arrive. -/
namespace TinyKeeper

/-- `write_frame`. -/
def writeFrame (data : List UInt8) : List UInt8 := i32ToBeBytes (Int32.ofNat data.length) ++ data

def getFrame : FromBytes (List UInt8) := getField advanceOutOfBounds

theorem getFrame_steady : getFrame.Steady := by
  unfold getFrame getField getI32
  refine Reader.Steady.bind (Reader.Steady.bind (Reader.steady_take _ _) fun bytes => ?_)
    fun length => Reader.steady_take _ _
  exact Reader.steady_pure _

theorem getFrame_consumes : getFrame.Consumes := by
  intro buf data rest reads
  have size := (getField_reads_iff.mp reads).length
  omega

/-- The frames that are written to a socket. -/
def written : Codec UInt8 (List UInt8) (List UInt8) Unit :=
  .ofReader getFrame writeFrame getFrame_consumes

theorem written_lawful : written.Lawful (fun data => data.length < 2 ^ 31) id :=
  Codec.ofReader_lawful getFrame_steady fun _ short =>
    getField_takes (Jute.buffer_eq_some_iff.mpr ⟨short, rfl⟩)

/-- What a client finds in a frame. -/
inductive Received
  | reply (reply : Reply)
  | notification (notification : WatchNotification)
  deriving DecidableEq

namespace Received

def toBytes : Received → List UInt8
  | .reply r => r.toBytes
  | .notification n => n.toBytes

def reply? : Received → Option Reply
  | .reply r => some r
  | .notification _ => none

/-- The client keeps the opcodes of its requests until their replies come. The xid tells a
notification from a reply. -/
def fromBytes (pending : List OpCode) (payload : List UInt8) : Option (Received × List OpCode) :=
  if xidOf payload = -1 then
    match getNotification payload with
    | .ok (some n, []) => some (.notification n, pending)
    | _ => none
  else
    match pending with
    | [] => none
    | opcode :: pending =>
      match getReply opcode payload with
      | .ok (some r, []) => some (.reply r, pending)
      | _ => none

/-- The client reads one frame after the other. -/
def allFromBytes (pending : List OpCode) : List (List UInt8) → Option (List Received)
  | [] => some []
  | payload :: payloads => do
    let (received, pending) ← fromBytes pending payload
    let later ← allFromBytes pending payloads
    return received :: later

/-- The frames hold the replies to the requests in their order, with notifications in between. -/
inductive Expected : List OpCode → List Received → Prop
  | done {pending : List OpCode} : Expected pending []
  | reply {opcode : OpCode} {pending : List OpCode} {reply : Reply} {later : List Received}
      (answers : reply.Answers opcode) (rest : Expected pending later) :
      Expected (opcode :: pending) (.reply reply :: later)
  | notification {pending : List OpCode} {notification : WatchNotification}
      {later : List Received} (rest : Expected pending later) :
      Expected pending (.notification notification :: later)

/-- No number has left the range of its field, and no reply looks like a notification. -/
structure Sound (received : Received) : Prop where
  length : received.toBytes.length < 2 ^ 31
  reply : ∀ r, received = .reply r → r.InRange ∧ r.xid ≠ -1
  notification : ∀ n, received = .notification n → n.InRange

variable {pending : List OpCode} {received later : List Received}

theorem xidOf_reply (reply : Reply) : xidOf reply.toBytes = reply.xid := by
  rw [xidOf, Reply.toBytes, ReplyHeader.toBytes]
  simp only [List.append_assoc]
  rw [List.take_left' (i32ToBeBytes_length _), i32FromBeBytes_i32ToBeBytes]

theorem xidOf_notification (notification : WatchNotification) :
    xidOf notification.toBytes = -1 := by
  rw [xidOf, WatchNotification.toBytes]
  simp only [List.append_assoc]
  rw [List.take_left' (i32ToBeBytes_length _), i32FromBeBytes_i32ToBeBytes]

theorem fromBytes_toBytes_reply {opcode : OpCode} {reply : Reply} (answers : reply.Answers opcode)
    (range : reply.InRange) (xid : reply.xid ≠ -1) :
    fromBytes (opcode :: pending) reply.toBytes = some (.reply reply, pending) := by
  have reads := getReply_takes answers range []
  rw [List.append_nil, Reader.Reads] at reads
  rw [fromBytes, xidOf_reply, if_neg xid]
  simp only [reads]

theorem fromBytes_toBytes_notification {notification : WatchNotification}
    (range : notification.InRange) :
    fromBytes pending notification.toBytes = some (.notification notification, pending) := by
  have reads := getNotification_takes range []
  rw [List.append_nil, Reader.Reads] at reads
  unfold fromBytes
  rw [xidOf_notification, if_pos rfl]
  simp only [reads]

theorem allFromBytes_toBytes (expected : Expected pending received)
    (sound : ∀ r ∈ received, r.Sound) :
    allFromBytes pending (received.map toBytes) = some received := by
  induction expected with
  | done => rfl
  | reply answers rest ih =>
    obtain ⟨first, sound⟩ := List.forall_mem_cons.mp sound
    obtain ⟨range, xid⟩ := first.reply _ rfl
    rw [List.map_cons, allFromBytes, toBytes, fromBytes_toBytes_reply answers range xid]
    simp [ih sound]
  | notification rest ih =>
    obtain ⟨first, sound⟩ := List.forall_mem_cons.mp sound
    rw [List.map_cons, allFromBytes, toBytes,
      fromBytes_toBytes_notification (first.notification _ rfl)]
    simp [ih sound]

theorem Expected.of_initial {first : List Received} (expected : Expected pending received)
    (initial : first <+: received) : Expected pending first := by
  induction expected generalizing first with
  | done =>
    obtain rfl := List.prefix_nil.mp initial
    exact .done
  | reply answers rest ih =>
    cases first with
    | nil => exact .done
    | cons r first =>
      obtain ⟨rfl, shorter⟩ := List.cons_prefix_cons.mp initial
      exact .reply answers (ih shorter)
  | notification rest ih =>
    cases first with
    | nil => exact .done
    | cons r first =>
      obtain ⟨rfl, shorter⟩ := List.cons_prefix_cons.mp initial
      exact .notification (ih shorter)

/-- However much of the stream has arrived, the client reads the frames that are whole, and each
of them is what the connection wrote. -/
theorem client_reads (expected : Expected pending received) (sound : ∀ r ∈ received, r.Sound)
    (arrived : ℕ) :
    ∃ whole, whole <+: received ∧
      allFromBytes pending (written.decodeAll
        ((written.encodeAll (received.map toBytes)).take arrived)).1 = some whole ∧
      ∀ n < received.length,
        (n < whole.length ↔
          (written.encodeAll ((received.take (n + 1)).map toBytes)).length ≤ arrived) := by
  have fits : ∀ data ∈ received.map toBytes, data.length < 2 ^ 31 := by
    intro data mem
    obtain ⟨r, there, rfl⟩ := List.mem_map.mp mem
    exact (sound r there).length
  have split := written_lawful.decodeAll_take (received.map toBytes) arrived fits
  have initial := written.intact_initial arrived (received.map toBytes)
  obtain ⟨whole, initial, same⟩ : ∃ whole, whole <+: received ∧
      written.intact arrived (received.map toBytes) = whole.map toBytes := by
    refine ⟨received.take (written.intact arrived (received.map toBytes)).length,
      List.take_prefix _ _, ?_⟩
    rw [List.map_take]
    exact List.prefix_iff_eq_take.mp initial
  refine ⟨whole, initial, ?_, fun n less => ?_⟩
  · rw [split, List.map_id, same]
    exact allFromBytes_toBytes (expected.of_initial initial) fun r mem =>
      sound r (initial.subset mem)
  · have cut := written.lt_length_intact_iff arrived (received.map toBytes) n (by simpa using less)
    rw [same, List.length_map, ← List.map_take] at cut
    exact cut

end Received
end TinyKeeper
