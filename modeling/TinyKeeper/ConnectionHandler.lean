import TinyKeeper.Lib.Bytes
import TinyKeeper.Lib.Run

/-! The connection loop after the handshake: every turn selects between the two-stage reader of
the next frame and the notifications of the session, and drops the future of the branch that loses.
The idle timeout and failing writes are not modelled. -/
namespace TinyKeeper

def maxMessageLength : ℕ := 1048575

/-- The `read_frame` future at one of its two awaits. The bytes in its buffer have left the socket;
they go when the future is dropped. -/
inductive ReadFrame
  | readLength (lengthBuffer : List UInt8) (short : lengthBuffer.length < 4)
  | readPayload (messageLength : ℕ) (valid : messageLength ≤ maxMessageLength)
      (payload : List UInt8) (short : payload.length < messageLength)

inductive Poll
  | pending (future : ReadFrame)
  | ready (frame : Option (List UInt8))

/-- Poll `read_exact` for a buffer of `size` bytes, part of it filled: the buffer, and what is left
in the socket. -/
def readExact (size : ℕ) (buffer socket : List UInt8) : List UInt8 × List UInt8 :=
  (buffer ++ socket.take (size - buffer.length), socket.drop (size - buffer.length))

namespace ReadFrame

def start : ReadFrame := .readLength [] (by decide)

/-- The bytes the future has taken from the socket. -/
def taken : ReadFrame → List UInt8
  | .readLength lengthBuffer _ => lengthBuffer
  | .readPayload messageLength _ payload _ => beBytes 4 messageLength ++ payload

@[simp] theorem taken_start : start.taken = [] := rfl

def pollPayload (messageLength : ℕ) (valid : messageLength ≤ maxMessageLength)
    (payload socket : List UInt8) : Poll × List UInt8 :=
  let r := readExact messageLength payload socket
  if short : r.1.length < messageLength then
    (.pending (.readPayload messageLength valid r.1 short), r.2)
  else (.ready (some r.1), r.2)

/-- Poll the future: the first await may be passed and the second one reached in the same poll. -/
def poll (future : ReadFrame) (socket : List UInt8) : Poll × List UInt8 :=
  match future with
  | .readLength lengthBuffer _ =>
    let r := readExact 4 lengthBuffer socket
    if short : r.1.length < 4 then (.pending (.readLength r.1 short), r.2)
    else
      let messageLength := i32FromBeBytes r.1
      if valid : 0 ≤ messageLength.toInt ∧ messageLength.toInt ≤ maxMessageLength then
        pollPayload messageLength.toInt.toNat (by omega) [] r.2
      else (.ready none, r.2)
  | .readPayload messageLength valid payload _ => pollPayload messageLength valid payload socket

end ReadFrame

inductive LoopStatus
  | running | stopped | panicked
  deriving DecidableEq, Repr

/-- One connection: the bytes that wait in its socket, whether the client has shut its side down,
the read branch of the select, and the payloads passed to `dispatch` so far. -/
structure Connection where
  socket : List UInt8
  ended : Bool
  future : ReadFrame
  dispatched : List (List UInt8)
  status : LoopStatus

inductive ConnectionEvent
  | receive (chunk : List UInt8)
  | shutdown
  | poll
  | notify

def opcodeOf (payload : List UInt8) : Int32 := i32FromBeBytes (slice payload 4 8)

def closeOpcode : Int32 := -11

namespace Connection

def start : Connection := ⟨[], false, .start, [], .running⟩

/-- The body of the read branch. Slicing the opcode panics on a payload of fewer than eight
bytes. -/
def handleFrame (c : Connection) : Option (List UInt8) → Connection
  | none => { c with status := .stopped }
  | some payload =>
    if payload.length < 8 then { c with status := .panicked }
    else { c with
      dispatched := c.dispatched ++ [payload]
      status := if opcodeOf payload = closeOpcode then .stopped else .running }

/-- The select polls the read branch. At the end of the stream a read that waits for more fails. -/
def pollRead (c : Connection) : Connection :=
  match c.future.poll c.socket with
  | (.pending future, socket) =>
    if c.ended then { c with socket := socket, future := .start, status := .stopped }
    else { c with socket := socket, future := future }
  | (.ready frame, socket) => { c with socket := socket, future := .start }.handleFrame frame

/-- The notification branch wins, and the read branch starts over. -/
def notified (c : Connection) : Connection := { c with future := .start }

/-- The loop polls and receives notifications while it runs; chunks arrive at any time before the
client shuts its side down. -/
inductive Step : Connection → ConnectionEvent → Connection → Prop
  | receive {c : Connection} (chunk : List UInt8) (opened : c.ended = false) :
      Step c (.receive chunk) { c with socket := c.socket ++ chunk }
  | shutdown {c : Connection} : Step c .shutdown { c with ended := true }
  | poll {c : Connection} (running : c.status = .running) : Step c .poll c.pollRead
  | notify {c : Connection} (running : c.status = .running) : Step c .notify c.notified

end Connection
end TinyKeeper
