import TinyKeeper.Lib.Bytes
import TinyKeeper.Lib.Reader
import TinyKeeper.Protocol

/-! The parsers of the requests. They take fields off the front of the buffer, and panic when a
field is longer than what is left. -/
namespace TinyKeeper

inductive OpCode
  | close | create | remove | exists | get | set | getACL | setACL | simpleList | sync | heartbeat
  | list | check | multi | create2 | reconfig | checkWatch | removeWatch | multiRead | auth
  | setWatch | setWatch2 | addWatch
  deriving DecidableEq, Repr

def OpCode.tryFrom (value : Int32) : Option OpCode :=
  match value.toInt with
  | -11 => some .close
  | 1 => some .create
  | 2 => some .remove
  | 3 => some .exists
  | 4 => some .get
  | 5 => some .set
  | 6 => some .getACL
  | 7 => some .setACL
  | 8 => some .simpleList
  | 9 => some .sync
  | 11 => some .heartbeat
  | 12 => some .list
  | 13 => some .check
  | 14 => some .multi
  | 15 => some .create2
  | 16 => some .reconfig
  | 17 => some .checkWatch
  | 18 => some .removeWatch
  | 22 => some .multiRead
  | 100 => some .auth
  | 101 => some .setWatch
  | 105 => some .setWatch2
  | 106 => some .addWatch
  | _ => none

/-- A parser of a part of a request, with the message of its panic. -/
abbrev FromBytes (α : Type) := Reader UInt8 String α

def advanceOutOfBounds : String := "advance out of bounds"

def midBeyondLen : String := "mid > len"

/-- `Buf::get_i32`. -/
def getI32 : FromBytes Int32 := do
  let bytes ← Reader.take 4 advanceOutOfBounds
  return i32FromBeBytes bytes

/-- `Buf::get_u8`. -/
def getU8 : FromBytes UInt8 := do
  let bytes ← Reader.take 1 advanceOutOfBounds
  return bytes.headI

/-- A length `as usize`: a negative one is extended to 64 bits. -/
def asUsize (length : Int32) : ℕ := (length.toInt % 2 ^ 64).toNat

/-- `std::str::from_utf8`. -/
def fromUtf8 (bytes : List UInt8) : Option String := String.fromUTF8? ⟨bytes.toArray⟩

/-- A field behind its length; `message` is that of the panic when it is too long. -/
def getField (message : String) : FromBytes (List UInt8) := do
  let length ← getI32
  Reader.take (asUsize length) message

/-- The path in front of a request. The buffer moves behind it once it is known to be UTF-8. -/
def getPath : FromBytes String := do
  let length ← getI32
  Reader.onCursor do
    let bytes ← Reader.take (asUsize length) midBeyondLen
    .ofOption (fromUtf8 bytes)

structure RequestHeader where
  xid : Int32
  opcode : OpCode

/-- An unknown opcode is an `Err`. -/
def RequestHeader.fromBytes : FromBytes RequestHeader := do
  let xid ← getI32
  let rawOpcode ← getI32
  let opcode ← .ofOption (OpCode.tryFrom rawOpcode)
  return ⟨xid, opcode⟩

/-- The loop over the ACL list, which is skipped. -/
def skipAcl : ℕ → FromBytes Unit
  | 0 => pure ()
  | n + 1 => do
    let _perms ← getI32
    let _scheme ← getField advanceOutOfBounds
    let _id ← getField advanceOutOfBounds
    skipAcl n

def CreateRequest.fromBytes : FromBytes CreateRequest := do
  let path ← getPath
  let data ← getField midBeyondLen
  let aclCount ← getI32
  skipAcl aclCount.toInt.toNat
  let flags ← getI32
  return ⟨path, data, flags⟩

/-- A path and a watch flag. -/
def ReadRequest.fromBytes : FromBytes ReadRequest := do
  let path ← getPath
  let watch ← getU8
  return ⟨path, watch != 0⟩

def GetDataRequest.fromBytes : FromBytes ReadRequest := ReadRequest.fromBytes

def GetChildrenRequest.fromBytes : FromBytes ReadRequest := ReadRequest.fromBytes

def ExistsRequest.fromBytes : FromBytes ReadRequest := ReadRequest.fromBytes

def SetDataRequest.fromBytes : FromBytes SetDataRequest := do
  let path ← getPath
  let data ← getField midBeyondLen
  let version ← getI32
  return ⟨path, data, version⟩

def DeleteRequest.fromBytes : FromBytes DeleteRequest := do
  let path ← getPath
  let version ← getI32
  return ⟨path, version⟩

/-- Unlike the other requests, this one checks its lengths. -/
def CheckRequest.fromBytes : FromBytes CheckRequest := Reader.onCursor do
  .check (4 ≤ (← .remaining))
  let length ← getI32
  .check (0 ≤ length.toInt)
  .check (length.toInt.toNat + 4 ≤ (← .remaining))
  let bytes ← Reader.take length.toInt.toNat midBeyondLen
  let path ← .ofOption (fromUtf8 bytes)
  let version ← getI32
  return ⟨path, version⟩

/-- The header of an operation of a batch. -/
structure MultiHeader where
  opType : Int32
  done : Bool
  err : Int32

def MultiHeader.size : ℕ := 4 + 1 + 4

def MultiHeader.fromBytes : FromBytes MultiHeader := Reader.onCursor do
  .check (MultiHeader.size ≤ (← .remaining))
  let opType ← getI32
  let done ← getU8
  .check (done = 0 ∨ done = 1)
  let err ← getI32
  return ⟨opType, done = 1, err⟩

def MultiOp.fromBytes (opType : Int32) : FromBytes MultiOp :=
  match opType.toInt with
  | 1 => return .create (← CreateRequest.fromBytes)
  | 5 => return .set (← SetDataRequest.fromBytes)
  | 2 => return .delete (← DeleteRequest.fromBytes)
  | 13 => return .check (← CheckRequest.fromBytes)
  | _ => .fail

/-- The loop over the operations. Every turn takes a header, so that with as much fuel as there are
bytes it ends when the buffer is empty. -/
def multiOps : ℕ → FromBytes (List MultiOp)
  | 0 => .fail
  | fuel + 1 => do
    let header ← MultiHeader.fromBytes
    if header.done then
      .check (header.opType = -1 ∧ header.err = -1)
      return []
    else
      .check (header.err = -1)
      let op ← MultiOp.fromBytes header.opType
      let ops ← multiOps fuel
      return op :: ops

def MultiRequest.fromBytes : FromBytes (List MultiOp) := Reader.onCursor do
  multiOps (← .remaining)

/-- The body of a request. The opcodes without a handler do not look at it. -/
def Request.fromBytes : OpCode → FromBytes Request
  | .create => return .create (← CreateRequest.fromBytes)
  | .get => return .get (← GetDataRequest.fromBytes)
  | .set => return .set (← SetDataRequest.fromBytes)
  | .remove => return .remove (← DeleteRequest.fromBytes)
  | .heartbeat => return .heartbeat
  | .simpleList => return .simpleList (← GetChildrenRequest.fromBytes)
  | .list => return .list (← GetChildrenRequest.fromBytes)
  | .exists => return .exists (← ExistsRequest.fromBytes)
  | .close => return .close
  | .multi => return .multi (← MultiRequest.fromBytes)
  | _ => .fail

end TinyKeeper
