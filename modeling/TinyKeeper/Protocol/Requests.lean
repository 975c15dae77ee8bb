import TinyKeeper.Protocol.Bounds
import TinyKeeper.Protocol.Jute

/-! The bytes that a client sends for each of its requests. The parsers take every request back, and
whatever they accept is a request that a client can send, in no more bytes. -/
namespace TinyKeeper

/-- A request as a client sends it. -/
inductive SentRequest
  | create (req : CreateRequest) (acls : List Acl)
  | get (req : ReadRequest)
  | set (req : SetDataRequest)
  | remove (req : DeleteRequest)
  | heartbeat
  | simpleList (req : ReadRequest)
  | list (req : ReadRequest)
  | exists (req : ReadRequest)
  | close
  | multi (ops : List SentOp)
  deriving DecidableEq

namespace SentRequest

/-- What the server makes of the request. -/
def request : SentRequest → Request
  | .create req _ => .create req
  | .get req => .get req
  | .set req => .set req
  | .remove req => .remove req
  | .heartbeat => .heartbeat
  | .simpleList req => .simpleList req
  | .list req => .list req
  | .exists req => .exists req
  | .close => .close
  | .multi ops => .multi (ops.map SentOp.op)

def opcode : SentRequest → OpCode
  | .create _ _ => .create
  | .get _ => .get
  | .set _ => .set
  | .remove _ => .remove
  | .heartbeat => .heartbeat
  | .simpleList _ => .simpleList
  | .list _ => .list
  | .exists _ => .exists
  | .close => .close
  | .multi _ => .multi

/-- Every string, buffer and list of the request has a length that fits its field. -/
def Fits : SentRequest → Prop
  | .create req acls => (SentOp.create req acls).Fits
  | .set req => (SentOp.set req).Fits
  | .remove req => (SentOp.delete req).Fits
  | .get req | .simpleList req | .list req | .exists req => req.path.utf8ByteSize < 2 ^ 31
  | .heartbeat | .close => True
  | .multi ops => ∀ sent ∈ ops, sent.Fits

end SentRequest

namespace Jute

/-- A path and a watch flag. -/
def read (req : ReadRequest) : Option (List UInt8) := do
  let path ← string req.path
  return path ++ [if req.watch then 1 else 0]

/-- What follows the header. -/
def request : SentRequest → Option (List UInt8)
  | .create req entries => body (.create req entries)
  | .set req => body (.set req)
  | .remove req => body (.delete req)
  | .get req | .simpleList req | .list req | .exists req => read req
  | .heartbeat | .close => some []
  | .multi ops => multi ops

/-- The payload of a frame. -/
def payload (xid : Int32) (sent : SentRequest) : Option (List UInt8) := do
  let body ← request sent
  return i32ToBeBytes xid ++ (i32ToBeBytes sent.opcode.asI32 ++ body)

theorem read_ne_none_iff (req : ReadRequest) :
    read req ≠ none ↔ req.path.utf8ByteSize < 2 ^ 31 := by
  rw [Option.ne_none_iff_exists', ← exists_string_iff, read]
  cases string req.path <;> simp

theorem request_ne_none_iff (sent : SentRequest) : request sent ≠ none ↔ sent.Fits := by
  cases sent with
  | create req entries => exact body_ne_none_iff (.create req entries)
  | set req => exact body_ne_none_iff (.set req)
  | remove req => exact body_ne_none_iff (.delete req)
  | get req | simpleList req | list req | «exists» req => exact read_ne_none_iff req
  | heartbeat | close => exact iff_of_true (Option.some_ne_none []) trivial
  | multi ops => exact multi_ne_none_iff ops

/-- Whatever fits its fields has an encoding. -/
theorem payload_ne_none_iff (xid : Int32) (sent : SentRequest) :
    payload xid sent ≠ none ↔ sent.Fits := by
  rw [← request_ne_none_iff, payload]
  cases request sent <;> simp

theorem payload_eq_some_iff {xid : Int32} {sent : SentRequest} {bytes : List UInt8} :
    payload xid sent = some bytes ↔ ∃ body, request sent = some body ∧
      bytes = i32ToBeBytes xid ++ (i32ToBeBytes sent.opcode.asI32 ++ body) := by
  rw [payload, Option.bind_eq_bind, Option.bind_eq_some_iff]
  simp only [Option.pure_def, Option.some.injEq, eq_comm]

end Jute

section Takes
variable {bytes : List UInt8}

theorem RequestHeader.fromBytes_takes (xid : Int32) (opcode : OpCode) :
    RequestHeader.fromBytes.Takes (i32ToBeBytes xid ++ i32ToBeBytes opcode.asI32)
      ⟨xid, opcode⟩ := by
  have known := Reader.takes_ofOption (σ := UInt8) (ε := String) opcode.tryFrom_asI32
  have header : RequestHeader.fromBytes.Takes
      (i32ToBeBytes xid ++ (i32ToBeBytes opcode.asI32 ++ [])) ⟨xid, opcode⟩ :=
    (getI32_takes xid).bind <| (getI32_takes opcode.asI32).bind known.map
  rwa [List.append_nil] at header

theorem ReadRequest.fromBytes_takes {req : ReadRequest} (encoded : Jute.read req = some bytes) :
    ReadRequest.fromBytes.Takes bytes req := by
  simp only [Jute.read, Option.bind_eq_bind, Option.bind_eq_some_iff] at encoded
  obtain ⟨path, hpath, same⟩ := encoded
  obtain rfl := Option.some.inj same
  have flag : ((if req.watch then 1 else 0 : UInt8) != 0) = req.watch := by
    cases req.watch <;> rfl
  have last := (getU8_takes (if req.watch then 1 else 0)).map
    (g := fun watch => (⟨req.path, watch != 0⟩ : ReadRequest))
  rw [flag] at last
  exact (getString_takes hpath).bind last

theorem MultiRequest.fromBytes_takes {ops : List SentOp} (encoded : Jute.multi ops = some bytes) :
    MultiRequest.fromBytes.Takes bytes (ops.map SentOp.op) := by
  apply Reader.Takes.onCursor
  refine Reader.takes_remaining_bind fun n enough => ?_
  exact multiOps_takes encoded ((Jute.length_lt encoded).trans_le enough)

/-- The parser that belongs to the opcode takes the body of the request. -/
theorem Request.fromBytes_takes {sent : SentRequest} (encoded : Jute.request sent = some bytes) :
    (Request.fromBytes sent.opcode).Takes bytes sent.request := by
  cases sent with
  | create req entries => exact (CreateRequest.fromBytes_takes encoded).map
  | set req => exact (SetDataRequest.fromBytes_takes encoded).map
  | remove req => exact (DeleteRequest.fromBytes_takes encoded).map
  | get req | simpleList req | list req | «exists» req =>
    exact (ReadRequest.fromBytes_takes encoded).map
  | heartbeat | close =>
    obtain rfl := Option.some.inj encoded
    exact Reader.takes_pure
  | multi ops => exact (MultiRequest.fromBytes_takes encoded).map

end Takes

/-! The other way round: what a parser accepts has an encoding. -/

/-- What the reader takes from a short buffer has an encoding, in no more bytes. -/
def Reader.Reencodes {α : Type} (r : FromBytes α) (encode : α → Option (List UInt8)) : Prop :=
  ∀ buf a rest, buf.length < 2 ^ 31 → r.Reads buf a rest →
    ∃ bytes, encode a = some bytes ∧ bytes.length + rest.length ≤ buf.length

theorem Reader.Reencodes.map {α β : Type} {r : FromBytes α} {g : α → β}
    {encode : β → Option (List UInt8)} (h : r.Reencodes fun a => encode (g a)) :
    (r >>= fun a => pure (g a) : FromBytes β).Reencodes encode := by
  intro buf b rest short reads
  simp only [Reader.reads_bind_iff, Reader.reads_pure_iff] at reads
  obtain ⟨a, _, reads, rfl, rfl⟩ := reads
  exact h buf a _ short reads

theorem Reader.reencodes_fail {α : Type} {encode : α → Option (List UInt8)} :
    (Reader.fail : FromBytes α).Reencodes encode :=
  fun _ _ _ _ reads => absurd reads Reader.not_reads_fail

section Reencodes
variable {buf rest : List UInt8}

theorem fromUtf8_eq_some {bytes : List UInt8} {s : String} (decoded : fromUtf8 bytes = some s) :
    s.toUTF8.data.toList = bytes := by
  rw [fromUtf8, String.fromUTF8?] at decoded
  split_ifs at decoded with valid
  obtain rfl := Option.some.inj decoded
  rfl

theorem FieldAt.length {field : List UInt8} (h : FieldAt buf field rest) :
    4 + field.length + rest.length = buf.length := by
  obtain ⟨length, four, -, rfl⟩ := h
  simp [four, Nat.add_assoc]

theorem getI32_reads_length {n : Int32} (reads : getI32.Reads buf n rest) :
    4 + rest.length = buf.length := by
  obtain ⟨bytes, four, rfl, -⟩ := getI32_reads_iff.mp reads
  simp [four]

theorem getU8_reads_length {b : UInt8} (reads : getU8.Reads buf b rest) :
    1 + rest.length = buf.length := by
  simp only [getU8, Reader.reads_bind_iff, Reader.reads_take_iff, Reader.reads_pure_iff] at reads
  obtain ⟨front, middle, ⟨rfl, one⟩, -, rfl⟩ := reads
  simp [one]

theorem Jute.buffer_of_short {field : List UInt8} (short : field.length < 2 ^ 31) :
    ∃ bytes, buffer field = some bytes ∧ bytes.length = 4 + field.length :=
  ⟨_, buffer_eq_some_iff.mpr ⟨short, rfl⟩, by simp⟩

theorem getField_reencodes (message : String) : (getField message).Reencodes Jute.buffer := by
  intro buf field rest short reads
  have size := (getField_reads_iff.mp reads).length
  have fits : field.length < 2 ^ 31 := by omega
  obtain ⟨bytes, encoded, length⟩ := Jute.buffer_of_short fits
  exact ⟨bytes, encoded, by omega⟩

theorem getPath_reencodes : getPath.Reencodes Jute.string := by
  intro buf path rest short reads
  obtain ⟨field, at_, utf8⟩ := getPath_reads_iff.mp reads
  have size := at_.length
  have fits : field.length < 2 ^ 31 := by omega
  obtain ⟨bytes, encoded, length⟩ := Jute.buffer_of_short fits
  exact ⟨bytes, by rw [Jute.string, fromUtf8_eq_some utf8, encoded], by omega⟩

/-- The entries of an access list are not kept. -/
theorem skipAcl_reads_length {n : ℕ} (reads : (skipAcl n).Reads buf () rest) :
    rest.length ≤ buf.length := by
  induction n generalizing buf with
  | zero => exact Nat.le_of_eq (congrArg List.length (Reader.reads_pure_iff.mp reads).2.symm)
  | succ n ih =>
    simp only [skipAcl, Reader.reads_bind_iff] at reads
    obtain ⟨_, _, perms, _, _, scheme, _, _, id, reads⟩ := reads
    have sizes := ih reads
    have first := getI32_reads_length perms
    have second := (getField_reads_iff.mp scheme).length
    have third := (getField_reads_iff.mp id).length
    omega

theorem CreateRequest.fromBytes_reencodes :
    CreateRequest.fromBytes.Reencodes fun req => Jute.body (.create req []) := by
  intro buf req rest short reads
  simp only [CreateRequest.fromBytes, Reader.reads_bind_iff, Reader.reads_pure_iff] at reads
  obtain ⟨path, _, hpath, data, _, hdata, count, _, hcount, ⟨⟩, _, hacls, flags, _, hflags, rfl,
    rfl⟩ := reads
  obtain ⟨pathBytes, hpath', size⟩ := getPath_reencodes _ _ _ short hpath
  obtain ⟨dataBytes, hdata', size'⟩ := getField_reencodes _ _ _ _ (by omega) hdata
  have fourth := getI32_reads_length hcount
  have fifth := skipAcl_reads_length hacls
  have sixth := getI32_reads_length hflags
  refine ⟨pathBytes ++ (dataBytes ++ (i32ToBeBytes 0 ++ ([] ++ i32ToBeBytes flags))), ?_, ?_⟩
  · simp [Jute.body, Jute.acls, Jute.length, hpath', hdata']
  · simp only [List.length_append, i32ToBeBytes_length, List.length_nil]
    omega

theorem SetDataRequest.fromBytes_reencodes :
    SetDataRequest.fromBytes.Reencodes fun req => Jute.body (.set req) := by
  intro buf req rest short reads
  simp only [SetDataRequest.fromBytes, Reader.reads_bind_iff, Reader.reads_pure_iff] at reads
  obtain ⟨path, _, hpath, data, _, hdata, version, _, hversion, rfl, rfl⟩ := reads
  obtain ⟨pathBytes, hpath', size⟩ := getPath_reencodes _ _ _ short hpath
  obtain ⟨dataBytes, hdata', size'⟩ := getField_reencodes _ _ _ _ (by omega) hdata
  have last := getI32_reads_length hversion
  refine ⟨pathBytes ++ (dataBytes ++ i32ToBeBytes version), ?_, ?_⟩
  · simp [Jute.body, hpath', hdata']
  · simp only [List.length_append, i32ToBeBytes_length]
    omega

theorem DeleteRequest.fromBytes_reencodes :
    DeleteRequest.fromBytes.Reencodes fun req => Jute.body (.delete req) := by
  intro buf req rest short reads
  simp only [DeleteRequest.fromBytes, Reader.reads_bind_iff, Reader.reads_pure_iff] at reads
  obtain ⟨path, _, hpath, version, _, hversion, rfl, rfl⟩ := reads
  obtain ⟨pathBytes, hpath', size⟩ := getPath_reencodes _ _ _ short hpath
  have last := getI32_reads_length hversion
  refine ⟨pathBytes ++ i32ToBeBytes version, ?_, ?_⟩
  · simp [Jute.body, hpath']
  · simp only [List.length_append, i32ToBeBytes_length]
    omega

theorem CheckRequest.fromBytes_reencodes :
    CheckRequest.fromBytes.Reencodes fun req => Jute.body (.check req) := by
  intro buf req rest short reads
  simp only [CheckRequest.fromBytes, Reader.reads_onCursor_iff, Reader.reads_bind_iff,
    Reader.reads_remaining_iff, Reader.reads_check_iff, Reader.reads_take_iff,
    Reader.reads_ofOption_iff, Reader.reads_pure_iff] at reads
  obtain ⟨_, _, ⟨rfl, rfl⟩, _, _, ⟨-, rfl⟩, length, _, hlength, _, _, ⟨-, rfl⟩, _, _, ⟨rfl, rfl⟩,
    _, _, ⟨-, rfl⟩, field, _, ⟨rfl, hfield⟩, path, _, ⟨utf8, rfl⟩, version, _, hversion, rfl,
    rfl⟩ := reads
  have first := getI32_reads_length hlength
  have last := getI32_reads_length hversion
  rw [List.length_append] at first
  have fits : field.length < 2 ^ 31 := by omega
  obtain ⟨bytes, encoded, size⟩ := Jute.buffer_of_short fits
  have path : Jute.string path = some bytes := by
    rw [Jute.string, fromUtf8_eq_some utf8, encoded]
  refine ⟨bytes ++ i32ToBeBytes version, ?_, ?_⟩
  · simp [Jute.body, path]
  · simp only [List.length_append, i32ToBeBytes_length]
    omega

theorem ReadRequest.fromBytes_reencodes : ReadRequest.fromBytes.Reencodes Jute.read := by
  intro buf req rest short reads
  simp only [ReadRequest.fromBytes, Reader.reads_bind_iff, Reader.reads_pure_iff] at reads
  obtain ⟨path, _, hpath, watch, _, hwatch, rfl, rfl⟩ := reads
  obtain ⟨pathBytes, hpath', size⟩ := getPath_reencodes _ _ _ short hpath
  have last := getU8_reads_length hwatch
  refine ⟨pathBytes ++ [if watch != 0 then 1 else 0], ?_, ?_⟩
  · simp [Jute.read, hpath']
  · simp only [List.length_append, List.length_singleton]
    omega

end Reencodes

/-! A request whose access list was skipped is sent with an empty one. -/

def MultiOp.sent : MultiOp → SentOp
  | .create req => .create req []
  | .set req => .set req
  | .delete req => .delete req
  | .check req => .check req

@[simp] theorem MultiOp.op_sent (op : MultiOp) : op.sent.op = op := by
  cases op <;> rfl

/-- There are no bytes for a rejected request. -/
def Request.sent : Request → Option SentRequest
  | .create req => some (.create req [])
  | .get req => some (.get req)
  | .set req => some (.set req)
  | .remove req => some (.remove req)
  | .heartbeat => some .heartbeat
  | .simpleList req => some (.simpleList req)
  | .list req => some (.list req)
  | .exists req => some (.exists req)
  | .close => some .close
  | .multi ops => some (.multi (ops.map MultiOp.sent))
  | .rejected => none

theorem Request.request_sent {req : Request} {sent : SentRequest} (h : req.sent = some sent) :
    sent.request = req := by
  cases req with
  | multi ops =>
    obtain rfl := Option.some.inj h
    simp [SentRequest.request, Function.comp_def]
  | rejected => cases h
  | _ =>
    obtain rfl := Option.some.inj h
    rfl

section Reencodes
variable {buf rest : List UInt8}

theorem MultiHeader.fromBytes_reads_length {header : MultiHeader}
    (reads : MultiHeader.fromBytes.Reads buf header rest) :
    MultiHeader.size + rest.length = buf.length := by
  simp only [MultiHeader.fromBytes, Reader.reads_onCursor_iff, Reader.reads_bind_iff,
    Reader.reads_remaining_iff, Reader.reads_check_iff, Reader.reads_pure_iff] at reads
  obtain ⟨_, _, ⟨rfl, rfl⟩, _, _, ⟨-, rfl⟩, _, _, opType, _, _, done, _, _, ⟨-, rfl⟩, _, _, err,
    rfl, rfl⟩ := reads
  have first := getI32_reads_length opType
  have second := getU8_reads_length done
  have third := getI32_reads_length err
  rw [MultiHeader.size]
  omega

theorem MultiOp.fromBytes_reencodes (opType : Int32) :
    (MultiOp.fromBytes opType).Reencodes fun op => Jute.body op.sent := by
  unfold MultiOp.fromBytes
  split
  · apply Reader.Reencodes.map
    exact CreateRequest.fromBytes_reencodes
  · apply Reader.Reencodes.map
    exact SetDataRequest.fromBytes_reencodes
  · apply Reader.Reencodes.map
    exact DeleteRequest.fromBytes_reencodes
  · apply Reader.Reencodes.map
    exact CheckRequest.fromBytes_reencodes
  · exact Reader.reencodes_fail

/-- One operation after the other, and the last header. -/
theorem multiOps_reencodes (fuel : ℕ) :
    (multiOps fuel).Reencodes fun ops => Jute.multi (ops.map MultiOp.sent) := by
  induction fuel with
  | zero => exact Reader.reencodes_fail
  | succ fuel ih =>
    intro buf ops rest short reads
    rw [multiOps, Reader.reads_bind_iff] at reads
    obtain ⟨header, body, hheader, reads⟩ := reads
    have size := MultiHeader.fromBytes_reads_length hheader
    split_ifs at reads with done
    · simp only [Reader.reads_bind_iff, Reader.reads_check_iff, Reader.reads_pure_iff] at reads
      obtain ⟨⟨⟩, _, ⟨-, rfl⟩, rfl, rfl⟩ := reads
      refine ⟨MultiHeader.toBytes ⟨-1, true, -1⟩, rfl, ?_⟩
      rw [MultiHeader.toBytes_length]
      omega
    · simp only [Reader.reads_bind_iff, Reader.reads_check_iff, Reader.reads_pure_iff] at reads
      obtain ⟨⟨⟩, _, ⟨-, rfl⟩, op, _, hop, ops, _, hops, rfl, rfl⟩ := reads
      obtain ⟨opBytes, encoded, size'⟩ := MultiOp.fromBytes_reencodes _ _ _ _ (by omega) hop
      obtain ⟨later, hlater, size''⟩ := ih _ _ _ (by omega) hops
      refine ⟨MultiHeader.toBytes ⟨op.sent.opType, false, -1⟩ ++ (opBytes ++ later), ?_, ?_⟩
      · simp [Jute.multi, encoded, hlater]
      · simp only [List.length_append, MultiHeader.toBytes_length]
        omega

theorem MultiRequest.fromBytes_reencodes :
    MultiRequest.fromBytes.Reencodes fun ops => Jute.multi (ops.map MultiOp.sent) := by
  intro buf ops rest short reads
  simp only [MultiRequest.fromBytes, Reader.reads_bind_iff, Reader.reads_onCursor_iff,
    Reader.reads_remaining_iff] at reads
  obtain ⟨_, _, ⟨rfl, rfl⟩, reads⟩ := reads
  exact multiOps_reencodes _ _ _ _ short reads

/-- What the parser of an opcode accepts is a request that a client can send. -/
theorem Request.fromBytes_reencodes (opcode : OpCode) :
    (Request.fromBytes opcode).Reencodes fun req => req.sent.bind Jute.request := by
  cases opcode
  case create =>
    apply Reader.Reencodes.map
    exact CreateRequest.fromBytes_reencodes
  case set =>
    apply Reader.Reencodes.map
    exact SetDataRequest.fromBytes_reencodes
  case remove =>
    apply Reader.Reencodes.map
    exact DeleteRequest.fromBytes_reencodes
  case get | list | simpleList | «exists» =>
    apply Reader.Reencodes.map
    exact ReadRequest.fromBytes_reencodes
  case heartbeat | close =>
    intro buf req rest short reads
    obtain ⟨rfl, rfl⟩ := Reader.reads_pure_iff.mp reads
    exact ⟨[], rfl, by simp⟩
  case multi =>
    apply Reader.Reencodes.map
    exact MultiRequest.fromBytes_reencodes
  all_goals exact Reader.reencodes_fail

end Reencodes
end TinyKeeper
