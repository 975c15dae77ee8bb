import TinyKeeper.Protocol.FromBytes

/-! The bytes of the response to a batch, and the reader of a client that takes them apart again. -/
namespace TinyKeeper

/-- The opcode as the number that stands for it. -/
def OpCode.asI32 : OpCode → Int32
  | .close => -11
  | .create => 1
  | .remove => 2
  | .exists => 3
  | .get => 4
  | .set => 5
  | .getACL => 6
  | .setACL => 7
  | .simpleList => 8
  | .sync => 9
  | .heartbeat => 11
  | .list => 12
  | .check => 13
  | .multi => 14
  | .create2 => 15
  | .reconfig => 16
  | .checkWatch => 17
  | .removeWatch => 18
  | .multiRead => 22
  | .auth => 100
  | .setWatch => 101
  | .setWatch2 => 105
  | .addWatch => 106

theorem OpCode.tryFrom_asI32 (opcode : OpCode) : tryFrom opcode.asI32 = some opcode := by
  cases opcode <;> rfl

def ErrorCode.asI32 : ErrorCode → Int32
  | .ok => 0
  | .systemError => -1
  | .runtimeInconsistency => -2
  | .badArguments => -8
  | .noNode => -101
  | .badVersion => -103
  | .noChildrenForEphemerals => -108
  | .nodeExists => -110
  | .notEmpty => -111

/-- The node statistics with the integers that go on the wire. -/
structure WireStat where
  czxid : Int64
  mzxid : Int64
  ctime : Int64
  mtime : Int64
  version : Int32
  cversion : Int32
  aversion : Int32
  ephemeralOwner : Int64
  pzxid : Int64
  deriving DecidableEq

/-- The lengths stand in front of the last field. -/
def WireStat.toBytes (stat : WireStat) (dataLength numChildren : Int32) : List UInt8 :=
  i64ToBeBytes stat.czxid ++ i64ToBeBytes stat.mzxid ++ i64ToBeBytes stat.ctime ++
    i64ToBeBytes stat.mtime ++ i32ToBeBytes stat.version ++ i32ToBeBytes stat.cversion ++
    i32ToBeBytes stat.aversion ++ i64ToBeBytes stat.ephemeralOwner ++ i32ToBeBytes dataLength ++
    i32ToBeBytes numChildren ++ i64ToBeBytes stat.pzxid

theorem WireStat.toBytes_length (stat : WireStat) (dataLength numChildren : Int32) :
    (stat.toBytes dataLength numChildren).length = 68 := by
  simp [toBytes]

def MultiHeader.encodeInto (header : MultiHeader) (buf : List UInt8) : List UInt8 :=
  let buf := buf ++ i32ToBeBytes header.opType
  let buf := buf ++ [if header.done then 1 else 0]
  buf ++ i32ToBeBytes header.err

def MultiHeader.toBytes (header : MultiHeader) : List UInt8 := header.encodeInto []

@[simp] theorem MultiHeader.encodeInto_eq (header : MultiHeader) (buf : List UInt8) :
    header.encodeInto buf = buf ++ header.toBytes := by
  simp [encodeInto, toBytes]

theorem MultiHeader.toBytes_length (header : MultiHeader) : header.toBytes.length = size := by
  simp [toBytes, encodeInto, size]

/-- A string behind its length, which is cut to 32 bits. -/
def encodeString (s : String) : List UInt8 :=
  i32ToBeBytes (Int32.ofNat s.utf8ByteSize) ++ s.toUTF8.data.toList

/-- The result of one operation of a batch, with the integers that go on the wire. -/
inductive WireOpResponse
  | create (path : String)
  | set (stat : WireStat) (dataLength numChildren : Int32)
  | delete
  | check
  | error (code : ErrorCode)
  deriving DecidableEq

def WireOpResponse.encodeInto (buf : List UInt8) : WireOpResponse → List UInt8
  | .create path =>
    let buf := MultiHeader.encodeInto ⟨OpCode.create.asI32, false, ErrorCode.ok.asI32⟩ buf
    buf ++ encodeString path
  | .set stat dataLength numChildren =>
    let buf := MultiHeader.encodeInto ⟨OpCode.set.asI32, false, ErrorCode.ok.asI32⟩ buf
    buf ++ stat.toBytes dataLength numChildren
  | .delete => MultiHeader.encodeInto ⟨OpCode.remove.asI32, false, ErrorCode.ok.asI32⟩ buf
  | .check => MultiHeader.encodeInto ⟨OpCode.check.asI32, false, ErrorCode.ok.asI32⟩ buf
  | .error code =>
    -- The code stands in the header and again in the body.
    let buf := MultiHeader.encodeInto ⟨-1, false, code.asI32⟩ buf
    buf ++ i32ToBeBytes code.asI32

/-- The body of the response to a batch: its entries, and a header that says that it is done. -/
def MultiResponse.toBytes (responses : List WireOpResponse) : List UInt8 :=
  let buf := responses.foldl WireOpResponse.encodeInto []
  MultiHeader.encodeInto ⟨-1, true, -1⟩ buf

/-- What one entry adds to the response. -/
def WireOpResponse.bytes (response : WireOpResponse) : List UInt8 := response.encodeInto []

theorem WireOpResponse.encodeInto_eq (buf : List UInt8) (response : WireOpResponse) :
    response.encodeInto buf = buf ++ response.bytes := by
  cases response <;> simp [bytes, encodeInto]

theorem MultiResponse.toBytes_eq (responses : List WireOpResponse) :
    toBytes responses =
      responses.flatMap WireOpResponse.bytes ++ MultiHeader.toBytes ⟨-1, true, -1⟩ := by
  have entries (buf : List UInt8) : responses.foldl WireOpResponse.encodeInto buf =
      buf ++ responses.flatMap WireOpResponse.bytes := by
    induction responses generalizing buf with
    | nil => simp
    | cons response responses ih =>
      rw [List.foldl_cons, ih, WireOpResponse.encodeInto_eq, List.flatMap_cons, List.append_assoc]
  simp [toBytes, entries]

/-! The reader of a client, after the format of the protocol. -/

def getI64 : FromBytes Int64 := do
  let bytes ← Reader.take 8 advanceOutOfBounds
  return i64FromBeBytes bytes

/-- The nine bytes in front of an entry. -/
def getMultiHeader : FromBytes MultiHeader := do
  let opType ← getI32
  let done ← getU8
  let err ← getI32
  return ⟨opType, done != 0, err⟩

def getStat : FromBytes (WireStat × Int32 × Int32) := do
  let czxid ← getI64
  let mzxid ← getI64
  let ctime ← getI64
  let mtime ← getI64
  let version ← getI32
  let cversion ← getI32
  let aversion ← getI32
  let ephemeralOwner ← getI64
  let dataLength ← getI32
  let numChildren ← getI32
  let pzxid ← getI64
  return (⟨czxid, mzxid, ctime, mtime, version, cversion, aversion, ephemeralOwner, pzxid⟩,
    dataLength, numChildren)

def ErrorCode.ofI32 (value : Int32) : Option ErrorCode :=
  match value.toInt with
  | 0 => some .ok
  | -1 => some .systemError
  | -2 => some .runtimeInconsistency
  | -8 => some .badArguments
  | -101 => some .noNode
  | -103 => some .badVersion
  | -108 => some .noChildrenForEphemerals
  | -110 => some .nodeExists
  | -111 => some .notEmpty
  | _ => none

/-- The body of an entry, as the type in its header says. -/
def getOpResponse (opType : Int32) : FromBytes WireOpResponse :=
  match opType.toInt with
  | 1 => return .create (← getPath)
  | 2 => return .delete
  | 5 => do
    let (stat, dataLength, numChildren) ← getStat
    return .set stat dataLength numChildren
  | 13 => return .check
  | -1 => do
    let code ← getI32
    let code ← .ofOption (ErrorCode.ofI32 code)
    return .error code
  | _ => .fail

/-- The entries up to the header that says that the response is done. -/
def getOpResponses : ℕ → FromBytes (List WireOpResponse)
  | 0 => .fail
  | fuel + 1 => do
    let header ← getMultiHeader
    if header.done then return []
    else
      let response ← getOpResponse header.opType
      let responses ← getOpResponses fuel
      return response :: responses

def getMultiResponse : FromBytes (List WireOpResponse) := do
  getOpResponses (← .remaining)

/-! Each field is taken back from its bytes. -/

theorem getI32_takes (n : Int32) : getI32.Takes (i32ToBeBytes n) n := by
  have first := Reader.takes_take (e := advanceOutOfBounds) (i32ToBeBytes_length n)
  have read := first.map (g := i32FromBeBytes)
  rwa [i32FromBeBytes_i32ToBeBytes] at read

theorem getI64_takes (n : Int64) : getI64.Takes (i64ToBeBytes n) n := by
  have first := Reader.takes_take (e := advanceOutOfBounds) (i64ToBeBytes_length n)
  have read := first.map (g := i64FromBeBytes)
  rwa [i64FromBeBytes_i64ToBeBytes] at read

theorem getU8_takes (b : UInt8) : getU8.Takes [b] b := by
  have first : (Reader.take 1 advanceOutOfBounds).Takes [b] [b] := Reader.takes_take rfl
  exact first.map (g := List.headI)

theorem asUsize_ofNat {n : ℕ} (short : n < 2 ^ 31) : asUsize (Int32.ofNat n) = n := by
  unfold asUsize
  rw [Int32.toInt_ofNat_of_lt (by simpa using short)]
  omega

theorem fromUtf8_toUTF8 (s : String) : fromUtf8 s.toUTF8.data.toList = some s := by
  have valid : (s.toUTF8).IsValidUTF8 := s.isValidUTF8
  have whole : (⟨s.toUTF8.data.toList.toArray⟩ : ByteArray) = s.toUTF8 := by simp
  rw [fromUtf8, whole, String.fromUTF8?, dif_pos valid]
  rfl

theorem toUTF8_length (s : String) : s.toUTF8.data.toList.length = s.utf8ByteSize := rfl

theorem getPath_takes {path : String} (short : path.utf8ByteSize < 2 ^ 31) :
    getPath.Takes (encodeString path) path := by
  refine (getI32_takes _).bind (Reader.Takes.onCursor ?_)
  rw [asUsize_ofNat short]
  have taken := Reader.takes_take (e := midBeyondLen) (toUTF8_length path)
  have whole := taken.bind (f := fun bytes => .ofOption (fromUtf8 bytes))
    (Reader.takes_ofOption (fromUtf8_toUTF8 path))
  rwa [List.append_nil] at whole

theorem MultiHeader.toBytes_fields (header : MultiHeader) : header.toBytes =
    i32ToBeBytes header.opType ++ ([if header.done then 1 else 0] ++ i32ToBeBytes header.err) := by
  simp [toBytes, encodeInto]

theorem getMultiHeader_takes (header : MultiHeader) :
    getMultiHeader.Takes header.toBytes header := by
  have flag : ((if header.done then 1 else 0 : UInt8) != 0) = header.done := by
    cases header.done <;> rfl
  rw [MultiHeader.toBytes_fields]
  refine (getI32_takes _).bind ((getU8_takes _).bind ?_)
  rw [flag]
  exact (getI32_takes header.err).map

theorem getStat_takes (stat : WireStat) (dataLength numChildren : Int32) :
    getStat.Takes (stat.toBytes dataLength numChildren) (stat, dataLength, numChildren) := by
  rw [WireStat.toBytes]
  simp only [List.append_assoc]
  exact (getI64_takes stat.czxid).bind <| (getI64_takes stat.mzxid).bind <|
    (getI64_takes stat.ctime).bind <| (getI64_takes stat.mtime).bind <|
    (getI32_takes stat.version).bind <| (getI32_takes stat.cversion).bind <|
    (getI32_takes stat.aversion).bind <| (getI64_takes stat.ephemeralOwner).bind <|
    (getI32_takes dataLength).bind <| (getI32_takes numChildren).bind <|
    (getI64_takes stat.pzxid).map

theorem ErrorCode.ofI32_asI32 (code : ErrorCode) : ofI32 code.asI32 = some code := by
  cases code <;> rfl

/-- The length of the path fits its field. -/
def WireOpResponse.Short : WireOpResponse → Prop
  | .create path => path.utf8ByteSize < 2 ^ 31
  | _ => True

/-- Each entry is a header that is not the last one, and a body that its type tells apart. -/
theorem WireOpResponse.entry (response : WireOpResponse) (short : response.Short) :
    ∃ header body, response.bytes = MultiHeader.toBytes header ++ body ∧ header.done = false ∧
      (getOpResponse header.opType).Takes body response := by
  cases response with
  | create path =>
    refine ⟨⟨1, false, 0⟩, encodeString path, ?_, rfl, (getPath_takes short).map⟩
    simp [bytes, encodeInto, OpCode.asI32, ErrorCode.asI32]
  | set stat dataLength numChildren =>
    refine ⟨⟨5, false, 0⟩, stat.toBytes dataLength numChildren, ?_, rfl, ?_⟩
    · simp [bytes, encodeInto, OpCode.asI32, ErrorCode.asI32]
    · exact (getStat_takes stat dataLength numChildren).map
  | delete =>
    refine ⟨⟨2, false, 0⟩, [], ?_, rfl, Reader.takes_pure⟩
    simp [bytes, encodeInto, OpCode.asI32, ErrorCode.asI32]
  | check =>
    refine ⟨⟨13, false, 0⟩, [], ?_, rfl, Reader.takes_pure⟩
    simp [bytes, encodeInto, OpCode.asI32, ErrorCode.asI32]
  | error code =>
    refine ⟨⟨-1, false, code.asI32⟩, i32ToBeBytes code.asI32, ?_, rfl, ?_⟩
    · simp [bytes, encodeInto]
    · have known := Reader.takes_ofOption (σ := UInt8) (ε := String) code.ofI32_asI32
      have whole : (getOpResponse (-1)).Takes (i32ToBeBytes code.asI32 ++ []) (.error code) :=
        (getI32_takes code.asI32).bind known.map
      rwa [List.append_nil] at whole

/-- The loop stops at the header that says so, and not at an error entry of the same type. -/
theorem getOpResponses_takes (responses : List WireOpResponse) (short : ∀ r ∈ responses, r.Short)
    {fuel : ℕ} (enough : responses.length < fuel) :
    (getOpResponses fuel).Takes (MultiResponse.toBytes responses) responses := by
  rw [MultiResponse.toBytes_eq]
  induction responses generalizing fuel with
  | nil =>
    obtain ⟨fuel, rfl⟩ := Nat.exists_eq_add_of_lt enough
    have footer := (getMultiHeader_takes ⟨-1, true, -1⟩).map (g := fun _ => ([] : List WireOpResponse))
    exact footer
  | cons response responses ih =>
    obtain ⟨fuel, rfl⟩ : ∃ n, fuel = n + 1 := ⟨fuel - 1, by omega⟩
    obtain ⟨header, body, bytes, more, takes⟩ := response.entry (short response (by simp))
    have later := ih (fun r mem => short r (List.mem_cons_of_mem _ mem))
      (Nat.lt_of_succ_lt_succ enough)
    rw [List.flatMap_cons, bytes, List.append_assoc, List.append_assoc]
    refine (getMultiHeader_takes header).bind ?_
    rw [more]
    exact takes.bind later.map

theorem MultiResponse.length_lt (responses : List WireOpResponse) :
    responses.length < (toBytes responses).length := by
  rw [toBytes_eq]
  induction responses with
  | nil => simp [MultiHeader.toBytes_length, MultiHeader.size]
  | cons response responses ih =>
    have header : 9 ≤ response.bytes.length := by
      cases response <;> simp [WireOpResponse.bytes, WireOpResponse.encodeInto,
        MultiHeader.toBytes_length, MultiHeader.size]
    simp only [List.flatMap_cons, List.length_append, List.length_cons] at *
    omega

theorem getMultiResponse_takes (responses : List WireOpResponse)
    (short : ∀ r ∈ responses, r.Short) :
    getMultiResponse.Takes (MultiResponse.toBytes responses) responses := by
  apply Reader.takes_remaining_bind
  intro n enough
  exact getOpResponses_takes responses short ((MultiResponse.length_lt responses).trans_le enough)

/-- A client reads every list of results back from the bytes of the response, and nothing is left
of them. -/
theorem getMultiResponse_toBytes (responses : List WireOpResponse)
    (short : ∀ path, .create path ∈ responses → path.utf8ByteSize < 2 ^ 31) :
    getMultiResponse.Reads (MultiResponse.toBytes responses) responses [] := by
  have fits : ∀ r ∈ responses, r.Short := by
    intro r mem
    cases r with
    | create path => exact short path mem
    | _ => exact trivial
  have reads := getMultiResponse_takes responses fits []
  rwa [List.append_nil] at reads

/-- A rolled-back entry and a failed one, both with the type of the last header. -/
theorem getMultiResponse_toBytes_failed :
    getMultiResponse.Reads (MultiResponse.toBytes
      [.create "/a", .delete, .error .ok, .error .noNode, .error .runtimeInconsistency])
      [.create "/a", .delete, .error .ok, .error .noNode, .error .runtimeInconsistency] [] := by
  apply getMultiResponse_toBytes
  intro path mem
  obtain rfl : path = "/a" := by simpa using mem
  decide

/-! The results that the server computes, on the wire. -/

def Stat.toWire (stat : Stat) : WireStat where
  czxid := Int64.ofNat stat.czxid
  mzxid := Int64.ofNat stat.mzxid
  ctime := Int64.ofInt stat.ctime
  mtime := Int64.ofInt stat.mtime
  version := stat.version
  cversion := stat.cversion
  aversion := stat.aversion
  ephemeralOwner := Int64.ofInt stat.ephemeralOwner
  pzxid := Int64.ofNat stat.pzxid

def MultiOpResponse.toWire : MultiOpResponse → WireOpResponse
  | .create path => .create path
  | .set stat dataLength numChildren => .set stat.toWire dataLength numChildren
  | .delete => .delete
  | .check => .check
  | .error code => .error code

/-- No counter, time or session of the node has left the range of 64 bits. -/
structure Stat.InRange (stat : Stat) : Prop where
  czxid : stat.czxid < 2 ^ 63
  mzxid : stat.mzxid < 2 ^ 63
  ctime : -2 ^ 63 ≤ stat.ctime ∧ stat.ctime < 2 ^ 63
  mtime : -2 ^ 63 ≤ stat.mtime ∧ stat.mtime < 2 ^ 63
  ephemeralOwner : -2 ^ 63 ≤ stat.ephemeralOwner ∧ stat.ephemeralOwner < 2 ^ 63
  pzxid : stat.pzxid < 2 ^ 63

/-- What the integers on the wire stand for. -/
def WireStat.value (stat : WireStat) : Stat where
  czxid := stat.czxid.toInt.toNat
  mzxid := stat.mzxid.toInt.toNat
  ctime := stat.ctime.toInt
  mtime := stat.mtime.toInt
  version := stat.version
  cversion := stat.cversion
  aversion := stat.aversion
  ephemeralOwner := stat.ephemeralOwner.toInt
  pzxid := stat.pzxid.toInt.toNat

theorem Stat.value_toWire {stat : Stat} (h : stat.InRange) : stat.toWire.value = stat := by
  have counter {n : ℕ} (small : n < 2 ^ 63) : (Int64.ofNat n).toInt.toNat = n := by
    rw [Int64.toInt_ofNat_of_lt small, Int.toNat_natCast]
  have number {n : Int} (range : -2 ^ 63 ≤ n ∧ n < 2 ^ 63) : (Int64.ofInt n).toInt = n :=
    Int64.toInt_ofInt_of_le range.1 range.2
  simp only [toWire, WireStat.value, counter h.czxid, counter h.mzxid, counter h.pzxid,
    number h.ctime, number h.mtime, number h.ephemeralOwner]

def WireOpResponse.value : WireOpResponse → MultiOpResponse
  | .create path => .create path
  | .set stat dataLength numChildren => .set stat.value dataLength numChildren
  | .delete => .delete
  | .check => .check
  | .error code => .error code

def MultiOpResponse.InRange : MultiOpResponse → Prop
  | .create path => path.utf8ByteSize < 2 ^ 31
  | .set stat _ _ => stat.InRange
  | _ => True

theorem MultiOpResponse.value_toWire {response : MultiOpResponse} (h : response.InRange) :
    response.toWire.value = response := by
  cases response with
  | set stat dataLength numChildren =>
    exact congrArg (set · dataLength numChildren) (Stat.value_toWire h)
  | _ => rfl

/-- What a client reads from the reply to a batch is what the server computed for it. -/
theorem getMultiResponse_reply (responses : List MultiOpResponse)
    (range : ∀ r ∈ responses, r.InRange) :
    ∃ read, getMultiResponse.Reads
        (MultiResponse.toBytes (responses.map MultiOpResponse.toWire)) read [] ∧
      read.map WireOpResponse.value = responses := by
  have short : ∀ r ∈ responses.map MultiOpResponse.toWire, r.Short := by
    intro r mem
    obtain ⟨response, there, rfl⟩ := List.mem_map.mp mem
    have fits := range response there
    cases response with
    | create path => exact fits
    | _ => exact trivial
  have reads := getMultiResponse_takes _ short []
  rw [List.append_nil] at reads
  refine ⟨_, reads, ?_⟩
  rw [List.map_map]
  exact (List.map_congr_left fun r mem => MultiOpResponse.value_toWire (range r mem)).trans
    (List.map_id _)

end TinyKeeper
