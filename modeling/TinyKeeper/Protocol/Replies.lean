import TinyKeeper.Protocol.Requests

/-! The bytes of the replies and of the notifications, and the reader of a client that knows which
request a reply belongs to. -/
namespace TinyKeeper

structure ReplyHeader where
  xid : Int32
  zxid : Int64
  err : ErrorCode

def ReplyHeader.toBytes (header : ReplyHeader) : List UInt8 :=
  i32ToBeBytes header.xid ++ i64ToBeBytes header.zxid ++ i32ToBeBytes header.err.asI32

def CreateResponse.toBytes (path : String) : List UInt8 := encodeString path

def EmptyResponse.toBytes : List UInt8 := []

/-- The length of the data is written twice, as a part of the buffer and of the statistics. -/
def GetDataResponse.toBytes (data : List UInt8) (stat : WireStat) (numChildren : Int32) :
    List UInt8 :=
  i32ToBeBytes (Int32.ofNat data.length) ++ data ++
    stat.toBytes (Int32.ofNat data.length) numChildren

def SetDataResponse.toBytes (stat : WireStat) (dataLength numChildren : Int32) : List UInt8 :=
  stat.toBytes dataLength numChildren

def ExistsResponse.toBytes (stat : WireStat) (dataLength numChildren : Int32) : List UInt8 :=
  stat.toBytes dataLength numChildren

def GetChildrenResponse.toBytes (children : List String) : List UInt8 :=
  i32ToBeBytes (Int32.ofNat children.length) ++ children.flatMap encodeString

/-- What a handler appends to the header. The bodies of Set and Exists are the same. -/
def ReplyBody.toBytes : ReplyBody → List UInt8
  | .empty => EmptyResponse.toBytes
  | .create path => CreateResponse.toBytes path
  | .getData data value numChildren => GetDataResponse.toBytes data value.toWire numChildren
  | .stat value dataLength numChildren =>
    SetDataResponse.toBytes value.toWire dataLength numChildren
  | .children names => GetChildrenResponse.toBytes names
  | .childrenAndStat names value dataLength numChildren =>
    GetChildrenResponse.toBytes names ++
      ExistsResponse.toBytes value.toWire dataLength numChildren
  | .multi responses => MultiResponse.toBytes (responses.map MultiOpResponse.toWire)

def Reply.toBytes (reply : Reply) : List UInt8 :=
  ReplyHeader.toBytes ⟨reply.xid, Int64.ofNat reply.zxid, reply.err⟩ ++ reply.body.toBytes

def WatchEventType.asI32 : WatchEventType → Int32
  | .created => 1
  | .deleted => 2
  | .changed => 3
  | .child => 4

/-- A reply header with fixed values stands in front. -/
def WatchNotification.toBytes (notification : WatchNotification) : List UInt8 :=
  i32ToBeBytes (-1) ++ i64ToBeBytes (-1) ++ i32ToBeBytes 0 ++
    i32ToBeBytes notification.eventType.asI32 ++ i32ToBeBytes 3 ++ encodeString notification.path

/-! The reader of a client. -/

def getNames : ℕ → FromBytes (List String)
  | 0 => return []
  | n + 1 => do
    let name ← getPath
    let names ← getNames n
    return name :: names

def getChildren : FromBytes (List String) := do
  let count ← getI32
  getNames count.toInt.toNat

/-- The body of a reply without an error, as the opcode of the request says. -/
def getBody : OpCode → FromBytes ReplyBody
  | .create => return .create (← getPath)
  | .get => do
    let data ← getField advanceOutOfBounds
    let (stat, _, numChildren) ← getStat
    return .getData data stat.value numChildren
  | .set | .exists => do
    let (stat, dataLength, numChildren) ← getStat
    return .stat stat.value dataLength numChildren
  | .simpleList => return .children (← getChildren)
  | .list => do
    let names ← getChildren
    let (stat, dataLength, numChildren) ← getStat
    return .childrenAndStat names stat.value dataLength numChildren
  | .multi => return .multi ((← getMultiResponse).map WireOpResponse.value)
  | .remove | .heartbeat | .close => return .empty
  | _ => .fail

/-- A reply with an error has no body. -/
def getReply (opcode : OpCode) : FromBytes Reply := do
  let xid ← getI32
  let zxid ← getI64
  let rawErr ← getI32
  let err ← .ofOption (ErrorCode.ofI32 rawErr)
  if err = .ok then
    let body ← getBody opcode
    return ⟨xid, zxid.toInt.toNat, err, body⟩
  else return ⟨xid, zxid.toInt.toNat, err, .empty⟩

def WatchEventType.ofI32 (value : Int32) : Option WatchEventType :=
  match value.toInt with
  | 1 => some .created
  | 2 => some .deleted
  | 3 => some .changed
  | 4 => some .child
  | _ => none

def getNotification : FromBytes WatchNotification := do
  let xid ← getI32
  .check (xid = -1)
  let _zxid ← getI64
  let _err ← getI32
  let rawType ← getI32
  let eventType ← .ofOption (WatchEventType.ofI32 rawType)
  let _state ← getI32
  let path ← getPath
  return ⟨eventType, path⟩

/-- The body belongs to the opcode. -/
def ReplyBody.Answers : OpCode → ReplyBody → Prop
  | .create, .create _ => True
  | .get, .getData _ _ _ => True
  | .set, .stat _ _ _ => True
  | .exists, .stat _ _ _ => True
  | .simpleList, .children _ => True
  | .list, .childrenAndStat _ _ _ _ => True
  | .multi, .multi _ => True
  | .remove, .empty => True
  | .heartbeat, .empty => True
  | .close, .empty => True
  | _, _ => False

def Reply.Answers (opcode : OpCode) (reply : Reply) : Prop :=
  if reply.err = .ok then reply.body.Answers opcode else reply.body = .empty

/-- No integer has left the range of its field. -/
def ReplyBody.InRange : ReplyBody → Prop
  | .empty => True
  | .create path => path.utf8ByteSize < 2 ^ 31
  | .getData data value _ => data.length < 2 ^ 31 ∧ value.InRange
  | .stat value _ _ => value.InRange
  | .children names =>
    names.length < 2 ^ 31 ∧ ∀ name ∈ names, name.utf8ByteSize < 2 ^ 31
  | .childrenAndStat names value _ _ =>
    (names.length < 2 ^ 31 ∧ ∀ name ∈ names, name.utf8ByteSize < 2 ^ 31) ∧ value.InRange
  | .multi responses => ∀ r ∈ responses, r.InRange

structure Reply.InRange (reply : Reply) : Prop where
  zxid : reply.zxid < 2 ^ 63
  body : reply.body.InRange

def WatchNotification.InRange (notification : WatchNotification) : Prop :=
  notification.path.utf8ByteSize < 2 ^ 31

theorem getNames_takes {names : List String} (short : ∀ name ∈ names, name.utf8ByteSize < 2 ^ 31) :
    (getNames names.length).Takes (names.flatMap encodeString) names := by
  induction names with
  | nil => exact Reader.takes_pure
  | cons name names ih =>
    obtain ⟨first, later⟩ := List.forall_mem_cons.mp short
    rw [List.flatMap_cons]
    exact (getPath_takes first).bind (ih later).map

theorem getChildren_takes {names : List String} (fits : names.length < 2 ^ 31)
    (short : ∀ name ∈ names, name.utf8ByteSize < 2 ^ 31) :
    getChildren.Takes (GetChildrenResponse.toBytes names) names := by
  have count : (Int32.ofNat names.length).toInt.toNat = names.length := by
    rw [Int32.toInt_ofNat_of_lt (by simpa using fits), Int.toNat_natCast]
  refine (getI32_takes (Int32.ofNat names.length)).bind ?_
  rw [count]
  exact getNames_takes short

/-- The reader of the opcode takes the body that the handler of the opcode writes. -/
theorem getBody_takes {opcode : OpCode} {body : ReplyBody} (answers : body.Answers opcode)
    (range : body.InRange) : (getBody opcode).Takes body.toBytes body := by
  cases body with
  | empty =>
    cases opcode <;> first | exact answers.elim | exact Reader.takes_pure
  | create path =>
    cases opcode <;> first | exact answers.elim | exact (getPath_takes range).map
  | getData data stat numChildren =>
    obtain ⟨short, range⟩ := range
    have field : (getField advanceOutOfBounds).Takes
        (i32ToBeBytes (Int32.ofNat data.length) ++ data) data :=
      getField_takes (Jute.buffer_eq_some_iff.mpr ⟨short, rfl⟩)
    have last := (getStat_takes stat.toWire (Int32.ofNat data.length) numChildren).map
      (g := fun read => ReplyBody.getData data read.1.value read.2.2)
    rw [Stat.value_toWire range] at last
    cases opcode <;> first | exact answers.elim | exact field.bind last
  | stat stat dataLength numChildren =>
    have last := (getStat_takes stat.toWire dataLength numChildren).map
      (g := fun read => ReplyBody.stat read.1.value read.2.1 read.2.2)
    rw [Stat.value_toWire range] at last
    cases opcode <;> first | exact answers.elim | exact last
  | children names =>
    cases opcode <;> first | exact answers.elim | exact (getChildren_takes range.1 range.2).map
  | childrenAndStat names stat dataLength numChildren =>
    obtain ⟨⟨fits, short⟩, range⟩ := range
    have last := (getStat_takes stat.toWire dataLength numChildren).map
      (g := fun read => ReplyBody.childrenAndStat names read.1.value read.2.1 read.2.2)
    rw [Stat.value_toWire range] at last
    cases opcode <;> first | exact answers.elim | exact (getChildren_takes fits short).bind last
  | multi responses =>
    have short : ∀ r ∈ responses.map MultiOpResponse.toWire, r.Short := by
      intro r mem
      obtain ⟨response, there, rfl⟩ := List.mem_map.mp mem
      have fits := range response there
      cases response with
      | create path => exact fits
      | _ => exact trivial
    have values : (responses.map MultiOpResponse.toWire).map WireOpResponse.value = responses := by
      rw [List.map_map]
      exact (List.map_congr_left fun r mem => MultiOpResponse.value_toWire (range r mem)).trans
        (List.map_id _)
    have last := (getMultiResponse_takes _ short).map
      (g := fun read => ReplyBody.multi (read.map WireOpResponse.value))
    rw [values] at last
    cases opcode <;> first | exact answers.elim | exact last

/-- A client that knows the opcode of its request reads the reply back, and not a byte more. -/
theorem getReply_takes {opcode : OpCode} {reply : Reply} (answers : reply.Answers opcode)
    (range : reply.InRange) : (getReply opcode).Takes reply.toBytes reply := by
  obtain ⟨xid, zxid, err, body⟩ := reply
  have counter : (Int64.ofNat zxid).toInt.toNat = zxid := by
    rw [Int64.toInt_ofNat_of_lt range.zxid, Int.toNat_natCast]
  have known := Reader.takes_ofOption (σ := UInt8) (ε := String) err.ofI32_asI32
  rw [Reply.toBytes, ReplyHeader.toBytes]
  simp only [List.append_assoc]
  refine (getI32_takes xid).bind <| (getI64_takes (Int64.ofNat zxid)).bind <|
    (getI32_takes err.asI32).bind ?_
  rw [← List.nil_append body.toBytes]
  refine known.bind ?_
  rw [counter]
  simp only [Reply.Answers] at answers
  split_ifs at answers ⊢ with fine
  · exact (getBody_takes answers range.body).map
  · obtain rfl : body = .empty := answers
    exact Reader.takes_pure

theorem WatchEventType.ofI32_asI32 (eventType : WatchEventType) :
    ofI32 eventType.asI32 = some eventType := by
  cases eventType <;> rfl

theorem getNotification_takes {notification : WatchNotification} (range : notification.InRange) :
    getNotification.Takes notification.toBytes notification := by
  have known := Reader.takes_ofOption (σ := UInt8) (ε := String)
    notification.eventType.ofI32_asI32
  rw [WatchNotification.toBytes]
  simp only [List.append_assoc]
  refine (getI32_takes (-1)).bind <| Reader.takes_check_bind rfl <| (getI64_takes (-1)).bind <|
    (getI32_takes 0).bind <| (getI32_takes notification.eventType.asI32).bind ?_
  rw [← List.nil_append (i32ToBeBytes 3 ++ _)]
  exact known.bind <| (getI32_takes 3).bind (getPath_takes range).map

end TinyKeeper
