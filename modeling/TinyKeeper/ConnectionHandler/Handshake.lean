import TinyKeeper.ConnectionHandler
import TinyKeeper.KeeperServer.Executions
import TinyKeeper.KeeperServer.ExpiryLoop
import TinyKeeper.Protocol.Bounds
import TinyKeeper.Protocol.Jute

/-! The first frame of a connection. A client that sends a connect request gets a session of its
own, and reads its id from the response; any other frame opens none. -/
namespace TinyKeeper

structure ConnectRequest where
  protocolVersion : Int32
  lastZxidSeen : Int64
  timeoutMs : Int32
  sessionId : Int64
  password : List UInt8

/-- The fields in front of the password are not checked for their length. -/
def ConnectRequest.fromBytes : FromBytes ConnectRequest := do
  let protocolVersion ← getI32
  let lastZxidSeen ← getI64
  let timeoutMs ← getI32
  let sessionId ← getI64
  let passwordLen ← getI32
  .check (asUsize passwordLen ≤ (← .remaining))
  let password ← Reader.take (asUsize passwordLen) midBeyondLen
  return ⟨protocolVersion, lastZxidSeen, timeoutMs, sessionId, password⟩

structure ConnectResponse where
  protocolVersion : Int32
  timeoutMs : Int32
  sessionId : SessionId
  password : List UInt8
  deriving DecidableEq

def ConnectResponse.toBytes (response : ConnectResponse) : List UInt8 :=
  i32ToBeBytes response.protocolVersion ++ i32ToBeBytes response.timeoutMs ++
    i64ToBeBytes (Int64.ofInt response.sessionId) ++
    i32ToBeBytes (Int32.ofNat response.password.length) ++ response.password

/-- The reader of a client. -/
def getConnectResponse : FromBytes ConnectResponse := do
  let protocolVersion ← getI32
  let timeoutMs ← getI32
  let sessionId ← getI64
  let password ← getField advanceOutOfBounds
  return ⟨protocolVersion, timeoutMs, sessionId.toInt, password⟩

/-- The bytes that a client sends. -/
def Jute.connect (request : ConnectRequest) : Option (List UInt8) := do
  let password ← buffer request.password
  return i32ToBeBytes request.protocolVersion ++ (i64ToBeBytes request.lastZxidSeen ++
    (i32ToBeBytes request.timeoutMs ++ (i64ToBeBytes request.sessionId ++ password)))

/-- The session is new, whatever session the client asks for. -/
def KeeperDispatcher.handshake {recordBytes : LogRecord → ℕ} (s : KeeperServer recordBytes)
    (env : Env) (request : ConnectRequest) : ConnectResponse × KeeperServer recordBytes :=
  let (sessionId, s) := s.createSession env request.timeoutMs.toInt
  (⟨request.protocolVersion, request.timeoutMs, sessionId, []⟩, s)

/-- What the connection does before its loop. -/
def ConnectionHandler.connect {recordBytes : LogRecord → ℕ} (s : KeeperServer recordBytes)
    (env : Env) (firstFrame : List UInt8) :
    Panics (Option (ConnectResponse × KeeperServer recordBytes)) :=
  match ConnectRequest.fromBytes firstFrame with
  | .error message => .error message
  | .ok (none, _) => .ok none
  | .ok (some request, _) => .ok (some (KeeperDispatcher.handshake s env request))

section Bytes
variable {buf rest bytes : List UInt8}

theorem getI32_reads_canonical {n : Int32} :
    getI32.Reads buf n rest ↔ buf = i32ToBeBytes n ++ rest := by
  rw [getI32_reads_iff]
  constructor
  · rintro ⟨bytes, four, rfl, rfl⟩
    rw [i32ToBeBytes_i32FromBeBytes four]
  · rintro rfl
    exact ⟨_, i32ToBeBytes_length n, rfl, i32FromBeBytes_i32ToBeBytes n⟩

theorem getI64_reads_canonical {n : Int64} :
    getI64.Reads buf n rest ↔ buf = i64ToBeBytes n ++ rest := by
  unfold getI64
  simp only [Reader.reads_bind_iff, Reader.reads_take_iff, Reader.reads_pure_iff]
  constructor
  · rintro ⟨bytes, _, ⟨rfl, eight⟩, rfl, rfl⟩
    rw [i64ToBeBytes_i64FromBeBytes eight]
  · rintro rfl
    exact ⟨_, _, ⟨rfl, i64ToBeBytes_length n⟩, i64FromBeBytes_i64ToBeBytes n, rfl⟩

/-- A length that a short buffer can hold is not negative. -/
theorem asUsize_eq {length : Int32} {n : ℕ} (short : n < 2 ^ 31) (same : asUsize length = n) :
    length = Int32.ofNat n := by
  have low : -2 ^ 31 ≤ length.toInt := length.le_toInt
  have high : length.toInt < 2 ^ 31 := length.toInt_lt
  apply Int32.toInt_inj.mp
  rw [Int32.toInt_ofNat_of_lt (by simpa using short)]
  unfold asUsize at same
  omega

theorem Jute.connect_eq_some_iff {request : ConnectRequest} :
    Jute.connect request = some bytes ↔ request.password.length < 2 ^ 31 ∧
      bytes = i32ToBeBytes request.protocolVersion ++ (i64ToBeBytes request.lastZxidSeen ++
        (i32ToBeBytes request.timeoutMs ++ (i64ToBeBytes request.sessionId ++
          (i32ToBeBytes (Int32.ofNat request.password.length) ++ request.password)))) := by
  simp only [Jute.connect, Option.bind_eq_bind, Option.bind_eq_some_iff, Jute.buffer_eq_some_iff]
  constructor
  · rintro ⟨_, ⟨short, rfl⟩, same⟩
    exact ⟨short, (Option.some.inj same).symm⟩
  · rintro ⟨short, rfl⟩
    exact ⟨_, ⟨short, rfl⟩, rfl⟩

namespace ConnectRequest

/-- The frame holds a connect request of the protocol, and maybe more. -/
def Fits (request : ConnectRequest) (payload : List UInt8) : Prop :=
  ∃ bytes, Jute.connect request = some bytes ∧ bytes <+: payload

/-- The parser reads what a client sends, and nothing else. -/
theorem reads_iff {request : ConnectRequest} (short : buf.length ≤ maxMessageLength) :
    fromBytes.Reads buf request rest ↔
      ∃ bytes, Jute.connect request = some bytes ∧ buf = bytes ++ rest := by
  unfold fromBytes
  simp only [Reader.reads_bind_iff, getI32_reads_canonical, getI64_reads_canonical,
    Reader.reads_remaining_iff, Reader.reads_check_iff, Reader.reads_take_iff,
    Reader.reads_pure_iff, Jute.connect_eq_some_iff]
  constructor
  · rintro ⟨version, _, rfl, zxid, _, rfl, timeout, _, rfl, session, _, rfl, length, _, rfl, _, _,
      ⟨rfl, rfl⟩, _, _, ⟨enough, rfl⟩, password, _, ⟨rfl, whole⟩, rfl, rfl⟩
    have fits : password.length < 2 ^ 31 := by
      rw [maxMessageLength] at short
      simp only [List.length_append] at short
      omega
    refine ⟨_, ⟨fits, rfl⟩, ?_⟩
    rw [asUsize_eq fits whole.symm]
    simp only [List.append_assoc]
  · rintro ⟨_, ⟨fits, rfl⟩, rfl⟩
    have length := asUsize_ofNat fits
    simp only [List.append_assoc]
    refine ⟨_, _, rfl, _, _, rfl, _, _, rfl, _, _, rfl, _, _, rfl, _, _, ⟨rfl, rfl⟩, (), _,
      ⟨?_, rfl⟩, request.password, rest, ⟨rfl, length.symm⟩, rfl, rfl⟩
    rw [length, List.length_append]
    exact Nat.le_add_right _ _

/-- A buffer without the fields in front of the password makes the parser panic. -/
theorem safe_iff : fromBytes.Safe buf ↔ 28 ≤ buf.length := by
  have four : getI32.Fixed 4 := Reader.fixed_take_bind_pure
  have eight : getI64.Fixed 8 := Reader.fixed_take_bind_pure
  have whole : fromBytes.Safe buf ↔ 4 + (8 + (4 + (8 + (4 + 0)))) ≤ buf.length := by
    refine four.safe_bind fun _ _ => eight.safe_bind fun _ _ => four.safe_bind fun _ _ =>
      eight.safe_bind fun _ _ => four.safe_bind fun length rest => ?_
    simp only [Reader.safe_remaining_bind_iff, Reader.safe_check_bind_iff,
      Reader.safe_bind_pure_iff, Reader.safe_take_iff, imp_self, Nat.zero_le]
  exact whole

end ConnectRequest

/-- A client reads the response back, and nothing is left of it. -/
theorem ConnectResponse.reads_toBytes {response : ConnectResponse}
    (id : -2 ^ 63 ≤ response.sessionId ∧ response.sessionId < 2 ^ 63)
    (short : response.password.length < 2 ^ 31) :
    getConnectResponse.Reads response.toBytes response [] := by
  have number : (Int64.ofInt response.sessionId).toInt = response.sessionId :=
    Int64.toInt_ofInt_of_le id.1 id.2
  have password : (getField advanceOutOfBounds).Takes
      (i32ToBeBytes (Int32.ofNat response.password.length) ++ response.password)
        response.password := getField_takes (Jute.buffer_eq_some_iff.mpr ⟨short, rfl⟩)
  have takes : getConnectResponse.Takes response.toBytes response := by
    rw [toBytes]
    simp only [List.append_assoc]
    refine (getI32_takes _).bind <| (getI32_takes _).bind <| (getI64_takes _).bind ?_
    rw [number]
    exact password.map
  have reads := takes []
  rwa [List.append_nil] at reads

end Bytes

namespace KeeperServer
variable {recordBytes : LogRecord → ℕ} {s : KeeperServer recordBytes}

/-- The next session id is positive, and above those of all open sessions. -/
theorem Reachable.counted (reachable : Reachable s) :
    0 < s.storage.sessionState.nextSessionId ∧ s.storage.sessionState.Counted := by
  induction reachable with
  | @started dir orders s h =>
    have loop : (⟨s, 0, [], [], []⟩ : ExpiryLoop recordBytes).Started :=
      ⟨⟨dir, orders, h⟩, rfl, rfl, rfl⟩
    exact ⟨nextSessionId_pos_of_start h, loop.watched.counted⟩
  | stepped init last ih =>
    obtain ⟨out, op, -, transition, -⟩ := last.transition init.linked
    have move := transition.sessionMove init.linked init.kept.covered
    exact ⟨ih.1.trans_le move.nextId_le, move.counted ih.2⟩

end KeeperServer

namespace ConnectionHandler
variable {recordBytes : LogRecord → ℕ} {s : KeeperServer recordBytes} {payload : List UInt8}

theorem connect_cases (short : payload.length ≤ maxMessageLength) (env : Env) :
    (payload.length < 28 ∧ ∃ message, connect s env payload = .error message) ∨
    (28 ≤ payload.length ∧ (∀ request : ConnectRequest, ¬ request.Fits payload) ∧
      connect s env payload = .ok none) ∨
    ∃ request : ConnectRequest, 28 ≤ payload.length ∧ request.Fits payload ∧
      connect s env payload = .ok (some (KeeperDispatcher.handshake s env request)) := by
  have safe := @ConnectRequest.safe_iff payload
  cases read : ConnectRequest.fromBytes payload with
  | error message =>
    refine .inl ⟨?_, message, by rw [connect, read]⟩
    by_contra enough
    obtain ⟨result, done⟩ := safe.mpr (not_lt.mp enough)
    rw [read] at done
    cases done
  | ok result =>
    have enough := safe.mp ⟨result, read⟩
    obtain ⟨_ | request, rest⟩ := result
    · refine .inr (.inl ⟨enough, ?_, by rw [connect, read]⟩)
      rintro request ⟨bytes, encoded, later, rfl⟩
      have reads := (ConnectRequest.reads_iff short).mpr ⟨bytes, encoded, rfl⟩
      rw [Reader.Reads, read] at reads
      cases reads
    · obtain ⟨bytes, encoded, rfl⟩ := (ConnectRequest.reads_iff short).mp read
      exact .inr (.inr ⟨request, enough, ⟨bytes, encoded, List.prefix_append _ _⟩,
        by rw [connect, read]⟩)

theorem connect_of_fits (short : payload.length ≤ maxMessageLength) (env : Env)
    {request : ConnectRequest} (fits : request.Fits payload) :
    connect s env payload = .ok (some (KeeperDispatcher.handshake s env request)) := by
  obtain ⟨bytes, encoded, rest, rfl⟩ := fits
  have reads : ConnectRequest.fromBytes (bytes ++ rest) = .ok (some request, rest) :=
    (ConnectRequest.reads_iff short).mpr ⟨bytes, encoded, rfl⟩
  rw [connect, reads]

/-- The first frame of a connection decides what becomes of it: a frame that is too short for the
fixed fields makes the task panic, any other frame that is no connect request ends the connection,
and a connect request opens a new session, whose id the client reads from the response. -/
theorem handshake_exact (reachable : s.Reachable)
    (next : s.storage.sessionState.nextSessionId < 2 ^ 63)
    (short : payload.length ≤ maxMessageLength) (env : Env) :
    ((∃ message, connect s env payload = .error message) ↔ payload.length < 28) ∧
    (connect s env payload = .ok none ↔
      28 ≤ payload.length ∧ ∀ request : ConnectRequest, ¬ request.Fits payload) ∧
    ∀ request : ConnectRequest, request.Fits payload → ∃ response s',
      connect s env payload = .ok (some (response, s')) ∧
      s.exec env (.createSession request.timeoutMs.toInt) =
        .done (.session response.sessionId) s' ∧
      getConnectResponse.Reads response.toBytes
        ⟨request.protocolVersion, request.timeoutMs, response.sessionId, []⟩ [] ∧
      ¬ s.storage.sessionState.IsOpen response.sessionId ∧
      s'.storage.sessionState.sessionAndTimeout.get response.sessionId =
        some request.timeoutMs.toInt := by
  refine ⟨?_, ?_, fun request fits => ?_⟩
  · obtain ⟨few, panics⟩ | ⟨enough, -, refused⟩ | ⟨request, enough, -, connected⟩ :=
      connect_cases (s := s) short env
    · exact iff_of_true panics few
    · exact iff_of_false (by simp [refused]) (not_lt.mpr enough)
    · exact iff_of_false (by simp [connected]) (not_lt.mpr enough)
  · obtain ⟨few, message, panics⟩ | ⟨enough, none, refused⟩ | ⟨request, -, fits, connected⟩ :=
      connect_cases (s := s) short env
    · exact iff_of_false (by simp [panics]) fun h => absurd few (not_lt.mpr h.1)
    · exact iff_of_true refused ⟨enough, none⟩
    · exact iff_of_false (by simp [connected]) fun h => h.2 request fits
  · obtain ⟨positive, counted⟩ := reachable.counted
    have range : -2 ^ 63 ≤ s.storage.sessionState.nextSessionId := by omega
    refine ⟨_, _, connect_of_fits short env fits, rfl, ?_, ?_, ?_⟩
    · exact ConnectResponse.reads_toBytes ⟨range, next⟩ (Nat.two_pow_pos 31)
    · intro opened
      exact (counted.opened _ opened).ne rfl
    · exact (Table.get_insert _ _ _ _).trans (if_pos rfl)

/-- The request of a client that wants five seconds, and no session back. -/
def greeting : List UInt8 :=
  [0, 0, 0, 0] ++ List.replicate 8 0 ++ [0, 0, 0x13, 0x88] ++ List.replicate 8 0 ++ [0, 0, 0, 0]

theorem handshake_exact_greeting : ∃ response s',
    connect (.initial fun _ => 1) (.working 0) greeting = .ok (some (response, s')) ∧
      response.toBytes = [0, 0, 0, 0, 0, 0, 0x13, 0x88, 0, 0, 0, 0, 0, 0, 0, 1, 0, 0, 0, 0] ∧
      getConnectResponse.Reads response.toBytes ⟨0, 5000, 1, []⟩ [] := by
  have fits : ConnectRequest.Fits ⟨0, 0, 5000, 0, []⟩ greeting :=
    ⟨greeting, by decide, List.prefix_refl _⟩
  have short : greeting.length ≤ maxMessageLength := by decide
  obtain ⟨-, -, opens⟩ := handshake_exact (s := .initial fun _ => 1)
    KeeperServer.initial_reachable (by decide) short (.working 0)
  obtain ⟨response, s', connected, opened, reads, -, -⟩ := opens _ fits
  have same : response = ⟨0, 5000, 1, []⟩ := by
    have computed := connect_of_fits (s := .initial fun _ => 1) short (.working 0) fits
    rw [connected] at computed
    exact congrArg Prod.fst (Option.some.inj (Except.ok.inj computed))
  subst same
  exact ⟨_, s', connected, by decide, reads⟩

end ConnectionHandler
end TinyKeeper
