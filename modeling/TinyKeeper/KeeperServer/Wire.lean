import TinyKeeper.KeeperServer.Payloads
import TinyKeeper.Protocol.Replies

/-! The server on bytes. What a client reads from the response to its request, and from the
notifications, is what the server computed for the request that the client sent. -/
namespace TinyKeeper

/-- A notification as it goes to the channel of its session. -/
structure WireEvent where
  sessionId : SessionId
  payload : List UInt8
  deriving DecidableEq

/-- The bytes of the reply, and the notifications to hand to the sessions' channels. -/
structure WireResult where
  response : List UInt8
  watchEvents : List WireEvent
  deriving DecidableEq

def WatchEvent.toWire (event : WatchEvent) : WireEvent := ⟨event.sessionId, event.payload.toBytes⟩

def ApplyResult.toWire (result : ApplyResult) : WireResult where
  response := result.response.toBytes
  watchEvents := result.watchEvents.map WatchEvent.toWire

/-- The parser of the opcode makes such requests. A body that does not parse is rejected, under
every opcode. -/
def Request.Of : OpCode → Request → Prop
  | .create, .create _ => True
  | .get, .get _ => True
  | .set, .set _ => True
  | .remove, .remove _ => True
  | .heartbeat, .heartbeat => True
  | .simpleList, .simpleList _ => True
  | .list, .list _ => True
  | .exists, .exists _ => True
  | .close, .close => True
  | .multi, .multi _ => True
  | _, .rejected => True
  | _, _ => False

theorem SentRequest.request_of (sent : SentRequest) : sent.request.Of sent.opcode := by
  cases sent <;> exact trivial

/-- A request is rejected, or read by the parser of the opcode in the header. -/
theorem parsePayload_cases {payload : List UInt8} {xid : Int32} {req : Request}
    (parsed : parsePayload payload = .ok (xid, req)) :
    ∃ opcode, OpCode.tryFrom (opcodeOf payload) = some opcode ∧ 8 ≤ payload.length ∧
      (req = .rejected ∨ ∃ rest, (Request.fromBytes opcode).Reads (payload.drop 8) req rest) := by
  rw [parsePayload] at parsed
  rcases read : RequestHeader.fromBytes payload with message | ⟨_ | header, body⟩
  · rw [read] at parsed
    cases parsed
  · rw [read] at parsed
    cases parsed
  · obtain ⟨enough, known, -, rfl⟩ := RequestHeader.reads_iff.mp read
    refine ⟨header.opcode, known, enough, ?_⟩
    simp only [read] at parsed
    rcases request : Request.fromBytes header.opcode (payload.drop 8) with message | ⟨_ | req', rest⟩
    · rw [request] at parsed
      cases parsed
    · rw [request] at parsed
      cases parsed
      exact .inl rfl
    · rw [request] at parsed
      cases parsed
      exact .inr ⟨rest, request⟩

/-- A client is understood, whatever follows its request in the frame. -/
theorem parsePayload_payload {xid : Int32} {sent : SentRequest} {bytes : List UInt8}
    (encoded : Jute.payload xid sent = some bytes) (trailing : List UInt8) :
    parsePayload (bytes ++ trailing) = .ok (xid, sent.request) := by
  obtain ⟨body, request, rfl⟩ := Jute.payload_eq_some_iff.mp encoded
  have header := RequestHeader.fromBytes_takes xid sent.opcode (body ++ trailing)
  have rest := Request.fromBytes_takes request trailing
  unfold Reader.Reads at header rest
  simp only [List.append_assoc] at header ⊢
  rw [parsePayload, header]
  simp only [rest]

/-- The requests on the wire and those the server serves are the same: what a client can encode is
parsed as what it meant, with whatever follows it, and what is parsed from a frame, unless it is
rejected, is what a client can encode in a frame that is no longer. -/
theorem parsePayload_encoded :
    (∀ xid sent, Jute.payload xid sent ≠ none ↔ sent.Fits) ∧
    (∀ xid sent bytes trailing, Jute.payload xid sent = some bytes →
      parsePayload (bytes ++ trailing) = .ok (xid, sent.request)) ∧
    ∀ payload xid req, payload.length ≤ maxMessageLength →
      parsePayload payload = .ok (xid, req) → req ≠ .rejected →
      ∃ sent bytes, sent.request = req ∧ Jute.payload xid sent = some bytes ∧
        bytes.length ≤ payload.length := by
  refine ⟨Jute.payload_ne_none_iff, fun _ _ _ trailing encoded =>
    parsePayload_payload encoded trailing, ?_⟩
  intro payload xid req short parsed accepted
  rw [maxMessageLength] at short
  obtain ⟨opcode, -, enough, rejected | ⟨rest, reads⟩⟩ := parsePayload_cases parsed
  · exact absurd rejected accepted
  have less : (payload.drop 8).length < 2 ^ 31 := by
    rw [List.length_drop]
    omega
  obtain ⟨bytes, encoded, size⟩ := Request.fromBytes_reencodes _ _ _ _ less reads
  obtain ⟨sent, same, encoded⟩ := Option.bind_eq_some_iff.mp encoded
  refine ⟨sent, _, Request.request_sent same,
    Jute.payload_eq_some_iff.mpr ⟨bytes, encoded, rfl⟩, ?_⟩
  simp only [List.length_append, i32ToBeBytes_length, List.length_drop] at size ⊢
  omega

/-- A read with its watch flag set, and a frame whose access list is not kept. -/
theorem parsePayload_encoded_read : ∃ bytes, Jute.payload 7 (.get ⟨"/a", true⟩) = some bytes ∧
    parsePayload (bytes ++ [1, 2]) = .ok (7, .get ⟨"/a", true⟩) := by
  obtain ⟨bytes, encoded⟩ := Option.ne_none_iff_exists'.mp
    ((parsePayload_encoded.1 7 (.get ⟨"/a", true⟩)).mpr (by decide : ("/a").utf8ByteSize < 2 ^ 31))
  exact ⟨bytes, encoded, parsePayload_encoded.2.1 _ _ _ [1, 2] encoded⟩

namespace KeeperServer
variable {recordBytes : LogRecord → ℕ} (s : KeeperServer recordBytes) (env : Env) (id : SessionId)

/-- `apply`, from the bytes of a request to those of its reply. -/
def applyBytes (payload : List UInt8) : Exec (KeeperServer recordBytes) WireResult :=
  (s.applyPayload env id payload).map ApplyResult.toWire

variable {s env id}

/-- The body of the reply, if the result is one, is what a client of this opcode expects. -/
def Shaped (opcode : OpCode) : Exec (KeeperServer recordBytes) ApplyResult → Prop
  | .done r _ => r.response.Answers opcode
  | _ => True

theorem refuse_shaped (opcode : OpCode) (xid : Int32) {code : ErrorCode} (bad : code ≠ .ok) :
    Shaped opcode (s.refuse xid code) := by
  change Reply.Answers _ ⟨_, _, code, .empty⟩
  rw [Reply.Answers, if_neg bad]

theorem handleRead_shaped {opcode : OpCode} (xid : Int32) (req : ReadRequest) (t : WatchType)
    {body : Node → ReplyBody} (answers : ∀ n, (body n).Answers opcode) :
    Shaped opcode (s.handleRead xid req id t body) := by
  unfold handleRead
  simp only
  split
  · exact refuse_shaped _ _ (by decide)
  · exact answers _

theorem Answers.shaped {opcode : OpCode} {xid : Int32} {req : Request} {op : WalOperation}
    {result : Exec (KeeperServer recordBytes) ApplyResult}
    (h : s.Answers env xid id req op result) (of : req.Of opcode) : Shaped opcode result := by
  cases h with
  | refused fails => exact refuse_shaped _ _ fails.code_ne.1
  | logged ends =>
    rw [finish]
    obtain ⟨s₁, error, hlog, -⟩ | ⟨s₁, hlog, -⟩ := s.log_cases env op
    · rw [hlog]
      exact refuse_shaped _ _ (by decide)
    · rw [hlog]
      cases ends <;> cases opcode <;> first | exact of.elim | exact rfl | exact trivial

variable (env id) in
/-- Every handler answers with a body of its own, or with an error and no body. -/
theorem handle_shaped (linked : s.storage.Linked) (xid : Int32) {opcode : OpCode} {req : Request}
    (of : req.Of opcode) : Shaped opcode (s.handle env xid id req) := by
  cases req with
  | create req => exact (handle_answers s env linked rfl).shaped of
  | set req => exact (handle_answers s env linked rfl).shaped of
  | remove req => exact (handle_answers s env linked rfl).shaped of
  | get req =>
    refine handleRead_shaped xid req _ fun n => ?_
    cases opcode <;> first | exact of.elim | exact trivial
  | «exists» req =>
    refine handleRead_shaped xid req _ fun n => ?_
    cases opcode <;> first | exact of.elim | exact trivial
  | list req =>
    refine handleRead_shaped xid req _ fun n => ?_
    cases opcode <;> first | exact of.elim | exact trivial
  | simpleList req =>
    refine handleRead_shaped xid req _ fun n => ?_
    cases opcode <;> first | exact of.elim | exact trivial
  | heartbeat => cases opcode <;> first | exact of.elim | exact trivial
  | close =>
    obtain ⟨st, ended, -⟩ := linked.endSession env.orders id
    rw [handle, handleClose, ended]
    cases opcode <;> first | exact of.elim | exact trivial
  | multi ops =>
    have ends : s.MultiEnds env xid id ops (s.handle env xid id (.multi ops)) :=
      handleMulti_ends linked xid ops id
    generalize s.handle env xid id (.multi ops) = result at ends
    cases ends with
    | completes path hlog => cases opcode <;> first | exact of.elim | exact trivial
    | aborts path hlog => exact trivial
    | fails path fails => cases opcode <;> first | exact of.elim | exact trivial
  | rejected => exact refuse_shaped _ _ (by decide)

/-- The byte level refines the level of values. A request that a client encodes is served as the
request it meant, under its xid; and what the client reads from the response and from the
notifications is what the server computed, as long as no number has left the range of its field. -/
theorem applyBytes_encoded (reachable : Reachable s) (env : Env) (id : SessionId) {xid : Int32}
    {sent : SentRequest} {bytes : List UInt8} (encoded : Jute.payload xid sent = some bytes) :
    s.applyBytes env id bytes = (s.apply env xid id sent.request).map ApplyResult.toWire ∧
    ∀ r s', s.apply env xid id sent.request = .done r s' →
      r.response.xid = xid ∧
      (r.response.InRange →
        (getReply sent.opcode).Reads r.toWire.response r.response []) ∧
      List.Forall₂ (fun event wire => wire.sessionId = event.sessionId ∧ (event.payload.InRange →
        getNotification.Reads wire.payload event.payload [])) r.watchEvents
          r.toWire.watchEvents := by
  have parsed := parsePayload_payload encoded []
  rw [List.append_nil] at parsed
  have long : ¬ bytes.length < 8 := by
    obtain ⟨body, -, rfl⟩ := Jute.payload_eq_some_iff.mp encoded
    simp only [List.length_append, i32ToBeBytes_length]
    omega
  have linked : (s.touchSession env.now id).storage.Linked := reachable.linked.of_map rfl
  refine ⟨by rw [applyBytes, applyPayload, if_neg long, parsed], fun r s' done => ⟨?_, ?_, ?_⟩⟩
  · rw [apply] at done
    have ends : EndsWith xid _ ((s.touchSession env.now id).handle env xid id sent.request) :=
      handle_endsWith linked xid sent.request
    rw [done] at ends
    exact ends.1
  · intro range
    have shaped := handle_shaped env id linked xid sent.request_of
    rw [apply] at done
    rw [done] at shaped
    have reads := getReply_takes shaped range []
    rwa [List.append_nil] at reads
  · refine List.forall₂_map_right_iff.mpr (List.forall₂_same.mpr fun event _ => ⟨rfl, ?_⟩)
    intro range
    have reads := getNotification_takes range []
    rwa [List.append_nil] at reads

/-- The reply to an Exists request for the root of a new tree. -/
theorem applyBytes_encoded_exists : ∃ bytes result s',
    Jute.payload 42 (.exists ⟨"/", false⟩) = some bytes ∧
    (initial fun _ => 1).applyBytes (.working 0) 1 bytes = .done result s' ∧
    (getReply .exists).Reads result.response ⟨42, 0, .ok, .stat {} 0 0⟩ [] := by
  obtain ⟨bytes, encoded⟩ : ∃ bytes, Jute.payload 42 (.exists ⟨"/", false⟩) = some bytes := ⟨_, rfl⟩
  obtain ⟨same, reads⟩ := applyBytes_encoded initial_reachable (.working 0) 1 encoded
  obtain ⟨s', done⟩ : ∃ s', (initial fun _ => 1).apply (.working 0) 42 1 (.exists ⟨"/", false⟩) =
      .done ⟨⟨42, 0, .ok, .stat {} 0 0⟩, []⟩ s' := ⟨_, rfl⟩
  refine ⟨bytes, _, s', encoded, same.trans (congrArg (Exec.map ApplyResult.toWire) done), ?_⟩
  exact (reads _ _ done).2.1 ⟨by decide, by constructor <;> decide⟩

end KeeperServer
end TinyKeeper
