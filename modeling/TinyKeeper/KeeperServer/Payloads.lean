import TinyKeeper.ConnectionHandler
import TinyKeeper.KeeperServer.Writes
import TinyKeeper.Protocol.Bounds

/-! Requests as they arrive: from the payload of a frame to the reply. A payload is answered unless
a parser runs past its end or does not know its opcode. -/
namespace TinyKeeper

/-- The xid and the request in a payload of at least eight bytes. -/
def parsePayload (payload : List UInt8) : Panics (Int32 × Request) :=
  match RequestHeader.fromBytes payload with
  | .error message => .error message
  | .ok (none, _) => .error "unknown opcode"
  | .ok (some header, body) =>
    match Request.fromBytes header.opcode body with
    | .error message => .error message
    | .ok (none, _) => .ok (header.xid, .rejected)
    | .ok (some req, _) => .ok (header.xid, req)

/-- The payload has a known opcode, and its body fits. -/
structure PayloadFits (payload : List UInt8) (opcode : OpCode) : Prop where
  header : 8 ≤ payload.length
  known : OpCode.tryFrom (opcodeOf payload) = some opcode
  body : BodyFits opcode (payload.drop 8)

def xidOf (payload : List UInt8) : Int32 := i32FromBeBytes (payload.take 4)

theorem RequestHeader.reads_iff {payload body : List UInt8} {header : RequestHeader} :
    RequestHeader.fromBytes.Reads payload header body ↔ 8 ≤ payload.length ∧
      OpCode.tryFrom (opcodeOf payload) = some header.opcode ∧ header.xid = xidOf payload ∧
      body = payload.drop 8 := by
  unfold RequestHeader.fromBytes
  simp only [Reader.reads_bind_iff, getI32_reads_iff, Reader.reads_ofOption_iff,
    Reader.reads_pure_iff]
  constructor
  · rintro ⟨_, _, ⟨first, four, rfl, rfl⟩, _, rest, ⟨second, four', rfl, rfl⟩, _, _, ⟨known, rfl⟩,
      rfl, rfl⟩
    have opcode : opcodeOf (first ++ (second ++ rest)) = i32FromBeBytes second :=
      congrArg i32FromBeBytes
        (slice_mid (List.append_assoc _ _ _).symm four (by rw [four']))
    refine ⟨by simp only [List.length_append]; omega, opcode ▸ known, ?_, ?_⟩
    · rw [xidOf, List.take_left' four]
    · rw [← List.append_assoc, List.drop_left' (by simp [four, four'])]
  · rintro ⟨enough, known, xid, rfl⟩
    have front : (payload.take 4).length = 4 := List.length_take_of_le (by omega)
    have middle : (slice payload 4 8).length = 4 := by
      simp only [slice, List.length_drop, List.length_take]
      omega
    have split : payload.drop 4 = slice payload 4 8 ++ payload.drop 8 := by
      have again : payload.drop 8 = (payload.drop 4).drop 4 := by rw [List.drop_drop]
      rw [slice, List.drop_take, again, List.take_append_drop]
    refine ⟨_, _, ⟨payload.take 4, front, (List.take_append_drop 4 payload).symm, rfl⟩, _, _,
      ⟨slice payload 4 8, middle, split, rfl⟩, _, _, ⟨known, rfl⟩, ?_, rfl⟩
    rw [← xidOf, ← xid]

/-- The parsers get through a payload exactly if it fits. -/
theorem parsePayload_iff {payload : List UInt8} :
    (∃ parsed, parsePayload payload = .ok parsed) ↔ ∃ opcode, PayloadFits payload opcode := by
  constructor
  · rintro ⟨parsed, done⟩
    rw [parsePayload] at done
    rcases read : RequestHeader.fromBytes payload with message | ⟨_ | header, body⟩
    · rw [read] at done
      cases done
    · rw [read] at done
      cases done
    · obtain ⟨enough, known, -, rfl⟩ := RequestHeader.reads_iff.mp read
      refine ⟨header.opcode, enough, known, (Request.safe_iff header.opcode).mp ?_⟩
      simp only [read] at done
      cases request : Request.fromBytes header.opcode (payload.drop 8) with
      | error message =>
        rw [request] at done
        cases done
      | ok result => exact ⟨result, request⟩
  · rintro ⟨opcode, enough, known, fits⟩
    have read : RequestHeader.fromBytes payload =
        .ok (some ⟨xidOf payload, opcode⟩, payload.drop 8) :=
      RequestHeader.reads_iff.mpr ⟨enough, known, rfl, rfl⟩
    obtain ⟨⟨req, rest⟩, request⟩ := (Request.safe_iff opcode).mpr fits
    rw [parsePayload, read]
    simp only [request]
    cases req with
    | none => exact ⟨_, rfl⟩
    | some req => exact ⟨_, rfl⟩

theorem xid_of_parsePayload {payload : List UInt8} {xid : Int32} {req : Request}
    (parsed : parsePayload payload = .ok (xid, req)) : xid = xidOf payload := by
  rw [parsePayload] at parsed
  rcases read : RequestHeader.fromBytes payload with message | ⟨_ | header, body⟩
  · rw [read] at parsed
    cases parsed
  · rw [read] at parsed
    cases parsed
  · obtain ⟨-, -, same, -⟩ := RequestHeader.reads_iff.mp read
    simp only [read] at parsed
    rcases request : Request.fromBytes header.opcode body with message | ⟨_ | req', rest⟩
    · rw [request] at parsed
      cases parsed
    · rw [request] at parsed
      cases parsed
      exact same
    · rw [request] at parsed
      cases parsed
      exact same

namespace KeeperServer
variable {recordBytes : LogRecord → ℕ} (s : KeeperServer recordBytes) (env : Env) (id : SessionId)

/-- `apply` on the bytes of a request. The session is touched before they are parsed. -/
def applyPayload (payload : List UInt8) : Exec (KeeperServer recordBytes) ApplyResult :=
  if payload.length < 8 then s.refuse 0 .badArguments
  else
    match parsePayload payload with
    | .error message => .panic message
    | .ok (xid, req) => s.apply env xid id req

/-- A turn of the connection loop: the opcode is sliced off the payload before it is dispatched. -/
def serveFrame (payload : List UInt8) : Exec (KeeperServer recordBytes) ApplyResult :=
  if payload.length < 8 then .panic "range end index 8 out of range for slice"
  else s.applyPayload env id payload

/-- The frame is answered, with the xid it came with. -/
def Replied (payload : List UInt8) : Prop :=
  ∃ r s', s.serveFrame env id payload = .done r s' ∧
    (8 ≤ payload.length → r.response.xid = xidOf payload)

/-- The operations of a batch succeed and the flush of its record fails. -/
def StopsProcess : Request → Prop
  | .multi ops => ∃ m, MultiProgress.run ⟨s.storage.nextZxid, [], [], []⟩ env id ops = .ok (.ok m) ∧
      (s.log env (.multi m.walOperations env.now id)).2 ≠ .ok ()
  | _ => False

/-- The handler answers under the xid of the request, or stops the process. -/
def EndsWith (xid : Int32) (stops : Prop) : Exec (KeeperServer recordBytes) ApplyResult → Prop
  | .done r _ => r.response.xid = xid ∧ ¬ stops
  | .panic _ => False
  | .abort _ => stops

variable {s env id}

theorem Answers.endsWith {xid : Int32} {req : Request} {op : WalOperation}
    {result : Exec (KeeperServer recordBytes) ApplyResult}
    (h : s.Answers env xid id req op result) : EndsWith xid False result := by
  cases h with
  | refused fails => exact ⟨rfl, fun stops => stops⟩
  | logged ends =>
    rw [finish]
    obtain ⟨s₁, error, hlog, -⟩ | ⟨s₁, hlog, -⟩ := s.log_cases env op
    · rw [hlog]
      exact ⟨rfl, fun stops => stops⟩
    · rw [hlog]
      exact ⟨rfl, fun stops => stops⟩

theorem MultiEnds.endsWith {xid : Int32} {ops : List MultiOp}
    {result : Exec (KeeperServer recordBytes) ApplyResult} (h : s.MultiEnds env xid id ops result) :
    EndsWith xid (s.StopsProcess env id (.multi ops)) result := by
  cases h with
  | completes path hlog =>
    refine ⟨rfl, ?_⟩
    rintro ⟨m, run, failed⟩
    rw [MultiProgress.run_completes path] at run
    cases run
    exact failed (congrArg Prod.snd hlog)
  | aborts path hlog =>
    refine ⟨_, MultiProgress.run_completes path, ?_⟩
    simp [MultiProgress.after, hlog]
  | @fails entries st op rest error path fails =>
    refine ⟨rfl, ?_⟩
    rintro ⟨m, run, -⟩
    rw [MultiProgress.run_fails path rest fails] at run
    cases run

theorem handleRead_endsWith (xid : Int32) (req : ReadRequest) (t : WatchType)
    (body : Node → ReplyBody) : EndsWith xid False (s.handleRead xid req id t body) := by
  have ends := s.handleRead_ends xid req id t body
  generalize s.handleRead xid req id t body = result at ends
  cases ends with
  | watching watch calm => exact ⟨rfl, fun stops => stops⟩
  | plain watch calm => exact ⟨rfl, fun stops => stops⟩

/-- Every handler answers under the xid of its request, unless the flush of a batch fails. -/
theorem handle_endsWith (hl : s.storage.Linked) (xid : Int32) (req : Request) :
    EndsWith xid (s.StopsProcess env id req) (s.handle env xid id req) := by
  cases req with
  | create req => exact (handle_answers s env hl rfl).endsWith
  | set req => exact (handle_answers s env hl rfl).endsWith
  | remove req => exact (handle_answers s env hl rfl).endsWith
  | get req => exact handleRead_endsWith xid req _ _
  | «exists» req => exact handleRead_endsWith xid req _ _
  | list req => exact handleRead_endsWith xid req _ _
  | simpleList req => exact handleRead_endsWith xid req _ _
  | heartbeat => exact ⟨rfl, fun stops => stops⟩
  | close =>
    obtain ⟨st, ended, -⟩ := hl.endSession env.orders id
    rw [handle, handleClose, ended]
    exact ⟨rfl, fun stops => stops⟩
  | multi ops => exact (handleMulti_ends hl xid ops id).endsWith
  | rejected => exact ⟨rfl, fun stops => stops⟩

/-- A frame is answered exactly if its payload fits, unless the flush of a batch fails. -/
theorem replied_iff (reachable : Reachable s) (env : Env) (id : SessionId) (payload : List UInt8) :
    s.Replied env id payload ↔ (∃ opcode, PayloadFits payload opcode) ∧
      ∀ xid req, parsePayload payload = .ok (xid, req) →
        ¬ (s.touchSession env.now id).StopsProcess env id req := by
  rw [← parsePayload_iff, Replied, serveFrame, applyPayload]
  by_cases short : payload.length < 8
  · rw [if_pos short]
    refine iff_of_false (by simp) ?_
    rintro ⟨fits, -⟩
    obtain ⟨opcode, enough, -, -⟩ := parsePayload_iff.mp fits
    exact absurd enough (Nat.not_le.mpr short)
  · rw [if_neg short, if_neg short]
    cases parsed : parsePayload payload with
    | error message => simp
    | ok parsed' =>
      obtain ⟨xid, req⟩ := parsed'
      have linked : (s.touchSession env.now id).storage.Linked := reachable.linked.of_map rfl
      have ends : EndsWith xid ((s.touchSession env.now id).StopsProcess env id req)
          ((s.touchSession env.now id).handle env xid id req) := handle_endsWith linked xid req
      rw [← xid_of_parsePayload parsed]
      simp only [apply]
      cases handled : (s.touchSession env.now id).handle env xid id req with
      | done r s' =>
        rw [handled] at ends
        refine iff_of_true ⟨r, s', rfl, fun _ => ends.1⟩ ⟨⟨_, rfl⟩, ?_⟩
        rintro _ _ same
        cases same
        exact ends.2
      | panic message =>
        rw [handled] at ends
        exact ends.elim
      | abort s' =>
        rw [handled] at ends
        refine iff_of_false (by simp) ?_
        rintro ⟨-, goes⟩
        exact goes xid req rfl ends

/-- An Exists request for the root. -/
theorem replied_exists : (initial fun _ => 1).Replied (.working 0) 1
    [0, 0, 0, 42, 0, 0, 0, 3, 0, 0, 0, 1, 47, 0] := by
  refine (replied_iff initial_reachable _ _ _).mpr ⟨⟨.exists, by decide, by decide, ?_⟩, ?_⟩
  · exact ⟨[47], [0], ⟨[0, 0, 0, 1], rfl, by decide, rfl⟩, fun _ => Nat.le_refl 1⟩
  · rintro xid req parsed
    have same : parsePayload [0, 0, 0, 42, 0, 0, 0, 3, 0, 0, 0, 1, 47, 0] =
        .ok (42, .exists ⟨"/", false⟩) := rfl
    cases same.symm.trans parsed
    exact fun stops => stops

theorem not_replied_of_panic {payload : List UInt8}
    (panics : ∃ message, s.serveFrame env id payload = .panic message) :
    ¬ s.Replied env id payload := by
  obtain ⟨message, panics⟩ := panics
  rintro ⟨r, s', done, -⟩
  rw [panics] at done
  cases done

/-- A frame without an opcode, one with an unknown opcode, and a Set of a null buffer, whose length
is -1. -/
theorem frames_not_replied : ¬ (initial fun _ => 1).Replied (.working 0) 1 [0, 0, 0, 1] ∧
    ¬ (initial fun _ => 1).Replied (.working 0) 1 [0, 0, 0, 1, 0, 0, 0, 99] ∧
    ¬ (initial fun _ => 1).Replied (.working 0) 1 ([0, 0, 0, 1, 0, 0, 0, 5, 0, 0, 0, 1, 47] ++
      [255, 255, 255, 255, 255, 255, 255, 255]) := by
  refine ⟨not_replied_of_panic ?_, not_replied_of_panic ?_, not_replied_of_panic ?_⟩
  · exact ⟨"range end index 8 out of range for slice", rfl⟩
  · exact ⟨"unknown opcode", rfl⟩
  · exact ⟨midBeyondLen, rfl⟩

end KeeperServer
end TinyKeeper
