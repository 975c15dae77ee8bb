import TinyKeeper.ConnectionHandler.Written
import TinyKeeper.KeeperDispatcher.Serial

/-! What the clients see on their sockets: the zxids of the replies never go back, and each client
reads from the bytes the frames that were written for it. -/
namespace TinyKeeper

/-- Replies that answer the requests, with notifications anywhere in between, are what a client
expects. -/
theorem Received.expected_of {pending used unused : List OpCode} {received : List Received}
    (split : pending = used ++ unused)
    (answers : List.Forall₂ (fun opcode (r : Reply) => r.Answers opcode) used
      (received.filterMap Received.reply?)) : Received.Expected pending received := by
  induction received generalizing pending used with
  | nil => exact .done
  | cons r received ih =>
    cases r with
    | reply r =>
      have first : (Received.reply r :: received).filterMap Received.reply? =
          r :: received.filterMap Received.reply? := rfl
      rw [first] at answers
      cases answers with
      | cons answers rest =>
        subst split
        exact .reply answers (ih rfl rest)
    | notification n => exact .notification (ih split answers)

def Frame.received : Frame → Received
  | .reply _ r => .reply r
  | .notification notice => .notification notice.payload

theorem Frame.reply?_received (frames : List Frame) :
    (frames.map Frame.received).filterMap Received.reply? =
      (frames.filterMap Frame.reply?).map Prod.snd := by
  rw [List.filterMap_map, List.map_filterMap]
  congr 1
  funext frame
  cases frame <;> rfl

namespace Service
variable {recordBytes : LogRecord → ℕ} {s₁ s : Service recordBytes} {as : List Action}
variable {x : SessionId}

theorem Started.reachable {s : Service recordBytes} (started : s.Started) :
    KeeperServer.Reachable s.server := by
  obtain ⟨dir, orders, server, opened, rfl⟩ := started
  exact .started opened

/-- The replies on a socket stand in the order of their turns, no turn twice; and over all sockets
the zxids never go back from one turn to a later one. -/
theorem replies_ordered (started : s₁.Started) (run : Run Step s₁ as s) :
    (∀ x, (((s.socket x).filterMap Frame.reply?).map Prod.fst).Pairwise (· < ·)) ∧
    ∀ x y j k r r', .reply j r ∈ s.socket x → .reply k r' ∈ s.socket y → j ≤ k →
      r.zxid ≤ r'.zxid := by
  obtain ⟨log, explains⟩ := started.explained run
  have consistent := KeeperServer.consistent_of_run started.reachable explains.executes
  have turn (x : SessionId) (j : ℕ) (r : Reply) (mem : .reply j r ∈ s.socket x) :
      (j, r) ∈ answersTo (log.filterMap Executed.handled) x := by
    obtain ⟨missing, -, -, same⟩ := (explains.fifo x).replies
    rw [← same]
    exact List.mem_append_left _ (List.mem_filterMap.mpr ⟨_, mem, rfl⟩)
  refine ⟨fun x => ?_, fun x y j k r r' mem mem' le => ?_⟩
  · obtain ⟨missing, -, -, same⟩ := (explains.fifo x).replies
    have ordered := answersTo_ordered (log.filterMap Executed.handled) x
    rw [← same, List.map_append] at ordered
    exact (List.pairwise_append.mp ordered).1
  · obtain ⟨h, found, -, rfl⟩ := mem_answersTo (turn x j r mem)
    obtain ⟨h', found', -, rfl⟩ := mem_answersTo (turn y k r' mem')
    obtain ⟨less, rfl⟩ := List.getElem?_eq_some_iff.mp found
    obtain ⟨less', rfl⟩ := List.getElem?_eq_some_iff.mp found'
    obtain rfl | later := le.eq_or_lt
    · exact Nat.le_refl _
    · have ordered := List.pairwise_iff_getElem.mp consistent.ordered j k (by simpa using less)
        (by simpa using less') later
      simpa using ordered

theorem replies_ordered_written : ∃ (s : Service fun _ => 1) (r r' : Reply),
    s.socket 1 = [.reply 0 r, .reply 1 r'] ∧ r.zxid ≤ r'.zxid ∧
      (((s.socket 1).filterMap Frame.reply?).map Prod.fst).Pairwise (· < ·) := by
  obtain ⟨as, as', s, s', connects, writes, -, socket, -⟩ := initial_writes
  obtain ⟨turns, zxids⟩ := replies_ordered initial_started (connects.trans writes)
  exact ⟨s', _, _, socket, zxids 1 1 0 1 _ _ (by simp [socket]) (by simp [socket]) (by simp),
    turns 1⟩

/-- A client that knows the opcodes of the requests it has sent, and reads its socket while the
bytes arrive, reads the frames that are whole, and each of them as it was written: the replies to
its requests in their order, and the notifications. -/
theorem client_reads_socket (started : s₁.Started) (run : Run Step s₁ as s) (x : SessionId)
    {opcodes : List OpCode} (sends : List.Forall₂ (fun opcode (request : Int32 × Request) =>
      request.2.Of opcode) opcodes (as.filterMap (Action.request? x)))
    (sound : ∀ frame ∈ s.socket x, frame.received.Sound) (arrived : ℕ) :
    ∃ whole, whole <+: (s.socket x).map Frame.received ∧
      Received.allFromBytes opcodes (written.decodeAll ((written.encodeAll
        (((s.socket x).map Frame.received).map Received.toBytes)).take arrived)).1 = some whole ∧
      ∀ n < (s.socket x).length, (n < whole.length ↔ (written.encodeAll
        ((((s.socket x).map Frame.received).take (n + 1)).map Received.toBytes)).length ≤
          arrived) := by
  obtain ⟨log, explains⟩ := started.explained run
  have consistent := KeeperServer.consistent_of_run started.reachable explains.executes
  obtain ⟨missing, -, -, replies⟩ := (explains.fifo x).replies
  have requests := (explains.fifo x).requests
  rw [← requests] at sends
  have expected : Received.Expected opcodes ((s.socket x).map Frame.received) := by
    have answers := consistent.answers (List.forall₂_take_append _ _ _ sends)
    rw [← replies, List.map_append, ← Frame.reply?_received] at answers
    have written := List.forall₂_take_append _ _ _ answers
    rw [List.take_take] at written
    exact Received.expected_of (List.take_append_drop _ opcodes).symm written
  have received : ∀ r ∈ (s.socket x).map Frame.received, r.Sound := by
    intro r mem
    obtain ⟨frame, there, rfl⟩ := List.mem_map.mp mem
    exact sound frame there
  obtain ⟨whole, initial, read, exactly⟩ := Received.client_reads expected received arrived
  exact ⟨whole, initial, read, fun n less => exactly n (by simpa using less)⟩

/-- The last byte of the second reply has yet to arrive. -/
theorem client_reads_written : ∃ s : Service fun _ => 1, (s.socket 1).length = 2 ∧
    Received.allFromBytes [.create, .set] (written.decodeAll ((written.encodeAll
      (((s.socket 1).map Frame.received).map Received.toBytes)).take 113)).1 =
        some [.reply ⟨7, 2, .ok, .create "/a"⟩] := by
  obtain ⟨as, as', s, s', connects, writes, selects, socket, history⟩ := initial_writes
  have run := connects.trans writes
  have sends : List.Forall₂ (fun opcode (request : Int32 × Request) => request.2.Of opcode)
      [.create, .set] ((as ++ as').filterMap (Action.request? 1)) := by
    obtain ⟨log, explains⟩ := initial_started.explained run
    have requests := (explains.fifo 1).requests
    have turns := explains.history
    rw [history] at turns
    obtain ⟨h, rest, handled, first, others⟩ := List.map_eq_cons_iff.mp turns.symm
    obtain ⟨h', last, second⟩ := List.map_eq_singleton_iff.mp others
    have session : h.session = 1 := congrArg Turn.session first
    have session' : h'.session = 1 := congrArg Turn.session second
    have request : h.request = .create ⟨"/a", [], 0⟩ := congrArg Turn.request first
    have request' : h'.request = .set ⟨"/a", [7], 0⟩ := congrArg Turn.request second
    rw [← requests, handled, last, selects]
    simp [requestsOf, session, session', request, request', Phase.unapplied, Request.Of]
  have sound : ∀ frame ∈ s'.socket 1, frame.received.Sound := by
    intro frame mem
    rw [socket] at mem
    obtain rfl | mem := List.mem_cons.mp mem
    · refine ⟨by decide, ?_, by simp [Frame.received]⟩
      rintro r ⟨⟩
      have short : "/a".utf8ByteSize < 2 ^ 31 := by decide
      exact ⟨⟨by decide, short⟩, by decide⟩
    · obtain rfl := List.mem_singleton.mp mem
      refine ⟨by decide, ?_, by simp [Frame.received]⟩
      rintro r ⟨⟩
      exact ⟨⟨by decide, ⟨by decide, by decide, by decide, by decide, by decide, by decide⟩⟩,
        by decide⟩
  obtain ⟨whole, initial, read, exactly⟩ :=
    client_reads_socket initial_started run 1 sends sound 113
  have first := (exactly 0 (by simp [socket])).mpr (by rw [socket]; decide)
  have second := mt (exactly 1 (by simp [socket])).mp (by rw [socket]; decide)
  have one : whole = [.reply ⟨7, 2, .ok, .create "/a"⟩] := by
    have length : whole.length = 1 := by omega
    rw [List.prefix_iff_eq_take.mp initial, length, socket]
    rfl
  exact ⟨s', by simp [socket], read.trans (congrArg some one)⟩

end Service
end TinyKeeper
