import TinyKeeper.Changelog.Flush
import TinyKeeper.KeeperServer.Atomic
import TinyKeeper.KeeperServer.Expiry

/-! What a step of the server does to the files of its log, whatever becomes of its flush. -/
namespace TinyKeeper

namespace KeeperStorage
variable {st st' : KeeperStorage}

theorem ReplayStep.lastZxid {timestamp : Int} {sessionId : SessionId}
    {operation : MultiWalOperation} (h : ReplayStep timestamp sessionId st operation st') :
    st'.lastZxid = st.lastZxid := by
  cases h with
  | create done => exact (create_ok_stamped done).2
  | set done => exact (set_ok_stamped done).2
  | delete stored done =>
    rw [disowned_lastZxid]
    exact (delete_ok_stamped done).2

theorem Replays.lastZxid {orders : HashOrders} {op : WalOperation} (h : Replays orders st op st') :
    st'.lastZxid = st.lastZxid := by
  cases h with
  | create done => exact (create_ok_stamped done).2
  | set done => exact (set_ok_stamped done).2
  | delete done => exact (delete_ok_stamped done).2
  | createSession id timeoutMs => rfl
  | closeSession deletes => rw [cleanup_lastZxid (cleanup_of_deletes deletes)]
  | multi path =>
    exact path.invariant (fun t => t.lastZxid = st.lastZxid) rfl
      (fun _ _ _ same last => last.lastZxid.trans same)

/-- A replay resumes the counter at the index of the last record. -/
theorem lastZxid_replay {orders : ℕ → HashOrders} {records : List LogRecord}
    (h : Run (ReplaysRecord orders) st records st') :
    st'.lastZxid = (records.getLast?.map LogRecord.index).getD st.lastZxid := by
  induction h with
  | nil => rfl
  | snoc _ last _ =>
    rw [List.getLast?_concat, Replays.lastZxid last]
    rfl

end KeeperStorage

theorem LogRecord.encodeAll_format (recordBytes : LogRecord → ℕ) (rs : List LogRecord) :
    (format recordBytes).encodeAll rs = rs := by
  induction rs with
  | nil => rfl
  | cons r rs ih =>
    rw [Codec.encodeAll_cons, ih]
    rfl

theorem LogRecord.decodeAll_format (recordBytes : LogRecord → ℕ) (rs : List LogRecord) :
    (format recordBytes).decodeAll rs = (rs, none) := by
  have law := (format_lawful recordBytes).decodeAll_encodeAll rs (fun _ _ => trivial)
  rw [encodeAll_format, List.map_id] at law
  exact law

namespace KeeperServer
variable {recordBytes : LogRecord → ℕ}

/-- A replay reads whatever the files hold. -/
theorem recordsIn_eq (dir : Segments LogRecord) :
    recordsIn recordBytes dir = recordsOf dir.entries := by
  rw [recordsIn]
  induction dir.entries with
  | nil => rfl
  | cons segment rest ih =>
    rw [WalStore.replaySegments, LogRecord.decodeAll_format, recordsOf_cons, ← ih]

variable {s s' : KeeperServer recordBytes} {env : Env}

/-- The record that the next logged operation gets. -/
def fresh (s : KeeperServer recordBytes) (op : WalOperation) : LogRecord :=
  ⟨s.storage.lastZxid + 1, op⟩

theorem log_flushed (s : KeeperServer recordBytes) (env : Env) (op : WalOperation) :
    (s.wal.append (s.fresh op)).Flushed env.flush (s.log env op).1.wal (s.log env op).2 := by
  refine WalStore.flush_flushed ?_ env.flush
  simp [WalStore.append, LogRecord.format]

theorem log_buf (s : KeeperServer recordBytes) (env : Env) (op : WalOperation) :
    (s.log env op).1.wal.writer.buf =
      if env.flush.Passes then [] else s.wal.writer.buf ++ [s.fresh op] :=
  (s.log_flushed env op).buf

/-- The writer is on the last segment, and the next rotation goes behind it. -/
structure Tidy (s : KeeperServer recordBytes) : Prop where
  active : ∃ front data, s.wal.segments.entries = front ++ [(s.wal.writer.file, data)]
  below : s.wal.writer.file ≤ s.storage.lastZxid + 1

theorem initial_tidy : (initial recordBytes).Tidy := ⟨⟨[], [], rfl⟩, le_refl 1⟩

theorem Tidy.of_wal (h : s.Tidy) (wal : s'.wal = s.wal)
    (later : s.storage.lastZxid ≤ s'.storage.lastZxid) : s'.Tidy := by
  refine ⟨wal ▸ h.active, ?_⟩
  have below := h.below
  rw [wal]
  omega

/-- What a logged operation adds to the files. -/
theorem Tidy.log (h : s.Tidy) (env : Env) (op : WalOperation) :
    (s.log env op).1.Tidy ∧ recordsOf (s.log env op).1.wal.segments.entries =
      recordsOf s.wal.segments.entries ++
        env.flush.reaches (s.wal.writer.buf ++ [s.fresh op]) := by
  obtain ⟨front, data, entries⟩ := h.active
  have below := h.below
  have counter : (s.log env op).1.storage.lastZxid = s.storage.lastZxid + 1 := rfl
  have file : (s.wal.append (s.fresh op)).writer.file = s.wal.writer.file := rfl
  have last : (s.wal.append (s.fresh op)).lastIndex = s.storage.lastZxid + 1 := rfl
  have buf : (s.wal.append (s.fresh op)).writer.buf = s.wal.writer.buf ++ [s.fresh op] := rfl
  rcases (s.log_flushed env op).entries entries below with
    ⟨after, same⟩ | ⟨-, started, after⟩
  · rw [file] at after same
    refine ⟨⟨⟨front, _, same ▸ after⟩, ?_⟩, ?_⟩
    · rw [same, counter]
      omega
    · rw [after, entries, buf]
      simp
  · rw [file, last] at after
    rw [last] at started
    refine ⟨⟨⟨_, _, started ▸ after⟩, ?_⟩, ?_⟩
    · rw [started, counter]
    · rw [after, entries, buf]
      simp

/-- The log of a step is that of the server before it, or that of one logged operation. -/
theorem Journal.wal {e : ServerEvent} {out : Output} {op : Option WalOperation}
    (h : s.Journal env e out op s')
    (move : Transition env s.storage e op out.watchEvents s'.storage) :
    (op = none ∧ s'.wal = s.wal) ∨
    ∃ op', Appends env s.storage e op' ∧ s'.wal = (s.log env op').1.wal ∧
      (op = some op' ∨ (op = none ∧ s'.storage = s.storage.nextZxid)) := by
  cases h with
  | quiet wal unsaid calm => exact .inl ⟨rfl, wal⟩
  | @flushed op s₁ _ done wal calm =>
    rw [wal]
    exact .inr ⟨op, ⟨_, _, move⟩, by rw [done], .inl rfl⟩
  | @refused op error _ submits appends failed told =>
    have storage := s.log_storage env op
    rw [failed] at storage
    exact .inr ⟨op, appends, by rw [failed], .inr ⟨rfl, storage⟩⟩
  | @ignored op _ session wal => exact .inr ⟨op, ⟨_, _, move⟩, wal, .inl rfl⟩

theorem Tidy.step (h : s.Tidy) {e : ServerEvent} {out : Output} {op : Option WalOperation}
    (move : Transition env s.storage e op out.watchEvents s'.storage)
    (journal : s.Journal env e out op s') : s'.Tidy := by
  obtain ⟨-, wal⟩ | ⟨op', -, wal, counted⟩ := journal.wal move
  · exact h.of_wal wal move.lastZxid_le
  · refine (h.log env op').1.of_wal wal ?_
    have counter : (s.log env op').1.storage.lastZxid = s.storage.lastZxid + 1 := rfl
    obtain rfl | ⟨-, storage⟩ := counted
    · rw [move.lastZxid_logged, counter]
    · rw [storage, counter]
      rfl

end KeeperServer
end TinyKeeper
