import TinyKeeper.KeeperServer.Durables

/-! What is on disk when the server answers, over runs in which any flush may fail and the server
may die in any step. -/
namespace TinyKeeper

/-- The write leaves the log torn, or with a gap: a part of the buffer is in the file, or a rest of
it is lost. -/
def FlushIo.tears : FlushIo → Bool
  | .writeFails (_ + 1) | .writeLost _ _ => true
  | _ => false

theorem FlushIo.reported_of_tears {io : FlushIo} (calm : io.tears = false) : io.Reported := by
  cases io with
  | writeLost n creates => cases calm
  | _ => trivial

/-- The answers that promise that a change is durable. -/
def Succeeds (e : ServerEvent) (out : Output) : Prop :=
  Acknowledges e out ∨ ((∃ xid id, e = .handle xid id .close) ∧ out.err = some .ok)

namespace KeeperServer
variable {recordBytes : LogRecord → ℕ}

/-- A server that counts more bytes in its last file than it could read. -/
def counting (s : KeeperServer recordBytes) (unread : ℕ) : KeeperServer recordBytes where
  storage := s.storage
  wal := { s.wal with
    writer := { s.wal.writer with bytesWritten := s.wal.writer.bytesWritten + unread } }

/-- A server with the records that every later recovery is sure to read: those that were synced
before a failed write left a torn record or a gap in the log. -/
structure Ledger (recordBytes : LogRecord → ℕ) where
  server : KeeperServer recordBytes
  durable : List LogRecord
  torn : Bool

/-- What happens to a server: it serves a step, or dies in one and is restarted on the directory
that is left. -/
inductive Incident
  | serve (env : Env) (e : ServerEvent) (out : Output)
  | crash (env : Env) (e : ServerEvent) (dir : Segments LogRecord) (orders : ℕ → HashOrders)

namespace Ledger
variable {l l' : Ledger recordBytes} {env : Env} {e : ServerEvent} {out : Output}

def initial (recordBytes : LogRecord → ℕ) : Ledger recordBytes :=
  ⟨.initial recordBytes, [], false⟩

inductive Step (l : Ledger recordBytes) : Incident → Ledger recordBytes → Prop
  | untouched {env : Env} {e : ServerEvent} {out : Output} {s' : KeeperServer recordBytes}
      (done : l.server.exec env e = .done out s') (wal : s'.wal = l.server.wal) :
      Step l (.serve env e out) ⟨s', l.durable, l.torn⟩
  /-- The sync covers all that is in the last file. -/
  | logged {env : Env} {e : ServerEvent} {out : Output} {op : WalOperation}
      {s' : KeeperServer recordBytes} (done : l.server.exec env e = .done out s')
      (appends : Appends env l.server.storage e op) (wal : s'.wal = (l.server.log env op).1.wal) :
      Step l (.serve env e out)
        ⟨s', if env.flush.Syncs ∧ l.torn = false then recordsOf s'.wal.segments.entries
          else l.durable, l.torn || env.flush.tears⟩
  /-- What stands behind a torn record is counted by the next start, and not read. -/
  | crashed {env : Env} {e : ServerEvent} {dead s' : KeeperServer recordBytes}
      {dir : Segments LogRecord} {orders : ℕ → HashOrders} {torn : Bool} {unread : ℕ}
      (stopped : (∃ out, l.server.exec env e = .done out dead) ∨
        l.server.exec env e = .abort dead)
      (survives : Survives l.durable torn dead.wal dir)
      (started : new recordBytes dir orders = .ok s')
      (more : l.torn = true ∨ (dead.wal ≠ l.server.wal ∧ env.flush.tears = true) → torn = true)
      (read : torn = false → unread = 0) :
      Step l (.crash env e dir orders) ⟨s'.counting unread, l.durable, torn⟩

/-- The step does not run into one of the four gaps: a close that is not logged, a handshake
whose flush fails, a write that is lost behind calls that return `Ok`, and a record behind a torn
one. -/
structure Careful (l : Ledger recordBytes) (env : Env) (e : ServerEvent) : Prop where
  close : ∀ xid id, e = .handle xid id .close →
    ¬ l.server.storage.sessionState.IsOpen id ∧
      l.server.storage.sessionState.ephemerals.get id = none
  handshake : ∀ timeoutMs, e = .createSession timeoutMs → env.flush.Passes
  written : (∃ op, Appends env l.server.storage e op) → env.flush.Reported
  whole : (∀ id, e ≠ .closeSession id) → (∃ op, Appends env l.server.storage e op) →
    env.flush.Syncs → l.torn = false

end Ledger

/-- The directory part of the invariant: every record of the last file is at or behind the index
in its name, and that name is at most the index after the last record before it. -/
structure Anchored (front : List (ℕ × List LogRecord)) (file : ℕ) (data : List LogRecord) :
    Prop where
  behind : ∀ r ∈ data, file ≤ r.index
  next : file ≤ ((recordsOf front).getLast?.map LogRecord.index).getD 0 + 1

theorem Anchored.sub {front : List (ℕ × List LogRecord)} {file : ℕ} {data data' : List LogRecord}
    (h : Anchored front file data) (pre : data' <+: data) : Anchored front file data' :=
  ⟨fun r mem => h.behind r (pre.subset mem), h.next⟩

/-- The last record of the log is not before the index in the name of the last file. -/
theorem Anchored.le_last {front : List (ℕ × List LogRecord)} {file : ℕ} {data : List LogRecord}
    (h : Anchored front file data) :
    file ≤ ((recordsOf (front ++ [(file, data)])).getLast?.map LogRecord.index).getD 0 + 1 ∧
      (data.getLast?.map LogRecord.index).getD 0 ≤
        ((recordsOf (front ++ [(file, data)])).getLast?.map LogRecord.index).getD 0 := by
  rw [recordsOf_append, recordsOf_cons, recordsOf_nil, List.append_nil]
  obtain rfl | ⟨data, r, rfl⟩ := List.eq_nil_or_concat' data
  · rw [List.append_nil]
    exact ⟨h.next, Nat.zero_le _⟩
  · have here := h.behind r (by simp)
    rw [← List.append_assoc, List.getLast?_concat, List.getLast?_concat]
    exact ⟨here.trans (Nat.le_succ _), le_refl _⟩

variable {s s' : KeeperServer recordBytes} {env : Env} {e : ServerEvent} {out : Output}

/-- What holds in every state of a server while its log is neither torn nor has a gap. -/
structure Sturdy (s : KeeperServer recordBytes) : Prop where
  linked : s.storage.Linked
  tidy : s.Tidy
  counted : s.wal.lastIndex ≤ s.storage.lastZxid
  anchored : ∀ front data, s.wal.segments.entries = front ++ [(s.wal.writer.file, data)] →
    Anchored front s.wal.writer.file data
  waiting : ∀ r ∈ s.wal.writer.buf, s.wal.writer.file ≤ r.index

theorem initial_sturdy : (initial recordBytes).Sturdy := by
  have none : (initial recordBytes).wal.writer.buf = [] := rfl
  refine ⟨KeeperStorage.new_linked 500, initial_tidy, Nat.zero_le _, ?_, by simp [none]⟩
  intro front data entries
  have only : (initial recordBytes).wal.segments.entries = [] ++ [(1, [])] := rfl
  obtain ⟨rfl, last⟩ := List.append_singleton_inj.mp (entries.symm.trans only)
  cases last
  exact ⟨by simp, le_refl 1⟩

theorem Sturdy.of_wal (h : s.Sturdy) (wal : s'.wal = s.wal) (linked : s'.storage.Linked)
    (later : s.storage.lastZxid ≤ s'.storage.lastZxid) : s'.Sturdy := by
  refine ⟨linked, h.tidy.of_wal wal later, ?_, wal ▸ h.anchored, wal ▸ h.waiting⟩
  rw [wal]
  exact h.counted.trans later

/-- Unless the flush of a logged operation tears the log, the files stay in order. -/
theorem Sturdy.log (h : s.Sturdy) {env : Env} (calm : env.flush.tears = false)
    (op : WalOperation) : (s.log env op).1.Sturdy := by
  have flushed := s.log_flushed env op
  have counter : (s.log env op).1.storage.lastZxid = s.storage.lastZxid + 1 := rfl
  have file : (s.wal.append (s.fresh op)).writer.file = s.wal.writer.file := rfl
  have last : (s.wal.append (s.fresh op)).lastIndex = s.storage.lastZxid + 1 := rfl
  have buf : (s.wal.append (s.fresh op)).writer.buf = s.wal.writer.buf ++ [s.fresh op] := rfl
  obtain ⟨front, data, entries⟩ := h.tidy.active
  have anchored := h.anchored front data entries
  have waiting : ∀ r ∈ s.wal.writer.buf ++ [s.fresh op], s.wal.writer.file ≤ r.index := by
    intro r mem
    obtain mem | mem := List.mem_append.mp mem
    · exact h.waiting r mem
    · rw [List.mem_singleton.mp mem]
      exact h.tidy.below
  refine ⟨h.linked.nextZxid, (h.tidy.log env op).1, ?_, ?_, ?_⟩
  · rw [flushed.lastIndex, last, counter]
  · intro front' data' entries'
    obtain ⟨after, same⟩ | ⟨passes, started, after⟩ := flushed.entries entries h.tidy.below
    · rw [same, file] at entries' ⊢
      rw [after, file, buf] at entries'
      obtain ⟨rfl, segment⟩ := List.append_singleton_inj.mp entries'
      cases segment
      refine ⟨fun r mem => ?_, anchored.next⟩
      obtain mem | mem := List.mem_append.mp mem
      · exact anchored.behind r mem
      · exact waiting r ((env.flush.reaches_prefix _).subset mem)
    · rw [started, last] at entries' ⊢
      rw [after, last] at entries'
      obtain ⟨rfl, segment⟩ := List.append_singleton_inj.mp entries'
      cases segment
      refine ⟨by simp, ?_⟩
      rw [(passes.syncs (FlushIo.reported_of_tears calm)).reaches, buf, recordsOf_append,
        recordsOf_cons, recordsOf_nil, List.append_nil, ← List.append_assoc, ← List.append_assoc,
        List.getLast?_concat]
      exact le_refl _
  · rw [log_buf]
    split_ifs with passes
    · simp
    · intro r mem
      obtain ⟨-, same⟩ | ⟨done, -⟩ := flushed.entries entries h.tidy.below
      · rw [same]
        exact waiting r mem
      · exact absurd done passes

theorem Sturdy.step (h : s.Sturdy) {op : Option WalOperation}
    (move : Transition env s.storage e op out.watchEvents s'.storage)
    (journal : s.Journal env e out op s') (calm : s'.wal = s.wal ∨ env.flush.tears = false) :
    s'.Sturdy := by
  have linked := move.linked h.linked
  obtain same | calm := calm
  · exact h.of_wal same linked move.lastZxid_le
  obtain ⟨-, wal⟩ | ⟨op', -, wal, counted⟩ := journal.wal move
  · exact h.of_wal wal linked move.lastZxid_le
  · refine (h.log calm op').of_wal wal linked ?_
    obtain rfl | ⟨-, storage⟩ := counted
    · exact move.lastZxid_logged.ge
    · rw [storage]
      exact le_refl _

/-- Unless a torn write was the last thing the server did, its files are in order when it dies. -/
theorem Sturdy.dead (h : s.Sturdy) {dead : KeeperServer recordBytes}
    (stopped : (∃ out, s.exec env e = .done out dead) ∨ s.exec env e = .abort dead)
    (calm : dead.wal = s.wal ∨ env.flush.tears = false) : ∃ front data,
      dead.wal.segments.entries = front ++ [(dead.wal.writer.file, data)] ∧
        Anchored front dead.wal.writer.file data := by
  have anchored {t : KeeperServer recordBytes} (sturdy : t.Sturdy) : ∃ front data,
      t.wal.segments.entries = front ++ [(t.wal.writer.file, data)] ∧
        Anchored front t.wal.writer.file data := by
    obtain ⟨front, data, entries⟩ := sturdy.tidy.active
    exact ⟨front, data, entries, sturdy.anchored front data entries⟩
  obtain ⟨out, done⟩ | stops := stopped
  · obtain ⟨op, move, journal⟩ := served_of_done done h.linked
    exact anchored (h.step move journal calm)
  · obtain ⟨xid, id, ops, operations, s₁, error, -, -, failed, rfl⟩ :=
      served_of_abort stops h.linked
    obtain same | calm := calm
    · rw [same]
      exact anchored h
    · have logged := anchored (h.log calm (.multi operations env.now id))
      rw [failed] at logged
      exact logged

theorem Rests.counting {durable : List LogRecord} (h : Rests durable s) (unread : ℕ) :
    Rests durable (s.counting unread) :=
  ⟨h.linked, h.counted, h.retains.keeps, h.retains.waiting, h.retains.active⟩

/-- A restart on what a crash left. -/
theorem sturdy_of_new {w : WalStore (LogRecord.format recordBytes)} {durable : List LogRecord}
    {dir : Segments LogRecord} {orders : ℕ → HashOrders}
    (anchored : ∃ front data, w.segments.entries = front ++ [(w.writer.file, data)] ∧
      Anchored front w.writer.file data)
    (survives : Survives durable false w dir) (started : new recordBytes dir orders = .ok s') :
    s'.Sturdy := by
  obtain ⟨front, data, before, anchored⟩ := anchored
  obtain ⟨n, cut⟩ := survives.whole rfl
  have after : dir.entries = front ++ [(w.writer.file, data.take n)] := by
    rw [cut, w.segments.entries_modify_last (·.take n) before]
  have left := anchored.sub (List.take_prefix n data)
  obtain ⟨opened, -, -⟩ := new_eq_ok started
  rw [open_eq after] at opened
  have wal := Except.ok.inj opened
  have counter : s'.storage.lastZxid =
      ((recordsOf (front ++ [(w.writer.file, data.take n)])).getLast?.map LogRecord.index).getD
        0 := by
    rw [KeeperStorage.lastZxid_replay (new_replays started), recordsIn_eq, after]
    rfl
  obtain ⟨below, counted⟩ := left.le_last
  have segments : s'.wal.segments = dir := by rw [← wal]
  have writer : s'.wal.writer.file = w.writer.file := by rw [← wal]
  have buf : s'.wal.writer.buf = [] := by rw [← wal]
  have last : s'.wal.lastIndex = ((data.take n).getLast?.map LogRecord.index).getD 0 := by
    rw [← wal]
  refine ⟨Reachable.linked (.started started), ⟨⟨front, data.take n, ?_⟩, ?_⟩, ?_, ?_, ?_⟩
  · rw [segments, writer, after]
  · rw [writer, counter]
    exact below
  · rw [last, counter]
    exact counted
  · intro front' data'' entries
    rw [segments, writer, after] at entries
    obtain ⟨rfl, segment⟩ := List.append_singleton_inj.mp entries
    cases segment
    rw [writer]
    exact left
  · simp [buf]

namespace Ledger
variable {l l' : Ledger recordBytes}

/-- The invariant of a ledger: what is durable is in the files, and they are in order while no write
has torn the log. -/
structure Sound (l : Ledger recordBytes) : Prop where
  rests : Rests l.durable l.server
  sturdy : l.torn = false → l.server.Sturdy

theorem initial_sound : (initial recordBytes).Sound := by
  have first : (initial recordBytes).server.wal.writer.file = 1 := rfl
  refine ⟨⟨initial_sturdy.linked, Nat.zero_le _, .nil _, fun _ _ => Nat.zero_le _, fun low => ?_⟩,
    fun _ => initial_sturdy⟩
  rw [first] at low
  exact absurd low Nat.one_ne_zero.bot_lt.not_ge

/-- A sync makes the whole log durable. -/
theorem rests_of_synced (h : s.Sturdy) (linked : s'.storage.Linked) {op : WalOperation}
    (wal : s'.wal = (s.log env op).1.wal) (synced : env.flush.Syncs)
    (later : s.storage.lastZxid < s'.storage.lastZxid) :
    Rests (recordsOf s'.wal.segments.entries) s' := by
  have flushed := s.log_flushed env op
  have buf : (s.wal.append (s.fresh op)).writer.buf = s.wal.writer.buf ++ [s.fresh op] := rfl
  obtain ⟨front, data, entries⟩ := h.tidy.active
  have below : s.wal.writer.file ≤ s.storage.lastZxid + 1 := h.tidy.below
  have keys := s.wal.segments.key_lt_of_entries_eq entries
  have records := (h.tidy.log env op).2
  rw [synced.reaches] at records
  have last : lastOf (recordsOf s'.wal.segments.entries) = s.storage.lastZxid + 1 := by
    rw [wal, records, ← List.append_assoc, lastOf_concat]
    rfl
  have empty : s'.wal.writer.buf = [] := by rw [wal, log_buf, if_pos synced.passes]
  refine ⟨linked, last ▸ later, .of_all fun e mem high => ?_, by simp [empty], fun _ => ?_⟩
  · -- only the segment that a rotation started is above the new record
    have old : ∀ e ∈ front ++ [(s.wal.writer.file, data ++ env.flush.reaches
        (s.wal.append (s.fresh op)).writer.buf)], e.1 ≤ s.storage.lastZxid + 1 := by
      intro e mem
      obtain mem | mem := List.mem_append.mp mem
      · exact (keys e mem).le.trans below
      · rw [List.mem_singleton.mp mem]
        exact below
    rw [last] at high
    rw [wal] at mem
    obtain ⟨after, -⟩ | ⟨-, -, after⟩ := flushed.entries entries below
    · rw [after] at mem
      exact absurd (old e mem) high.not_ge
    · rw [after] at mem
      obtain mem | mem := List.mem_append.mp mem
      · exact absurd (old e mem) high.not_ge
      · rw [List.mem_singleton.mp mem]
  · obtain ⟨front, data, entries⟩ := (h.tidy.log env op).1.active
    exact ⟨front, data, wal ▸ entries⟩

theorem wal_ne_of_logged (h : s.Sturdy) (env : Env) (op : WalOperation) :
    (s.log env op).1.wal ≠ s.wal := by
  intro same
  have counted := h.counted
  have last : (s.log env op).1.wal.lastIndex = s.storage.lastZxid + 1 :=
    (s.log_flushed env op).lastIndex
  rw [same] at last
  omega

/-- What is durable stays durable. -/
theorem Sound.step (h : l.Sound) {i : Incident} (last : l.Step i l') :
    l'.Sound ∧ l.durable <+: l'.durable := by
  cases last with
  | untouched done wal =>
    obtain ⟨op, move, journal⟩ := served_of_done done h.rests.linked
    exact ⟨⟨h.rests.step move journal, fun whole => (h.sturdy whole).step move journal (.inl wal)⟩,
      List.prefix_refl _⟩
  | @logged env e out op s' done appends wal =>
    obtain ⟨op', move, journal⟩ := served_of_done done h.rests.linked
    have rests := h.rests.step move journal
    refine ⟨⟨?_, fun whole => ?_⟩, ?_⟩
    · simp only
      split_ifs with synced
      · have sturdy := h.sturdy synced.2
        refine rests_of_synced sturdy rests.linked wal synced.1 ?_
        obtain ⟨-, same⟩ | ⟨op'', -, -, counted⟩ := journal.wal move
        · exact absurd (wal ▸ same) (wal_ne_of_logged sturdy env op)
        · obtain rfl | ⟨-, storage⟩ := counted
          · rw [move.lastZxid_logged]
            exact Nat.lt_succ_self _
          · rw [storage]
            exact Nat.lt_succ_self _
      · exact rests
    · obtain ⟨whole, calm⟩ := Bool.or_eq_false_iff.mp whole
      exact (h.sturdy whole).step move journal (.inr calm)
    · simp only
      split_ifs
      · exact rests.retains.keeps.stored
      · exact List.prefix_refl _
  | @crashed env e dead s' dir orders torn unread stopped survives started more read =>
    have rests := rests_of_new ((h.rests.dead stopped).survives survives) started
    refine ⟨⟨rests.counting unread, fun whole => ?_⟩, List.prefix_refl _⟩
    obtain rfl : torn = false := whole
    obtain rfl : unread = 0 := read rfl
    obtain ⟨untorn, same⟩ := not_or.mp (mt more Bool.false_ne_true)
    refine sturdy_of_new ((h.sturdy (Bool.eq_false_of_not_eq_true untorn)).dead stopped ?_)
      survives started
    by_cases wal : dead.wal = l.server.wal
    · exact .inl wal
    · exact .inr (Bool.eq_false_of_not_eq_true fun tears => same ⟨wal, tears⟩)

theorem Step.done (h : l.Step (.serve env e out) l') :
    l.server.exec env e = .done out l'.server := by
  cases h with
  | untouched done wal => exact done
  | logged done appends wal => exact done

/-- After a sync the record of the step is durable. -/
theorem Step.durable (h : l.Step (.serve env e out) l') (sturdy : l.server.Sturdy)
    {op : WalOperation}
    (wal : l'.server.wal = (l.server.log env op).1.wal) (synced : env.flush.Syncs)
    (whole : l.torn = false) : l.server.fresh op ∈ l'.durable := by
  cases h with
  | untouched done same => exact absurd (wal.symm.trans same) (wal_ne_of_logged sturdy env op)
  | logged done appends same =>
    obtain ⟨-, records⟩ := sturdy.tidy.log env op
    rw [synced.reaches] at records
    simp only [if_pos (And.intro synced whole)]
    rw [wal, records]
    simp

theorem sound_of_run {is : List Incident} (run : Run Step (initial recordBytes) is l) : l.Sound :=
  run.invariant Sound initial_sound (fun _ _ _ h last => (h.step last).1)

theorem durable_of_run (h : l.Sound) {is : List Incident} (run : Run Step l is l') :
    l'.Sound ∧ l.durable <+: l'.durable := by
  refine run.invariant (fun t => t.Sound ∧ l.durable <+: t.durable) ⟨h, List.prefix_refl _⟩ ?_
  rintro t i u ⟨sound, grown⟩ last
  obtain ⟨sound', more⟩ := sound.step last
  exact ⟨sound', grown.trans more⟩

end Ledger

theorem not_acknowledged_of_systemError {now : Int} {op : WalOperation}
    (submits : e.submits now = some op) (told : out.err = some .systemError) :
    ¬ Acknowledges e out := by
  intro said
  cases out with
  | applied result =>
    have code : result.response.err = .systemError := Option.some.inj told
    unfold ServerEvent.submits at submits
    split at submits
    · exact absurd (code.symm.trans said) (by decide)
    · exact absurd (code.symm.trans said) (by decide)
    · exact absurd (code.symm.trans said) (by decide)
    · cases submits
  | _ => cases told

/-- The flush of a step that is acknowledged returned `Ok`, unless it is a handshake. -/
theorem passes_of_acknowledged {op : Option WalOperation} (journal : s.Journal env e out op s')
    (said : Acknowledges e out) (handshake : ∀ timeoutMs, e = .createSession timeoutMs →
      env.flush.Passes) :
    env.flush.Passes ∧ ∃ op', op = some op' ∧ s'.wal = (s.log env op').1.wal := by
  cases journal with
  | quiet wal unsaid calm => exact absurd said unsaid
  | @flushed op' s₁ _ done wal calm =>
    have flushed := s.log_flushed env op'
    rw [done] at flushed
    exact ⟨flushed.passes_of_ok, op', rfl, by rw [wal, done]⟩
  | refused submits appends failed told =>
    exact absurd said (not_acknowledged_of_systemError submits told)
  | @ignored op' _ session wal =>
    obtain ⟨timeoutMs, rfl⟩ | ⟨id, rfl⟩ := session
    · exact ⟨handshake timeoutMs rfl, op', rfl, wal⟩
    · exact absurd said (fun said => said)

/-- The close of a session that is neither open nor has nodes changes nothing that is durable. -/
theorem durable_close {xid : Int32} {id : SessionId}
    (done : s.exec env (.handle xid id .close) = .done out s')
    (closed : ¬ s.storage.sessionState.IsOpen id)
    (none : s.storage.sessionState.ephemerals.get id = none) :
    s'.storage.durable = s.storage.durable := by
  have ended : endSession s.storage env.orders id =
      .ok { s.storage with sessionState := s.storage.sessionState.without id } := by
    rw [endSession, SessionState.closeSession, none]
    rfl
  obtain ⟨r, -, handled⟩ := exec_handle done
  obtain ⟨st, ended', rfl⟩ := handle_close handled
  cases ended.symm.trans ended'
  have sessions : s.storage.sessionState.sessionAndTimeout.get id = Option.none :=
    Option.eq_none_iff_forall_ne_some.mpr fun timeoutMs here => closed ⟨timeoutMs, here⟩
  exact KeeperStorage.Durable.ext rfl rfl (Table.remove_of_get_none _ _ sessions)
    (Table.remove_of_get_none _ _ none)

/-- Whenever a careful step answers success for something that changes what is durable, the record
of that change is on disk when the answer is given. It stays in the files, and every later recovery
reads it. -/
theorem acknowledged_on_disk {before after : List Incident} {l₀ l₁ l : Ledger recordBytes}
    (past : Run Ledger.Step (.initial recordBytes) before l₀)
    (step : l₀.Step (.serve env e out) l₁) (careful : l₀.Careful env e)
    (future : Run Ledger.Step l₁ after l) (said : Succeeds e out)
    (changed : l₁.server.storage.durable ≠ l₀.server.storage.durable) :
    ∃ op events, Transition env l₀.server.storage e (some op) events l₁.server.storage ∧
      l₀.server.fresh op ∈ l₁.durable ∧
      l₀.server.fresh op ∈ recordsIn recordBytes l.server.wal.segments ∧
      ∀ torn (w : WalStore (LogRecord.format recordBytes)) dir, Survives l.durable torn w dir →
        l₀.server.fresh op ∈ recordsIn recordBytes dir := by
  have sound := Ledger.sound_of_run past
  obtain ⟨sound₁, -⟩ := sound.step step
  obtain ⟨later, grown⟩ := Ledger.durable_of_run sound₁ future
  suffices kept : ∃ op events,
      Transition env l₀.server.storage e (some op) events l₁.server.storage ∧
        l₀.server.fresh op ∈ l₁.durable by
    obtain ⟨op, events, move, mem⟩ := kept
    have stays := grown.subset mem
    refine ⟨op, events, move, mem, ?_, fun torn w dir survives => ?_⟩
    · rw [recordsIn_eq]
      exact later.rests.retains.keeps.stored.subset stays
    · rw [recordsIn_eq]
      exact survives.stored.subset stays
  have done := step.done
  obtain said | ⟨⟨xid, id, rfl⟩, -⟩ := said
  · obtain ⟨op, move, journal⟩ := served_of_done done sound.rests.linked
    obtain ⟨passes, op, rfl, wal⟩ := passes_of_acknowledged journal said careful.handshake
    have synced := passes.syncs (careful.written ⟨op, _, _, move⟩)
    have answered : ∀ id, e ≠ .closeSession id := by
      rintro id rfl
      exact said
    have whole := careful.whole answered ⟨op, _, _, move⟩ synced
    exact ⟨op, _, move, step.durable (sound.sturdy whole) wal synced whole⟩
  · obtain ⟨closed, none⟩ := careful.close xid id rfl
    exact absurd (durable_close done closed none) changed

/-- A session whose record was flushed is there after a crash. -/
theorem acknowledged_on_disk_opened :
    ∃ l : Ledger (fun _ => 1), ∀ torn (w : WalStore (LogRecord.format fun _ => 1)) dir,
      Survives l.durable torn w dir → ⟨1, .createSession 1 5000⟩ ∈ recordsIn (fun _ => 1) dir := by
  let opened := (initial fun _ => 1).next (.working 0, .createSession 5000)
  have done : (initial fun _ => 1).exec (.working 0) (.createSession 5000) =
      .done (.session 1) opened := rfl
  have step : (Ledger.initial fun _ => 1).Step
      (.serve (.working 0) (.createSession 5000) (.session 1)) _ :=
    .logged done ⟨_, _, .createSession 5000⟩ rfl
  have careful : (Ledger.initial fun _ => 1).Careful (.working 0) (.createSession 5000) := by
    refine ⟨?_, fun _ _ => trivial, fun _ => trivial, fun _ _ _ => rfl⟩
    rintro xid id ⟨⟩
  have changed : opened.storage.durable ≠ (initial fun _ => 1).storage.durable := by
    intro same
    exact absurd (congrArg KeeperStorage.Durable.lastZxid same) (by decide)
  obtain ⟨op, events, move, -, -, recovered⟩ :=
    acknowledged_on_disk .nil step careful .nil (.inl trivial) changed
  cases move with
  | createSession => exact ⟨_, recovered⟩

/-- A session id is returned although its record was not synced. -/
theorem unsynced_session_returned :
    ¬ ∀ before (l₀ l₁ : Ledger (fun _ => 1)) env e out, Run Ledger.Step (.initial _) before l₀ →
      l₀.Step (.serve env e out) l₁ → Succeeds e out →
      l₁.server.storage.durable ≠ l₀.server.storage.durable →
      ∃ op events, Transition env l₀.server.storage e (some op) events l₁.server.storage ∧
        l₀.server.fresh op ∈ l₁.durable := by
  intro all
  let env : Env := ⟨0, .syncFails, ⟨.choice, .choice, .choice⟩⟩
  let opened := ((initial fun _ => 1).createSession env 5000).2
  have done : (initial fun _ => 1).exec env (.createSession 5000) = .done (.session 1) opened := rfl
  have step : (Ledger.initial fun _ => 1).Step (.serve env (.createSession 5000) (.session 1)) _ :=
    .logged done ⟨_, _, .createSession 5000⟩ rfl
  have changed : opened.storage.durable ≠ (initial fun _ => 1).storage.durable := by
    intro same
    exact absurd (congrArg KeeperStorage.Durable.lastZxid same) (by decide)
  obtain ⟨op, events, -, mem⟩ := all [] _ _ _ _ _ .nil step (.inl trivial) changed
  have unsynced : ¬ (env.flush.Syncs ∧ (Ledger.initial fun _ => 1).torn = false) := by
    rintro ⟨synced | synced, -⟩ <;> cases synced
  simp only [if_neg unsynced] at mem
  cases mem

end KeeperServer
end TinyKeeper
