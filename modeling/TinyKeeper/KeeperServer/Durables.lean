import TinyKeeper.KeeperServer.LogFiles

/-! What a crash can leave of the log, and what stays in it whatever becomes of the writes that come
after a sync: the durable records stand in front, in files that no later segment replaces. -/
namespace TinyKeeper
namespace KeeperServer
variable {recordBytes : LogRecord → ℕ}

/-- The index of the last durable record. -/
def lastOf (durable : List LogRecord) : ℕ := (durable.getLast?.map LogRecord.index).getD 0

/-- Each file of the second directory has a first part of what it has in the first. -/
def Shortens (files dir : Segments LogRecord) : Prop :=
  List.Forall₂ (fun e d => d.1 = e.1 ∧ d.2 <+: e.2) files.entries dir.entries

/-- What a start can read of the files after a crash. Nothing that was synced is lost. A file that
has a torn record is not read beyond it; while there is none, only the file that was written to may
have lost its end. -/
structure Survives (durable : List LogRecord) (torn : Bool)
    (w : WalStore (LogRecord.format recordBytes)) (dir : Segments LogRecord) : Prop where
  synced : durable <+: recordsOf (dir.upTo (lastOf durable))
  shorter : Shortens w.segments dir
  whole : torn = false → ∃ left, dir = w.segments.modify w.writer.file (·.take left)

theorem Survives.stored {durable : List LogRecord} {torn : Bool}
    {w : WalStore (LogRecord.format recordBytes)} {dir : Segments LogRecord}
    (h : Survives durable torn w dir) : durable <+: recordsOf dir.entries := by
  rw [dir.entries_eq_upTo_append (lastOf durable), recordsOf_append]
  exact h.synced.trans (List.prefix_append _ _)

section Shortens
variable {files dir : Segments LogRecord}

theorem Shortens.mem (h : Shortens files dir) {d : ℕ × List LogRecord} (mem : d ∈ dir.entries) :
    ∃ e ∈ files.entries, d.1 = e.1 ∧ d.2 <+: e.2 := by
  obtain ⟨i, less, rfl⟩ := List.getElem_of_mem mem
  obtain ⟨same, shorter⟩ := List.forall₂_iff_get.mp h
  exact ⟨_, List.getElem_mem (same ▸ less), shorter i (same ▸ less) less⟩

/-- Also the records of the files up to a name are some of those that were there, in order. -/
theorem Shortens.upTo (h : Shortens files dir) (k : ℕ) :
    (recordsOf (dir.upTo k)).Sublist (recordsOf (files.upTo k)) := by
  unfold Shortens at h
  simp only [BTreeMap.upTo]
  generalize files.entries = es at h ⊢
  generalize dir.entries = ds at h ⊢
  induction h with
  | nil => exact List.Sublist.refl _
  | @cons e d es ds shorter _ ih =>
    obtain ⟨name, front⟩ := shorter
    by_cases low : e.1 ≤ k
    · rw [List.filter_cons_of_pos (by simpa [name] using low),
        List.filter_cons_of_pos (by simpa using low), recordsOf_cons, recordsOf_cons]
      exact front.sublist.append ih
    · rw [List.filter_cons_of_neg (by simpa [name] using low),
        List.filter_cons_of_neg (by simpa using low)]
      exact ih

end Shortens

theorem lastOf_concat (durable : List LogRecord) (r : LogRecord) :
    lastOf (durable ++ [r]) = r.index := by
  rw [lastOf, List.getLast?_concat]
  rfl

/-- The durable records stand in front, in files whose names are not above the last of them. -/
structure Keeps (durable : List LogRecord) (dir : Segments LogRecord) : Prop where
  low : ∃ tail, recordsOf (dir.upTo (lastOf durable)) = durable ++ tail ∧
    ∀ r ∈ tail, lastOf durable ≤ r.index
  high : ∀ e ∈ dir.entries, lastOf durable < e.1 → ∀ r ∈ e.2, lastOf durable ≤ r.index

namespace Keeps
variable {durable : List LogRecord} {dir : Segments LogRecord} {k : ℕ}

theorem nil (dir : Segments LogRecord) : Keeps [] dir :=
  ⟨⟨_, rfl, fun _ _ => Nat.zero_le _⟩, fun _ _ _ _ _ => Nat.zero_le _⟩

theorem stored (h : Keeps durable dir) : durable <+: recordsOf dir.entries := by
  obtain ⟨tail, low, -⟩ := h.low
  rw [dir.entries_eq_upTo_append (lastOf durable), recordsOf_append, low, List.append_assoc]
  exact List.prefix_append _ _

/-- Whole logs: above the last record there are empty files only. -/
theorem of_all (empty : ∀ e ∈ dir.entries, lastOf (recordsOf dir.entries) < e.1 → e.2 = []) :
    Keeps (recordsOf dir.entries) dir := by
  have above :
      recordsOf (dir.entries.filter fun e => lastOf (recordsOf dir.entries) < e.1) = [] := by
    refine List.flatMap_eq_nil_iff.mpr fun e mem => ?_
    obtain ⟨mem, high⟩ := List.mem_filter.mp mem
    exact empty e mem (by simpa using high)
  refine ⟨⟨[], ?_, by simp⟩, fun e mem high r inside => ?_⟩
  · conv_rhs =>
      rw [dir.entries_eq_upTo_append (lastOf (recordsOf dir.entries)), recordsOf_append, above]
    simp
  · rw [empty e mem high] at inside
    cases inside

/-- The last record of the log is not before the last durable one. -/
theorem le_last (h : Keeps durable dir) : lastOf durable ≤ lastOf (recordsOf dir.entries) := by
  obtain ⟨tail, low, late⟩ := h.low
  rw [dir.entries_eq_upTo_append (lastOf durable), recordsOf_append, low, List.append_assoc]
  obtain none | ⟨front, r, e⟩ := List.eq_nil_or_concat'
    (tail ++ recordsOf (dir.entries.filter fun e => lastOf durable < e.1))
  · rw [none, List.append_nil]
  · have mem : r ∈ tail ++ recordsOf (dir.entries.filter fun e => lastOf durable < e.1) := by
      rw [e]
      simp
    have here : lastOf durable ≤ r.index := by
      obtain mem | mem := List.mem_append.mp mem
      · exact late r mem
      · obtain ⟨segment, mem, inside⟩ := List.mem_flatMap.mp mem
        obtain ⟨mem, above⟩ := List.mem_filter.mp mem
        exact h.high segment mem (by simpa using above) r inside
    rw [e, ← List.append_assoc, lastOf_concat]
    exact here

/-- A file that is started or truncated above the durable records. -/
theorem insert (h : Keeps durable dir) (above : lastOf durable < k) :
    Keeps durable (dir.insert k []) := by
  refine ⟨?_, fun e mem => ?_⟩
  · rw [dir.upTo_insert_of_lt [] above]
    exact h.low
  · obtain rfl | ⟨mem, -⟩ := (dir.mem_insert k [] e).mp mem
    · simp
    · exact h.high e mem

/-- A file above the durable records gets others, or loses some. -/
theorem modify_above (h : Keeps durable dir) (above : lastOf durable < k)
    {f : List LogRecord → List LogRecord}
    (late : ∀ data, ∀ r ∈ f data, r ∈ data ∨ lastOf durable ≤ r.index) :
    Keeps durable (dir.modify k f) := by
  refine ⟨?_, fun e mem high r inside => ?_⟩
  · rw [dir.upTo_modify_of_lt f above]
    exact h.low
  · obtain ⟨d, stored, rfl⟩ := List.mem_map.mp mem
    split_ifs at high inside with here
    · obtain inside | late := late d.2 r inside
      · exact h.high d stored high r inside
      · exact late
    · exact h.high d stored high r inside

/-- The last file, which is not above the durable records, gets others behind them. -/
theorem of_last (h : Keeps durable dir) {front : List (ℕ × List LogRecord)}
    {data more : List LogRecord} (entries : dir.entries = front ++ [(k, data)])
    (low : k ≤ lastOf durable) (late : ∀ r ∈ more, lastOf durable ≤ r.index) :
    Keeps durable (dir.modify k (· ++ more)) := by
  have after := dir.entries_modify_last (· ++ more) entries
  have keys (rest : List LogRecord) : ∀ e ∈ front ++ [(k, rest)], e.1 ≤ lastOf durable := by
    intro e mem
    obtain mem | mem := List.mem_append.mp mem
    · exact (dir.key_lt_of_entries_eq entries e mem).le.trans low
    · rw [List.mem_singleton.mp mem]
      exact low
  have all := dir.upTo_eq_entries (entries ▸ keys data)
  have all' := (dir.modify k (· ++ more)).upTo_eq_entries (after ▸ keys (data ++ more))
  obtain ⟨tail, stored, before⟩ := h.low
  rw [all, entries] at stored
  refine ⟨⟨tail ++ more, ?_, ?_⟩, fun e mem high => ?_⟩
  · rw [all', after, ← List.append_assoc, ← stored]
    simp
  · intro r mem
    obtain mem | mem := List.mem_append.mp mem
    · exact before r mem
    · exact late r mem
  · have := keys _ e (after ▸ mem)
    omega

/-- The files lose others behind them. -/
theorem of_shortens {files : Segments LogRecord} (h : Keeps durable files)
    (shorter : Shortens files dir) (synced : durable <+: recordsOf (dir.upTo (lastOf durable))) :
    Keeps durable dir := by
  obtain ⟨tail, stored, late⟩ := h.low
  obtain ⟨left, kept⟩ := synced
  have behind : left.Sublist tail := by
    have sub := shorter.upTo (lastOf durable)
    rw [← kept, stored] at sub
    exact (List.append_sublist_append_left durable).mp sub
  refine ⟨⟨left, kept.symm, fun r mem => late r (behind.subset mem)⟩, fun d mem high r inside => ?_⟩
  obtain ⟨e, there, name, front⟩ := shorter.mem mem
  exact h.high e there (name ▸ high) r (front.subset inside)

end Keeps

/-- The log of a server holds what is durable, and what is written next goes behind it. -/
structure Retains (durable : List LogRecord) (w : WalStore (LogRecord.format recordBytes)) :
    Prop where
  keeps : Keeps durable w.segments
  waiting : ∀ r ∈ w.writer.buf, lastOf durable ≤ r.index
  active : w.writer.file ≤ lastOf durable →
    ∃ front data, w.segments.entries = front ++ [(w.writer.file, data)]

/-- The files that a crash leaves hold what is durable. -/
theorem Retains.survives {durable : List LogRecord} {w : WalStore (LogRecord.format recordBytes)}
    (h : Retains durable w) {torn : Bool} {dir : Segments LogRecord}
    (survives : Survives durable torn w dir) : Keeps durable dir :=
  h.keeps.of_shortens survives.shorter survives.synced

/-- What holds in every state of a server, whatever became of its earlier writes. -/
structure Rests (durable : List LogRecord) (s : KeeperServer recordBytes) : Prop where
  linked : s.storage.Linked
  counted : lastOf durable ≤ s.storage.lastZxid
  retains : Retains durable s.wal

section Rests
variable {durable : List LogRecord} {s s' : KeeperServer recordBytes} {env : Env}
variable {e : ServerEvent} {out : Output}

theorem Rests.of_wal (h : Rests durable s) (wal : s'.wal = s.wal) (linked : s'.storage.Linked)
    (later : s.storage.lastZxid ≤ s'.storage.lastZxid) : Rests durable s' :=
  ⟨linked, h.counted.trans later, wal ▸ h.retains⟩

/-- However the flush of a logged operation ends, what is durable stays. -/
theorem Rests.log (h : Rests durable s) (env : Env) (op : WalOperation) :
    Rests durable (s.log env op).1 := by
  have flushed := s.log_flushed env op
  have buf : (s.wal.append (s.fresh op)).writer.buf = s.wal.writer.buf ++ [s.fresh op] := rfl
  have later : lastOf durable < s.storage.lastZxid + 1 := Nat.lt_succ_of_le h.counted
  have waiting : ∀ r ∈ s.wal.writer.buf ++ [s.fresh op], lastOf durable ≤ r.index := by
    intro r mem
    obtain mem | mem := List.mem_append.mp mem
    · exact h.retains.waiting r mem
    · rw [List.mem_singleton.mp mem]
      exact later.le
  have written : ∀ r ∈ env.flush.reaches (s.wal.writer.buf ++ [s.fresh op]),
      lastOf durable ≤ r.index := fun r mem => waiting r ((env.flush.reaches_prefix _).subset mem)
  -- the write goes behind the durable records, or into a file above them
  have spilled : Keeps durable (s.wal.segments.modify s.wal.writer.file
      (· ++ env.flush.reaches (s.wal.writer.buf ++ [s.fresh op]))) := by
    by_cases low : s.wal.writer.file ≤ lastOf durable
    · obtain ⟨front, data, entries⟩ := h.retains.active low
      exact h.retains.keeps.of_last entries low written
    · refine h.retains.keeps.modify_above (not_le.mp low) fun data r mem => ?_
      exact (List.mem_append.mp mem).imp id (written r)
  have stays (low : s.wal.writer.file ≤ lastOf durable) : ∃ front data,
      (s.wal.segments.modify s.wal.writer.file
        (· ++ env.flush.reaches (s.wal.writer.buf ++ [s.fresh op]))).entries =
        front ++ [(s.wal.writer.file, data)] := by
    obtain ⟨front, data, entries⟩ := h.retains.active low
    exact ⟨front, _, s.wal.segments.entries_modify_last _ entries⟩
  have target : lastOf durable < (s.wal.append (s.fresh op)).lastIndex + 1 :=
    later.trans (Nat.lt_succ_self _)
  refine ⟨h.linked.nextZxid, h.counted.trans (Nat.le_succ _), ?_, ?_, ?_⟩
  · obtain ⟨files, -⟩ | ⟨files, -⟩ := flushed.files
    · rw [files]
      exact spilled
    · rw [files]
      exact spilled.insert target
  · rw [log_buf]
    split_ifs
    · simp
    · exact waiting
  · intro low
    obtain ⟨files, writer⟩ | ⟨-, writer⟩ := flushed.files
    · rw [files, writer]
      exact stays (writer ▸ low)
    · rw [writer] at low
      exact absurd low (not_le.mpr target)

theorem Rests.step (h : Rests durable s) {op : Option WalOperation}
    (move : Transition env s.storage e op out.watchEvents s'.storage)
    (journal : s.Journal env e out op s') : Rests durable s' := by
  have linked := move.linked h.linked
  obtain ⟨-, wal⟩ | ⟨op', -, wal, counted⟩ := journal.wal move
  · exact h.of_wal wal linked move.lastZxid_le
  · refine (h.log env op').of_wal wal linked ?_
    obtain rfl | ⟨-, storage⟩ := counted
    · exact move.lastZxid_logged.ge
    · rw [storage]
      exact le_refl _

theorem Rests.dead (h : Rests durable s) {dead : KeeperServer recordBytes}
    (stopped : (∃ out, s.exec env e = .done out dead) ∨ s.exec env e = .abort dead) :
    Retains durable dead.wal := by
  obtain ⟨out, done⟩ | stops := stopped
  · obtain ⟨op, move, journal⟩ := served_of_done done h.linked
    exact (h.step move journal).retains
  · obtain ⟨xid, id, ops, operations, s₁, error, -, -, failed, rfl⟩ :=
      served_of_abort stops h.linked
    have logged := (h.log env (.multi operations env.now id)).retains
    rw [failed] at logged
    exact logged

theorem open_eq {dir : Segments LogRecord} {front : List (ℕ × List LogRecord)} {k : ℕ}
    {data : List LogRecord} (entries : dir.entries = front ++ [(k, data)]) (max : ℕ) :
    WalStore.open (LogRecord.format recordBytes) dir max =
      .ok ⟨dir, ⟨k, [], (LogRecord.format recordBytes).bytes data⟩, max,
        (data.getLast?.map LogRecord.index).getD 0⟩ := by
  have last : dir.lastKeyValue = some (k, data) := by
    rw [BTreeMap.lastKeyValue, entries, List.getLast?_concat]
  simp only [WalStore.open, last, LogRecord.decodeAll_format]
  rfl

/-- A restart on files that hold what is durable. -/
theorem rests_of_new {dir : Segments LogRecord} {orders : ℕ → HashOrders}
    (keeps : Keeps durable dir) (started : new recordBytes dir orders = .ok s') :
    Rests durable s' := by
  obtain ⟨opened, -, -⟩ := new_eq_ok started
  have linked := Reachable.linked (.started started)
  obtain none | ⟨front, ⟨k, data⟩, entries⟩ := List.eq_nil_or_concat' dir.entries
  · -- a directory without segments
    have stored := keeps.stored
    rw [none, recordsOf_nil, List.prefix_nil] at stored
    subst stored
    have last : dir.lastKeyValue = Option.none := by rw [BTreeMap.lastKeyValue, none]; rfl
    rw [WalStore.open, last] at opened
    have wal := Except.ok.inj opened
    refine ⟨linked, Nat.zero_le _, .nil _, fun _ _ => Nat.zero_le _, fun low => ?_⟩
    have first : s'.wal.writer.file = 1 := by rw [← wal]; rfl
    rw [first] at low
    exact absurd low Nat.one_ne_zero.bot_lt.not_ge
  · rw [open_eq entries] at opened
    have wal := Except.ok.inj opened
    have counter : s'.storage.lastZxid = lastOf (recordsOf dir.entries) := by
      rw [KeeperStorage.lastZxid_replay (new_replays started), recordsIn_eq]
      rfl
    refine ⟨linked, counter ▸ keeps.le_last, ?_, ?_, fun _ => ⟨front, data, ?_⟩⟩
    · rw [← wal]
      exact keeps
    · rw [← wal]
      simp
    · rw [← wal]
      exact entries

end Rests

end KeeperServer
end TinyKeeper
