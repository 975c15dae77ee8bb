import TinyKeeper.Changelog.Retry
import TinyKeeper.KeeperServer.LogBytes
import TinyKeeper.KeeperServer.LogFiles

/-! A crash in the middle of a write, down to the byte: what a restart finds is what was durable
before the step or after it, for a batch as for a single operation. -/
namespace TinyKeeper

namespace WalStore
variable {recordBytes : LogRecord → ℕ} {w : WalStore (LogRecord.format recordBytes)}
  {records records' : List LogRecord}

theorem Settled.unique (h : Settled w records) (h' : Settled w records') : records = records' := by
  have law := LogRecord.format_lawful recordBytes
  have read := h.replay law fun _ _ => trivial
  rw [h'.replay law fun _ _ => trivial, List.map_id, List.map_id] at read
  exact (congrArg Prod.fst read).symm

/-- The files of a settled log, with the last one apart. -/
theorem Settled.files (h : Settled w records) : ∃ front data,
    w.segments.entries = front ++ [(w.writer.file, data)] ∧ recordsOf front ++ data = records ∧
      w.writer.buf = [] := by
  obtain ⟨segs, behind, -, rfl⟩ := h
  obtain ⟨done, rs, split⟩ := behind.active
  have same (segs : List (ℕ × List LogRecord)) :
      segs.map (fun seg => (seg.1, (LogRecord.format recordBytes).encodeAll seg.2)) = segs := by
    simp [LogRecord.encodeAll_format]
  have entries := behind.entries
  rw [List.nil_append, LogFormat.layout_nil_base, same] at entries
  exact ⟨done, rs, entries.trans split, by simp [split], behind.flushed⟩

theorem Settled.stored (h : Settled w records) : recordsOf w.segments.entries = records := by
  obtain ⟨front, data, entries, all, -⟩ := h.files
  rw [entries, recordsOf_append, ← all]
  simp

/-- The files of a settled log are numbered by indices of records, or start the log. -/
theorem Settled.small (h : Settled w records) (small : ∀ r ∈ records, r.index < 2 ^ 63) :
    ∀ e ∈ w.segments.entries, e.1 < 2 ^ 64 := by
  obtain ⟨segs, behind, head, rfl⟩ := h
  intro e mem
  rw [behind.entries, List.nil_append, LogFormat.layout_nil_base] at mem
  obtain ⟨seg, here, rfl⟩ := List.mem_map.mp mem
  obtain ⟨d, rest, split⟩ := List.append_of_mem here
  have pre : d ++ [seg] <+: segs := ⟨rest, by simp [split]⟩
  by_cases first : d = []
  · rw [split, first] at head
    have one : seg.1 = 1 := Option.some.inj head
    rw [one]
    decide
  · obtain ⟨ne, named⟩ := behind.keyed d seg pre first
    obtain ⟨init, r, last⟩ := (List.eq_nil_or_concat' _).resolve_left ne
    have inside : r ∈ recordsOf segs := by
      rw [split, recordsOf_append, last]
      simp
    have index : seg.1 = r.index + 1 := by
      rw [named, LogFormat.nextIndex, last, List.getLast?_concat]
      rfl
    have := small r inside
    omega

/-- So are files of the same names. -/
theorem Settled.small_names (h : Settled w records) (small : ∀ r ∈ records, r.index < 2 ^ 63)
    {front : List (ℕ × List LogRecord)} {file : ℕ} {data : List LogRecord}
    (entries : w.segments.entries = front ++ [(file, data)]) {f : List LogRecord → List UInt8}
    {bytes : List UInt8} :
    ∀ e ∈ front.map (Prod.map id f) ++ [(file, bytes)], e.1 < 2 ^ 64 := by
  have named := h.small small
  rw [entries] at named
  intro e mem
  obtain mem | mem := List.mem_append.mp mem
  · obtain ⟨seg, here, rfl⟩ := List.mem_map.mp mem
    exact named seg (List.mem_append_left _ here)
  · rw [List.mem_singleton.mp mem]
    exact named (file, data) (by simp)

end WalStore

namespace KeeperServer
section Records
variable {recordBytes : LogRecord → ℕ} {s s' : KeeperServer recordBytes}

/-- A step whose flush succeeds, that leaves nothing durable to be forgotten, and nothing in the log
that no replay can follow. -/
def Faithful (s : KeeperServer recordBytes) (e : Env × ServerEvent)
    (s' : KeeperServer recordBytes) : Prop :=
  FlushedStep s e s' ∧ ¬ Unlogged s.storage e.2 ∧ ¬ Doomed s.storage e.2

/-- The records bring back what is durable. -/
structure Restores (s : KeeperServer recordBytes) (records : List LogRecord) : Prop where
  rebuilds : Rebuilds s records
  tracks : Tracks s records

theorem initial_restores : Restores (initial recordBytes) [] := ⟨initial_rebuilds, initial_tracks⟩

theorem Restores.step {e : Env × ServerEvent} {records : List LogRecord} (h : Restores s records)
    (last : s.Faithful e s') :
    ∃ op, s'.wal = s.logged op ∧ Restores s' (records ++ s.recorded op) := by
  obtain ⟨flushed, kept, undoomed⟩ := last
  obtain ⟨out, op, -, move, wal⟩ := flushed.1.2.transition h.rebuilds.linked
  have logs := h.rebuilds.logs.step (wal flushed.2) (move.lastZxid flushed.2)
  have replayable : ¬ Unreplayable s.storage e.2 :=
    not_or.mpr ⟨not_lossy_of_not_unlogged kept, undoomed⟩
  obtain ⟨rebuilt, rebuilds⟩ := h.rebuilds.step flushed replayable
  obtain ⟨tracked, tracks⟩ := h.tracks.step flushed kept
  obtain rfl := rebuilds.logs.settled.unique logs.settled
  obtain rfl := tracks.logs.settled.unique logs.settled
  exact ⟨op, wal flushed.2, rebuilds, tracks⟩

/-- What the records bring back, whatever the orders of the hash sets. -/
theorem Restores.replayAll {records : List LogRecord} (h : Restores s records)
    (orders : ℕ → HashOrders) : ∃ st,
      (KeeperStorage.new 500).replayAll orders records = .ok st ∧
      st.durable = s.storage.durable := by
  obtain ⟨st, replayed, -⟩ := h.rebuilds.rebuilt orders
  obtain ⟨same, sessions⟩ := h.tracks.rebuilt orders st replayed
  exact ⟨st, KeeperStorage.replayAll_iff.mpr replayed,
    KeeperStorage.Durable.ext same.map same.lastZxid sessions same.index⟩

/-- Every first part of the log was the whole of it once. -/
theorem restores_of_run {es : List (Env × ServerEvent)}
    (life : Run Faithful (initial recordBytes) es s) :
    ∃ records, Restores s records ∧ ∀ first, first <+: records →
      ∃ es' t, es' <+: es ∧ Run Faithful (initial recordBytes) es' t ∧ Restores t first := by
  induction life with
  | nil =>
    refine ⟨[], initial_restores, fun first pre => ?_⟩
    rw [List.prefix_nil.mp pre]
    exact ⟨[], _, List.prefix_refl _, .nil, initial_restores⟩
  | @snoc es t e u init last ih =>
    obtain ⟨records, restores, firsts⟩ := ih
    obtain ⟨op, -, restores'⟩ := restores.step last
    refine ⟨_, restores', fun first pre => ?_⟩
    have earlier (pre : first <+: records) : ∃ es' t, es' <+: es ++ [e] ∧
        Run Faithful (initial recordBytes) es' t ∧ Restores t first := by
      obtain ⟨es', t, init', run, restores⟩ := firsts first pre
      exact ⟨es', t, init'.trans (List.prefix_append _ _), run, restores⟩
    cases op with
    | none => exact earlier (by simpa [recorded] using pre)
    | some op =>
      obtain rfl | pre := List.prefix_concat_iff.mp pre
      · exact ⟨_, u, List.prefix_refl _, init.snoc last, restores'⟩
      · exact earlier pre

end Records

section Bytes
variable (checksum : List UInt8 → BitVec 128) {serialize : WalOperation → List UInt8}
  {deserialize : List UInt8 → Option WalOperation}

/-- The files of the server, and what waits to be written to them. -/
def disk (s : KeeperServer (LogRecord.diskBytes serialize)) : WalStore (Record.logFormat checksum) :=
  s.wal.image (LogRecord.diskImage checksum serialize)

/-- The files when the server dies in the write of a record, after `n` bytes of it. -/
def torn (s : KeeperServer (LogRecord.diskBytes serialize)) (op : WalOperation) (n : ℕ) :
    Segments UInt8 :=
  (((s.disk checksum).append ((s.fresh op).onDisk serialize)).flush (.writeFails n)).1.segments

variable {s s' : KeeperServer (LogRecord.diskBytes serialize)}

theorem torn_entries {records : List LogRecord} (settled : WalStore.Settled s.wal records)
    (op : WalOperation) (n : ℕ) : ∃ front data,
      s.wal.segments.entries = front ++ [(s.wal.writer.file, data)] ∧
      recordsOf front ++ data = records ∧
      (s.torn checksum op n).entries =
        front.map (Prod.map id (LogRecord.diskImage checksum serialize).stream) ++
          [(s.wal.writer.file, ((LogRecord.diskImage checksum serialize).stream
            (data ++ [s.fresh op])).take
              (((LogRecord.diskImage checksum serialize).stream data).length + n))] := by
  obtain ⟨front, data, entries, all, flushed⟩ := settled.files
  refine ⟨front, data, entries, all, ?_⟩
  let I := LogRecord.diskImage checksum serialize
  let w := (s.disk checksum).append ((s.fresh op).onDisk serialize)
  have buf : w.writer.buf = ((s.fresh op).onDisk serialize).bytes checksum := by
    simp only [w, disk, WalStore.append, WalStore.image, SegmentWriter.image, flushed]
    rfl
  have ne : w.writer.buf ≠ [] := by
    rw [buf]
    exact Record.bytes_ne_nil _ _
  have before : (s.disk checksum).segments.entries =
      front.map (Prod.map id I.stream) ++ [(s.wal.writer.file, I.stream data)] := by
    simp [disk, WalStore.image, entries, I]
  have after := BTreeMap.entries_modify_last _
    (· ++ (((s.fresh op).onDisk serialize).bytes checksum).take n) before
  have cut : (I.stream (data ++ [s.fresh op])).take ((I.stream data).length + n) =
      I.stream data ++ (((s.fresh op).onDisk serialize).bytes checksum).take n := by
    have one : I.stream [s.fresh op] = ((s.fresh op).onDisk serialize).bytes checksum :=
      (I.encode (s.fresh op)).symm
    rw [I.append, List.take_length_add_append, one]
  rw [torn, WalStore.flush_fails ne id, FlushIo.reaches, buf, cut]
  exact after

variable {checksum}

/-- The bytes of the first operation of a server: the variant, and two varints. -/
def openedBytes (op : WalOperation) : List UInt8 :=
  if op = .createSession 1 5000 then [3, 2, 0x90, 0x4e] else []

def openedFrom (bytes : List UInt8) : Option WalOperation :=
  if bytes = [3, 2, 0x90, 0x4e] then some (.createSession 1 5000) else none

theorem opened_faithful : (initial (LogRecord.diskBytes openedBytes)).Faithful
    (.working 0, .createSession 5000) ((initial _).next (.working 0, .createSession 5000)) :=
  ⟨.next initial_reachable.linked trivial rfl, id, id⟩

theorem opened_storable {r : LogRecord} (mem : r ∈ [⟨1, .createSession 1 5000⟩]) :
    r.Storable openedBytes openedFrom := by
  rw [List.mem_singleton.mp mem]
  exact ⟨by decide, by decide, by decide⟩

/-- What the calls of a lifetime write to disk: one record for each logged operation, in the order
of the zxids, each flushed on its own. -/
theorem disk_of_life {es : List (Env × ServerEvent)}
    (life : Run FlushedStep (initial (LogRecord.diskBytes serialize)) es s)
    (bounded : s.storage.lastZxid < 2 ^ 63) :
    ∃ records, Logs s records ∧ s.disk checksum =
      (WalStore.freshStart (Record.logFormat checksum) .empty maxSegmentBytes).appendBatches
        (records.map fun r => [r.onDisk serialize]) := by
  have invariant := life.invariant (fun s => s.storage.Linked ∧ ∃ records, Logs s records ∧
      (s.storage.lastZxid < 2 ^ 63 → s.disk checksum =
        (WalStore.freshStart (Record.logFormat checksum) .empty maxSegmentBytes).appendBatches
          (records.map fun r => [r.onDisk serialize])))
    ⟨initial_reachable.linked, [], initial_logs, fun _ => rfl⟩ ?_
  · obtain ⟨-, records, logs, same⟩ := invariant
    exact ⟨records, logs, same bounded⟩
  · rintro s e s' ⟨linked, records, logs, same⟩ last
    obtain ⟨out, op, -, move, wal⟩ := last.1.2.transition linked
    have counter := move.lastZxid last.2
    refine ⟨last.1.2.linked linked, _, logs.step (wal last.2) counter, fun bounded => ?_⟩
    have before := same (by omega)
    rw [disk] at before ⊢
    rw [wal last.2]
    cases op with
    | none =>
      rw [recorded, Option.toList_none, List.map_nil, List.append_nil]
      exact before
    | some op =>
      have within : s.storage.lastZxid + 1 < 2 ^ 63 := by
        rw [counter] at bounded
        exact bounded
      have one := s.wal.image_appendBatch (LogRecord.diskImage checksum serialize)
        (fun r (mem : r ∈ [s.fresh op]) => List.mem_singleton.mp mem ▸ within)
      rw [before] at one
      rw [List.map_append, WalStore.appendBatches, List.foldl_append]
      exact one

theorem disk_of_life_opened : ∃ s : KeeperServer (LogRecord.diskBytes openedBytes),
    s.disk (fun _ => 0) = (WalStore.freshStart _ .empty maxSegmentBytes).appendBatches
      [[LogRecord.onDisk openedBytes ⟨1, .createSession 1 5000⟩]] := by
  obtain ⟨records, logs, same⟩ := @disk_of_life (fun _ => 0) openedBytes _ _
    (.single opened_faithful.1) (by decide)
  have one : [⟨1, .createSession 1 5000⟩] = records := logs.settled.stored
  rw [← one] at same
  exact ⟨_, same⟩

/-- A server that dies in the write of a record restarts: unless all bytes of the record are in the
file, on what was durable before the step, and else on what is durable after it. -/
theorem crash_atomic {es : List (Env × ServerEvent)} {e : Env × ServerEvent}
    (life : Run Faithful (initial (LogRecord.diskBytes serialize)) es s) (last : s.Faithful e s')
    {op : WalOperation} (logs : s'.wal = s.logged (some op))
    (storable : ∀ r ∈ recordsOf s.wal.segments.entries ++ [s.fresh op],
      r.Storable serialize deserialize) (n : ℕ) {listing : List (String × List UInt8)}
    (listed : listing.Perm (filesOf (s.torn checksum op n))) (orders : ℕ → HashOrders) :
    ∃ st wal, newOnDisk checksum deserialize listing orders = .ok (st, wal) ∧
      st.durable = if n < (s.fresh op).diskBytes serialize then s.storage.durable
        else s'.storage.durable := by
  obtain ⟨records, restores, -⟩ := restores_of_run life
  have settled := restores.rebuilds.logs.settled
  obtain ⟨op', wal, restores'⟩ := restores.step last
  -- The step logs this operation and no other.
  have logged : WalStore.Settled s'.wal (records ++ [s.fresh op]) := by
    have step : Logs ⟨s.storage.nextZxid, s.logged (some op)⟩ (records ++ s.recorded (some op)) :=
      restores.rebuilds.logs.step rfl rfl
    exact logs ▸ step.settled
  rw [restores'.rebuilds.logs.settled.unique logged] at restores'
  obtain ⟨front, data, entries, all, cut⟩ := torn_entries checksum settled op n
  rw [settled.stored] at storable
  have small : ∀ e ∈ (s.torn checksum op n).entries, e.1 < 2 ^ 64 := by
    rw [cut]
    exact settled.small_names (fun r mem => (storable r (List.mem_append_left _ mem)).index) entries
  have whole := (Record.logFormat checksum).intact_append_of_le n
    (data.map (LogRecord.onDisk serialize)) [(s.fresh op).onDisk serialize]
  have size : ((Record.logFormat checksum).encode ((s.fresh op).onDisk serialize)).length =
      (s.fresh op).diskBytes serialize := Record.bytes_length checksum _
  rw [← all, List.append_assoc] at storable
  by_cases short : n < (s.fresh op).diskBytes serialize
  · obtain ⟨st, replayed, durable⟩ := restores.replayAll orders
    rw [← all] at replayed
    obtain ⟨wal, started⟩ := newOnDisk_cut cut (List.prefix_append _ _) (by
      rw [List.map_append]
      refine whole.trans ?_
      rw [Codec.intact, size, if_neg short.not_ge, List.append_nil]) storable small listed orders
      replayed
    exact ⟨st, wal, started, by rw [durable, if_pos short]⟩
  · obtain ⟨st, replayed, durable⟩ := restores'.replayAll orders
    rw [← all, List.append_assoc] at replayed
    obtain ⟨wal, started⟩ := newOnDisk_cut cut (List.prefix_refl _) (by
      rw [List.map_append]
      refine whole.trans ?_
      rw [Codec.intact, size, if_pos (not_lt.mp short), Codec.intact]
      rfl) storable small listed orders replayed
    exact ⟨st, wal, started, by rw [durable, if_neg short]⟩

/-- A server dies in the write of its first record, with the header in the file and one byte
more. -/
theorem crash_atomic_opened : ∃ st wal,
    newOnDisk (fun _ => 0) openedFrom
      (filesOf ((initial (LogRecord.diskBytes openedBytes)).torn (fun _ => 0)
        (.createSession 1 5000) 39)) (fun _ => ⟨.choice, .choice, .choice⟩) = .ok (st, wal) ∧
    st.durable = (KeeperStorage.new 500).durable := by
  obtain ⟨st, wal, started, durable⟩ := crash_atomic .nil opened_faithful rfl
    (fun r mem => opened_storable mem) 39 (.refl _) _
  exact ⟨st, wal, started, durable⟩

/-- Wherever the last file was cut, the server restarts on what was durable after some first part of
its run, and on all of it if the file is whole. -/
theorem restart_after_cut {es : List (Env × ServerEvent)}
    (life : Run Faithful (initial (LogRecord.diskBytes serialize)) es s)
    (storable : ∀ r ∈ recordsOf s.wal.segments.entries, r.Storable serialize deserialize) (cut : ℕ)
    {listing : List (String × List UInt8)}
    (listed : listing.Perm (filesOf (truncateLast cut (s.disk checksum).segments)))
    (orders : ℕ → HashOrders) :
    ∃ st wal, newOnDisk checksum deserialize listing orders = .ok (st, wal) ∧
      (∃ es' t, es' <+: es ∧ Run Faithful (initial (LogRecord.diskBytes serialize)) es' t ∧
        st.durable = t.storage.durable) ∧
      ((∀ file bytes, (s.disk checksum).segments.lastKeyValue = some (file, bytes) →
        bytes.length ≤ cut) → st.durable = s.storage.durable) := by
  obtain ⟨records, restores, firsts⟩ := restores_of_run life
  have settled := restores.rebuilds.logs.settled
  obtain ⟨front, data, entries, all, -⟩ := settled.files
  let I := LogRecord.diskImage checksum serialize
  rw [settled.stored] at storable
  have before : (s.disk checksum).segments.entries =
      front.map (Prod.map id I.stream) ++ [(s.wal.writer.file, I.stream data)] := by
    simp [disk, WalStore.image, entries, I]
  have last : (s.disk checksum).segments.lastKeyValue =
      some (s.wal.writer.file, I.stream data) := by
    rw [BTreeMap.lastKeyValue, before, List.getLast?_concat]
  have after : (truncateLast cut (s.disk checksum).segments).entries =
      front.map (Prod.map id I.stream) ++ [(s.wal.writer.file, (I.stream data).take cut)] := by
    rw [truncateLast, last]
    exact BTreeMap.entries_modify_last _ _ before
  have small : ∀ e ∈ (truncateLast cut (s.disk checksum).segments).entries, e.1 < 2 ^ 64 := by
    rw [after]
    exact settled.small_names (fun r mem => (storable r mem).index) entries
  -- Some first part of the last file is whole.
  obtain ⟨kept, initial, whole⟩ : ∃ kept, kept <+: data ∧
      (Record.logFormat checksum).intact cut (data.map (LogRecord.onDisk serialize)) =
        kept.map (LogRecord.onDisk serialize) := by
    have initial := (Record.logFormat checksum).intact_initial cut
      (data.map (LogRecord.onDisk serialize))
    obtain ⟨kept, pre, same⟩ := List.prefix_map_iff.mp initial
    exact ⟨kept, pre, same⟩
  have first : recordsOf front ++ kept <+: records := by
    rw [← all]
    exact (List.prefix_append_right_inj _).mpr initial
  obtain ⟨es', t, sooner, run, restores'⟩ := firsts _ first
  obtain ⟨st, replayed, durable⟩ := restores'.replayAll orders
  rw [← all] at storable
  obtain ⟨wal, started⟩ := newOnDisk_cut after initial whole storable small listed orders replayed
  refine ⟨st, wal, started, ⟨es', t, sooner, run, durable⟩, fun uncut => ?_⟩
  have every : kept = data := by
    have full := (Record.logFormat checksum).intact_of_le cut
      (data.map (LogRecord.onDisk serialize)) (uncut _ _ last)
    rw [full] at whole
    exact initial.eq_of_length (by simpa using (congrArg List.length whole).symm)
  obtain ⟨st', replayed', durable'⟩ := restores.replayAll orders
  rw [every, all, replayed'] at replayed
  cases replayed
  exact durable'

/-- The one record of a log lost its last byte. -/
theorem restart_after_cut_opened : ∃ (s : KeeperServer (LogRecord.diskBytes openedBytes)) (st : _)
    (wal : _), newOnDisk (fun _ => 0) openedFrom
      (filesOf (truncateLast 41 (s.disk fun _ => 0).segments))
        (fun _ => ⟨.choice, .choice, .choice⟩) = .ok (st, wal) := by
  obtain ⟨st, wal, started, -⟩ := restart_after_cut (.single opened_faithful)
    (fun r mem => opened_storable mem) 41 (.refl _) _
  exact ⟨_, st, wal, started⟩

end Bytes
end KeeperServer
end TinyKeeper
