import TinyKeeper.Changelog.Record
import TinyKeeper.Lib.BTreeMap

/-! The write-ahead log: segment files keyed by their first index, the writer of the last one,
rotation, opening a directory and replaying it. Generic over the format of the records, so that
the same store runs on bytes and on whole records. -/
namespace TinyKeeper
variable {α ρ ν : Type*}

/-- A record format of a log: the index of a record, as written and as read back, and the bytes a
symbol of the stream takes in a file. -/
structure LogFormat (α ρ ν : Type*) extends Codec α ρ ν WalError where
  index : ρ → ℕ
  indexRead : ν → ℕ
  weight : α → ℕ

namespace LogFormat

def bytes (F : LogFormat α ρ ν) (s : List α) : ℕ := (s.map F.weight).sum

@[simp] theorem bytes_nil (F : LogFormat α ρ ν) : F.bytes [] = 0 := rfl

@[simp] theorem bytes_append (F : LogFormat α ρ ν) (s t : List α) :
    F.bytes (s ++ t) = F.bytes s + F.bytes t := by
  simp [bytes]

end LogFormat

/-- The log as it is on disk: records as bytes. -/
def Record.logFormat (checksum : List UInt8 → BitVec 128) : LogFormat UInt8 Record RecordView where
  toCodec := codec checksum
  index r := r.index.toNat
  indexRead v := v.1.toNat
  weight _ := 1

theorem Record.logFormat_lawful (checksum : List UInt8 → BitVec 128) :
    (logFormat checksum).Lawful Fits view := codec_lawful checksum

@[simp] theorem Record.bytes_logFormat (checksum : List UInt8 → BitVec 128) (s : List UInt8) :
    (logFormat checksum).bytes s = s.length := by
  simp [LogFormat.bytes, logFormat]

/-- How the file operations of one `flush` end. The file runs a write in the background and reports
its error with the next operation that waits for it. An error that reaches `write_all` (that of an
earlier block of the buffer, or one a flush before this one left behind), or a sync that fails
behind it, leaves a part of the buffer in the file. A failed creation of the next segment comes
after the write and the sync. -/
inductive FlushIo
  | succeeds
  | writeFails (written : ℕ)
  | syncFails
  | createFails
  /-- The system refuses the write after a part of the buffer, and no call of this flush tells:
  `sync_data` waits for the write, keeps its error for the next write and syncs the rest. Whether
  that next write gets to report it is left open. -/
  | writeLost (written : ℕ) (creates : Bool)

namespace FlushIo

/-- What the write of a flush puts into the file. -/
def reaches (io : FlushIo) (buf : List α) : List α :=
  match io with
  | .writeFails n | .writeLost n _ => buf.take n
  | _ => buf

theorem reaches_prefix (io : FlushIo) (buf : List α) : io.reaches buf <+: buf := by
  cases io with
  | writeFails n => exact List.take_prefix n buf
  | writeLost n creates => exact List.take_prefix n buf
  | _ => exact List.prefix_refl buf

/-- `write_all` and `sync_data` return `Ok`. -/
def Passes : FlushIo → Prop
  | .writeFails _ | .syncFails => False
  | .succeeds | .createFails | .writeLost _ _ => True

instance : DecidablePred Passes := fun io =>
  match io with
  | .writeFails _ | .syncFails => .isFalse id
  | .succeeds | .createFails | .writeLost _ _ => .isTrue trivial

/-- The whole buffer goes to the file. -/
def Whole : FlushIo → Prop
  | .writeFails _ | .writeLost _ _ => False
  | .succeeds | .syncFails | .createFails => True

theorem Whole.reaches {io : FlushIo} (h : io.Whole) (buf : List α) : io.reaches buf = buf := by
  cases io with
  | writeFails n => exact h.elim
  | writeLost n creates => exact h.elim
  | _ => rfl

/-- No write is lost behind calls that return `Ok`. -/
def Reported : FlushIo → Prop
  | .writeLost _ _ => False
  | .succeeds | .writeFails _ | .syncFails | .createFails => True

/-- The file of the next segment can be created. -/
def creates : FlushIo → Bool
  | .createFails => false
  | .writeLost _ creates => creates
  | _ => true

end FlushIo

structure SegmentWriter (α : Type*) where
  file : ℕ
  buf : List α
  bytesWritten : ℕ

/-- Write the buffer to the file. Returns the writer, what reached the file and the result; the
buffer is cleared when both calls return `Ok`. -/
def SegmentWriter.flush (io : FlushIo) (w : SegmentWriter α) :
    SegmentWriter α × List α × Except WalError Unit :=
  if w.buf.isEmpty then (w, [], .ok ())
  else if io.Passes then ({ w with buf := [] }, io.reaches w.buf, .ok ())
  else (w, io.reaches w.buf, .error .io)

/-- The log directory: the contents of its segment files under their first index. -/
abbrev Segments (α : Type*) := BTreeMap ℕ (List α)

structure WalStore (F : LogFormat α ρ ν) where
  segments : Segments α
  writer : SegmentWriter α
  maxSegmentBytes : ℕ
  lastIndex : ℕ

namespace WalStore
variable {F : LogFormat α ρ ν}

/-- A directory without segments: create the first one. -/
def freshStart (F : LogFormat α ρ ν) (dir : Segments α) (maxSegmentBytes : ℕ) : WalStore F :=
  { segments := dir.insert 1 [], writer := ⟨1, [], 0⟩, maxSegmentBytes, lastIndex := 0 }

/-- Open a directory: the last segment is decoded for its highest index and becomes the one that
is written to, behind all the bytes it has. -/
def «open» (F : LogFormat α ρ ν) (dir : Segments α) (maxSegmentBytes : ℕ) :
    Except WalError (WalStore F) :=
  match dir.lastKeyValue with
  | none => .ok (freshStart F dir maxSegmentBytes)
  | some (first, data) =>
    match F.decodeAll data with
    | (_, some e) => .error e
    | (read, none) =>
      .ok {
        segments := dir
        writer := ⟨first, [], F.bytes data⟩
        maxSegmentBytes
        lastIndex := (read.getLast?.map F.indexRead).getD 0
      }

def append (w : WalStore F) (r : ρ) : WalStore F :=
  { w with
    writer := { w.writer with
      buf := w.writer.buf ++ F.encode r
      bytesWritten := w.writer.bytesWritten + F.bytes (F.encode r) }
    lastIndex := F.index r }

/-- Start the segment of the next index. Creating its file truncates one of that name. -/
def rotate (io : FlushIo) (w : WalStore F) : WalStore F × Except WalError Unit :=
  if io.creates then
    let newFirstIndex := w.lastIndex + 1
    ({ w with
      segments := w.segments.insert newFirstIndex []
      writer := ⟨newFirstIndex, [], 0⟩ }, .ok ())
  else (w, .error .io)

def flush (io : FlushIo) (w : WalStore F) : WalStore F × Except WalError Unit :=
  let (writer, written, result) := w.writer.flush io
  let w := { w with
    writer := writer
    segments := w.segments.modify w.writer.file (· ++ written) }
  match result with
  | .error e => (w, .error e)
  | .ok () => if w.maxSegmentBytes ≤ w.writer.bytesWritten then w.rotate io else (w, .ok ())

def replaySegments (F : LogFormat α ρ ν) : List (ℕ × List α) → List ν × Option WalError
  | [] => ([], none)
  | segment :: rest =>
    match F.decodeAll segment.2 with
    | (read, some e) => (read, some e)
    | (read, none) => (read ++ (replaySegments F rest).1, (replaySegments F rest).2)

/-- The records handed to the callback, and the error that stopped the replay. -/
def replay (w : WalStore F) : List ν × Option WalError := replaySegments F w.segments.entries

/-- Append some records and flush them together. -/
def appendBatch (w : WalStore F) (batch : List ρ) : WalStore F × Except WalError Unit :=
  (batch.foldl append w).flush .succeeds

def appendBatches (w : WalStore F) (batches : List (List ρ)) : WalStore F :=
  batches.foldl (fun w batch => (w.appendBatch batch).1) w

theorem foldl_append (w : WalStore F) (batch : List ρ) :
    batch.foldl append w =
      { w with
        writer := { w.writer with
          buf := w.writer.buf ++ F.encodeAll batch
          bytesWritten := w.writer.bytesWritten + F.bytes (F.encodeAll batch) }
        lastIndex := (batch.getLast?.map F.index).getD w.lastIndex } := by
  induction batch using List.reverseRecOn with
  | nil => simp
  | append_singleton batch r ih =>
    rw [List.foldl_append, ih]
    simp [append, F.encodeAll_append, Nat.add_assoc]

theorem writer_flush_succeeds (w : SegmentWriter α) :
    w.flush .succeeds = ({ w with buf := [] }, w.buf, .ok ()) := by
  obtain ⟨file, buf, bytesWritten⟩ := w
  cases buf <;> rfl

/-- A successful flush moves the buffer to the end of the file, and closes a full segment. -/
theorem flush_succeeds (w : WalStore F) :
    w.flush .succeeds =
      let segments := w.segments.modify w.writer.file (· ++ w.writer.buf)
      if w.maxSegmentBytes ≤ w.writer.bytesWritten then
        ({ w with
          segments := segments.insert (w.lastIndex + 1) []
          writer := ⟨w.lastIndex + 1, [], 0⟩ }, .ok ())
      else ({ w with segments := segments, writer := { w.writer with buf := [] } }, .ok ()) := by
  simp only [flush, writer_flush_succeeds, rotate, FlushIo.creates, if_true]

end WalStore
end TinyKeeper
