import TinyKeeper.Changelog.Retry

/-! What a flush of waiting records leaves in the files, whichever of its file operations fails. -/
namespace TinyKeeper
variable {α ρ ν : Type*}

namespace FlushIo

/-- The whole buffer is written and synced. -/
def Syncs (io : FlushIo) : Prop := io = .succeeds ∨ io = .createFails

instance : DecidablePred Syncs := fun io =>
  match io with
  | .succeeds => .isTrue (.inl rfl)
  | .createFails => .isTrue (.inr rfl)
  | .writeFails _ => .isFalse (by simp [Syncs])
  | .syncFails => .isFalse (by simp [Syncs])
  | .writeLost _ _ => .isFalse (by simp [Syncs])

theorem Syncs.reaches {io : FlushIo} (h : io.Syncs) (buf : List α) : io.reaches buf = buf := by
  obtain rfl | rfl := h <;> rfl

theorem Passes.syncs {io : FlushIo} (passes : io.Passes) (reported : io.Reported) : io.Syncs := by
  cases io with
  | succeeds => exact .inl rfl
  | createFails => exact .inr rfl
  | writeLost n creates => exact reported.elim
  | writeFails n => exact passes.elim
  | syncFails => exact passes.elim

theorem Syncs.passes {io : FlushIo} (h : io.Syncs) : io.Passes := by
  obtain rfl | rfl := h <;> trivial

/-- The flush returns `Ok`, whatever there is to write. -/
def works (io : FlushIo) : Bool := decide io.Passes && io.creates

end FlushIo

namespace WalStore
variable {F : LogFormat α ρ ν} {w : WalStore F}

/-- The store after a flush that cleared its buffer. -/
def emptied (w : WalStore F) (io : FlushIo) : WalStore F :=
  { w.spill (io.reaches w.writer.buf) with writer := { w.writer with buf := [] } }

/-- The outcomes of a flush of a buffer that is not empty. -/
inductive Flushed (w : WalStore F) (io : FlushIo) : WalStore F → Except WalError Unit → Prop
  | fails (fails : ¬ io.Passes) : Flushed w io (w.spill (io.reaches w.writer.buf)) (.error .io)
  | room (room : w.writer.bytesWritten < w.maxSegmentBytes) (passes : io.Passes) :
      Flushed w io (w.emptied io) (.ok ())
  | rotated (full : w.maxSegmentBytes ≤ w.writer.bytesWritten) (passes : io.Passes)
      (creates : io.creates) :
      Flushed w io
        { w.emptied io with
          segments := (w.emptied io).segments.insert (w.lastIndex + 1) []
          writer := ⟨w.lastIndex + 1, [], 0⟩ } (.ok ())
  /-- The buffer is gone, and the next segment could not be started. -/
  | stuck (full : w.maxSegmentBytes ≤ w.writer.bytesWritten) (passes : io.Passes)
      (stays : io.creates = false) : Flushed w io (w.emptied io) (.error .io)

/-- The flush of a buffer that is not empty returns an error. -/
def FailsIn (w : WalStore F) (io : FlushIo) : Prop :=
  ¬ io.Passes ∨ (w.maxSegmentBytes ≤ w.writer.bytesWritten ∧ io.creates = false)

theorem flush_of_works {io : FlushIo} (works : io.works = true) : (w.flush io).2 = .ok () := by
  obtain ⟨passes, creates⟩ := (Bool.and_eq_true _ _).mp works
  have written : (w.writer.flush io).2.2 = .ok () := by
    rw [SegmentWriter.flush, if_pos (of_decide_eq_true passes)]
    split_ifs <;> rfl
  simp only [flush, written, rotate, if_pos creates]
  split_ifs <;> rfl

theorem flush_flushed (ne : w.writer.buf ≠ []) (io : FlushIo) :
    w.Flushed io (w.flush io).1 (w.flush io).2 := by
  by_cases passes : io.Passes
  · have written : w.writer.flush io =
        ({ w.writer with buf := [] }, io.reaches w.writer.buf, .ok ()) := by
      rw [SegmentWriter.flush, if_neg (mt List.isEmpty_iff.mp ne), if_pos passes]
    have flushed : w.flush io = if w.maxSegmentBytes ≤ w.writer.bytesWritten
        then (w.emptied io).rotate io else (w.emptied io, .ok ()) := by
      simp only [flush, written]
      rfl
    rw [flushed, rotate]
    split_ifs with full creates
    · exact .rotated full passes creates
    · exact .stuck full passes (Bool.eq_false_of_not_eq_true creates)
    · exact .room (Nat.lt_of_not_le full) passes
  · rw [flush_fails ne passes]
    exact .fails passes

namespace Flushed
variable {io : FlushIo} {w' : WalStore F} {result : Except WalError Unit}

theorem passes_of_ok (h : w.Flushed io w' (.ok ())) : io.Passes := by
  cases h with
  | room room passes => exact passes
  | rotated full passes creates => exact passes

theorem failsIn_of_error {error : WalError} (h : w.Flushed io w' (.error error)) :
    w.FailsIn io := by
  cases h with
  | fails fails => exact .inl fails
  | stuck full passes stays => exact .inr ⟨full, stays⟩

theorem lastIndex (h : w.Flushed io w' result) : w'.lastIndex = w.lastIndex := by
  cases h <;> rfl

theorem buf (h : w.Flushed io w' result) :
    w'.writer.buf = if io.Passes then [] else w.writer.buf := by
  cases h with
  | fails fails =>
    rw [if_neg fails]
    rfl
  | room room passes =>
    rw [if_pos passes]
    rfl
  | rotated full passes creates =>
    rw [if_pos passes]
  | stuck full passes stays =>
    rw [if_pos passes]
    rfl

/-- What the write puts into the file goes behind what it holds, and a rotation starts the next
segment. -/
theorem files (h : w.Flushed io w' result) :
    (w'.segments = w.segments.modify w.writer.file (· ++ io.reaches w.writer.buf) ∧
      w'.writer.file = w.writer.file) ∨
    (w'.segments = (w.segments.modify w.writer.file (· ++ io.reaches w.writer.buf)).insert
        (w.lastIndex + 1) [] ∧ w'.writer.file = w.lastIndex + 1) := by
  cases h with
  | rotated full passes creates => exact .inr ⟨rfl, rfl⟩
  | _ => exact .inl ⟨rfl, rfl⟩

theorem passes_of_file (h : w.Flushed io w' result) (moved : w'.writer.file ≠ w.writer.file) :
    io.Passes := by
  cases h with
  | rotated full passes creates => exact passes
  | _ => exact absurd rfl moved

/-- With the writer on the last segment, what the write puts into the file goes to its end, and the
writer stays on the last segment. -/
theorem entries (h : w.Flushed io w' result) {front : List (ℕ × List α)} {data : List α}
    (active : w.segments.entries = front ++ [(w.writer.file, data)])
    (above : w.writer.file ≤ w.lastIndex) :
    (w'.segments.entries = front ++ [(w.writer.file, data ++ io.reaches w.writer.buf)] ∧
      w'.writer.file = w.writer.file) ∨
    (io.Passes ∧ w'.writer.file = w.lastIndex + 1 ∧
      w'.segments.entries =
        front ++ [(w.writer.file, data ++ io.reaches w.writer.buf)] ++ [(w.lastIndex + 1, [])]) := by
  have written := w.segments.entries_modify_last (· ++ io.reaches w.writer.buf) active
  obtain ⟨files, writer⟩ | ⟨files, writer⟩ := h.files
  · exact .inl ⟨files ▸ written, writer⟩
  · refine .inr ⟨h.passes_of_file (by omega), writer, ?_⟩
    rw [files, ← written]
    refine BTreeMap.entries_insert_of_forall_lt _ (w.lastIndex + 1) [] fun e mem => ?_
    rw [written] at mem
    obtain mem | mem := List.mem_append.mp mem
    · have below := w.segments.key_lt_of_entries_eq active e mem
      omega
    · rw [List.mem_singleton.mp mem]
      exact Nat.lt_succ_of_le above

end Flushed
end WalStore
end TinyKeeper
