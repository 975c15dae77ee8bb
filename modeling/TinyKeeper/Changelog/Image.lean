import TinyKeeper.Changelog.Layout

/-! One log in two formats. What a store does with the streams of one format, it does with their
images in the other, call by call. -/
namespace TinyKeeper

namespace BTreeMap
variable {κ β γ : Type*} [LinearOrder κ]

def mapValues (f : β → γ) (m : BTreeMap κ β) : BTreeMap κ γ :=
  ⟨m.entries.map (Prod.map id f), List.pairwise_map.mpr m.sorted⟩

@[simp] theorem mapValues_entries (f : β → γ) (m : BTreeMap κ β) :
    (m.mapValues f).entries = m.entries.map (Prod.map id f) := rfl

theorem ext_entries {m m' : BTreeMap κ β} (h : m.entries = m'.entries) : m = m' :=
  ext_mem fun e => by rw [h]

theorem mapValues_insert (f : β → γ) (m : BTreeMap κ β) (k : κ) (v : β) :
    (m.insert k v).mapValues f = (m.mapValues f).insert k (f v) := by
  apply ext_entries
  simp only [mapValues_entries, insert]
  induction m.entries with
  | nil => rfl
  | cons e rest ih =>
    simp only [insertEntry, List.map_cons, Prod.map_fst, id_eq]
    split_ifs
    · rfl
    · rfl
    · rw [List.map_cons, ih]

theorem mapValues_modify (f : β → γ) (m : BTreeMap κ β) (k : κ) {g : β → β} {h : γ → γ}
    (comm : ∀ v, f (g v) = h (f v)) : (m.modify k g).mapValues f = (m.mapValues f).modify k h := by
  apply ext_entries
  simp only [mapValues_entries, modify, List.map_map]
  refine List.map_congr_left fun e _ => ?_
  by_cases here : e.1 = k <;> simp [here, comm]

end BTreeMap

variable {α α' ρ ρ' ν ν' : Type*}

/-- The streams of the first format, written in the second; the indices of the records that are
within bounds stay the same. -/
structure LogFormat.Image (F : LogFormat α ρ ν) (F' : LogFormat α' ρ' ν') where
  stream : List α → List α'
  record : ρ → ρ'
  Within : ρ → Prop
  append : ∀ s t, stream (s ++ t) = stream s ++ stream t
  empty_iff : ∀ s, stream s = [] ↔ s = []
  encode : ∀ r, F'.encode (record r) = stream (F.encode r)
  bytes : ∀ s, F'.bytes (stream s) = F.bytes s
  index : ∀ r, Within r → F'.index (record r) = F.index r

def SegmentWriter.image {F : LogFormat α ρ ν} {F' : LogFormat α' ρ' ν'} (I : F.Image F')
    (w : SegmentWriter α) : SegmentWriter α' :=
  ⟨w.file, I.stream w.buf, w.bytesWritten⟩

/-- Unless a write leaves a part of the buffer in the file, both writers write the same. -/
theorem SegmentWriter.image_flush {F : LogFormat α ρ ν} {F' : LogFormat α' ρ' ν'} (I : F.Image F')
    (w : SegmentWriter α) {io : FlushIo} (whole : io.Whole) :
    (w.image I).flush io =
      ((w.flush io).1.image I, I.stream (w.flush io).2.1, (w.flush io).2.2) := by
  have nothing : I.stream [] = [] := (I.empty_iff []).mpr rfl
  have empty : (w.image I).buf.isEmpty = w.buf.isEmpty := by
    rw [Bool.eq_iff_iff, List.isEmpty_iff, List.isEmpty_iff]
    exact I.empty_iff w.buf
  unfold flush
  simp only [empty, whole.reaches]
  split_ifs
  · rw [nothing]
  · simp only [image, nothing]
  · rfl

namespace WalStore
variable {F : LogFormat α ρ ν} {F' : LogFormat α' ρ' ν'} (I : F.Image F') (w : WalStore F)

def image : WalStore F' where
  segments := w.segments.mapValues I.stream
  writer := w.writer.image I
  maxSegmentBytes := w.maxSegmentBytes
  lastIndex := w.lastIndex

theorem image_append {r : ρ} (within : I.Within r) :
    (w.append r).image I = (w.image I).append (I.record r) := by
  simp only [image, SegmentWriter.image, append, I.append, I.encode, I.bytes, I.index r within]

theorem image_foldl_append {batch : List ρ} (within : ∀ r ∈ batch, I.Within r) :
    (batch.foldl append w).image I = (batch.map I.record).foldl append (w.image I) := by
  induction batch generalizing w with
  | nil => rfl
  | cons r batch ih =>
    rw [List.foldl_cons, List.map_cons, List.foldl_cons, ← w.image_append I (within r (by simp)),
      ih _ fun r' mem => within r' (List.mem_cons_of_mem r mem)]

theorem image_rotate (io : FlushIo) :
    (w.image I).rotate io = ((w.rotate io).1.image I, (w.rotate io).2) := by
  have nothing : I.stream [] = [] := (I.empty_iff []).mpr rfl
  unfold rotate
  split_ifs
  · simp only [image, SegmentWriter.image, BTreeMap.mapValues_insert, nothing]
  · rfl

theorem image_flush {io : FlushIo} (whole : io.Whole) :
    (w.image I).flush io = ((w.flush io).1.image I, (w.flush io).2) := by
  rcases flushed : w.writer.flush io with ⟨writer, written, result⟩
  have flushed' : (w.image I).writer.flush io = (writer.image I, I.stream written, result) := by
    rw [image, w.writer.image_flush I whole, flushed]
  let next : WalStore F := { w with
    writer := writer
    segments := w.segments.modify w.writer.file (· ++ written) }
  have grows : ({ w.image I with
      writer := writer.image I
      segments := (w.image I).segments.modify (w.image I).writer.file (· ++ I.stream written) } :
        WalStore F') = next.image I := by
    have segments := w.segments.mapValues_modify I.stream w.writer.file (g := (· ++ written))
      (h := (· ++ I.stream written)) fun v => I.append v written
    simp only [image, next, segments, SegmentWriter.image]
  simp only [flush, flushed, flushed', grows]
  cases result with
  | error e => rfl
  | ok done =>
    change (if w.maxSegmentBytes ≤ writer.bytesWritten then (next.image I).rotate io
      else (next.image I, .ok ())) = _
    simp only [image_rotate]
    by_cases full : w.maxSegmentBytes ≤ writer.bytesWritten
    · simp only [full, if_true]
      rfl
    · simp only [full, if_false]
      rfl

theorem image_appendBatch {batch : List ρ} (within : ∀ r ∈ batch, I.Within r) :
    (w.appendBatch batch).1.image I = ((w.image I).appendBatch (batch.map I.record)).1 := by
  rw [appendBatch, appendBatch, ← image_foldl_append I w within,
    image_flush I _ (show FlushIo.Whole .succeeds from trivial)]

end WalStore
end TinyKeeper
