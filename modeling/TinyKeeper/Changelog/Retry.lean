import TinyKeeper.Changelog.Rotation

/-! Flushes that are retried after a failed one. The bytes a failed write left stay in the file and
the buffer stays whole, so the next flush writes the whole buffer behind them. -/
namespace TinyKeeper
variable {α ρ ν : Type*}

/-- The calls of the owner of one store. Any write and any sync of a flush may fail. -/
inductive WriteCall (ρ : Type*)
  | append (r : ρ)
  | flush (io : FlushIo) (returned : Except WalError Unit)

/-- A flush covers what waits when it returns `Ok`. -/
def Accepted.written (a : Accepted ρ) : WriteCall ρ → Accepted ρ
  | .append r => ⟨a.flushed, a.pending ++ [r]⟩
  | .flush _ (.ok ()) => ⟨a.flushed ++ a.pending, []⟩
  | .flush _ (.error _) => a

def covered (calls : List (WriteCall ρ)) : Accepted ρ := calls.foldl Accepted.written ⟨[], []⟩

@[simp] theorem covered_concat (calls : List (WriteCall ρ)) (c : WriteCall ρ) :
    covered (calls ++ [c]) = (covered calls).written c := by
  simp [covered]

theorem Accepted.records_written (a : Accepted ρ) (c : WriteCall ρ) :
    a.records <+: (a.written c).records := by
  cases c with
  | append r => simp [records, written, ← List.append_assoc]
  | flush io returned => cases returned <;> simp [records, written]

namespace WalStore
variable {F : LogFormat α ρ ν} {w w₀ : WalStore F}

/-- One call. The next segment file can always be created, and the addition in `rotate`, behind a
write and a sync that return `Ok`, does not overflow. -/
inductive Writes (w : WalStore F) : WriteCall ρ → WalStore F → Prop
  | append (r : ρ) : Writes w (.append r) (w.append r)
  | flush {io : FlushIo} {w' : WalStore F} {returned : Except WalError Unit}
      (creates : io.creates) (done : w.flush io = (w', returned))
      (fits : returned = .ok () → ∀ k, w.rotationTarget = some k → k < 2 ^ 64) :
      Writes w (.flush io returned) w'

/-- `bytes_written` counts what the active file and the buffer hold. -/
def Aligned (w : WalStore F) : Prop :=
  ∀ data, w.segments.get? w.writer.file = some data →
    F.bytes data + F.bytes w.writer.buf = w.writer.bytesWritten

/-- A call puts bytes into the file only while no failed flush has left any there, and when its
write and its sync return `Ok`, the whole buffer is in the file. -/
def Undisturbed (w : WalStore F) : WriteCall ρ → Prop
  | .append _ => True
  | .flush io _ => (io.reaches w.writer.buf ≠ [] → w.Aligned) ∧
      (io.Passes → io.reaches w.writer.buf = w.writer.buf)

/-- The store with some bytes behind its active file that it does not know of. -/
def spill (torn : List α) (w : WalStore F) : WalStore F :=
  { w with segments := w.segments.modify w.writer.file (· ++ torn) }

@[simp] theorem spill_nil (w : WalStore F) : w.spill [] = w := by
  rw [spill, modify_append_nil]

theorem append_spill (torn : List α) (r : ρ) : (w.spill torn).append r = (w.append r).spill torn :=
  rfl

/-- A flush whose write or sync fails. -/
theorem flush_fails {io : FlushIo} (ne : w.writer.buf ≠ []) (fails : ¬ io.Passes) :
    w.flush io = (w.spill (io.reaches w.writer.buf), .error .io) := by
  simp only [flush, SegmentWriter.flush, if_neg (mt List.isEmpty_iff.mp ne), if_neg fails]
  rfl

/-- A flush that puts its whole buffer into the file and can go on to the next segment. -/
theorem flush_of_whole {io : FlushIo} (creates : io.creates)
    (whole : w.writer.buf ≠ [] → io.Passes ∧ io.reaches w.writer.buf = w.writer.buf) :
    w.flush io = w.flush .succeeds := by
  have writer : w.writer.flush io = w.writer.flush .succeeds := by
    by_cases empty : w.writer.buf = []
    · simp only [SegmentWriter.flush, empty, List.isEmpty_nil, if_true]
    · obtain ⟨passes, all⟩ := whole empty
      rw [writer_flush_succeeds, SegmentWriter.flush, if_neg (mt List.isEmpty_iff.mp empty),
        if_pos passes, all]
  have rotates (w : WalStore F) : w.rotate io = w.rotate .succeeds := by
    rw [rotate, rotate, if_pos creates]
    rfl
  simp only [flush, writer, rotates]

/-- A write of which nothing arrives is not told of: the flush returns `Ok`, the buffer is gone, and
a replay reads what it read before. -/
theorem flush_writeLost (creates : Bool) (room : w.writer.bytesWritten < w.maxSegmentBytes) :
    (w.flush (.writeLost 0 creates)).2 = .ok () ∧
      (w.flush (.writeLost 0 creates)).1.writer.buf = [] ∧
      (w.flush (.writeLost 0 creates)).1.replay = w.replay := by
  have lost : w.writer.flush (.writeLost 0 creates) =
      ({ w.writer with buf := [] }, [], .ok ()) := by
    obtain ⟨segments, ⟨file, buf, bytesWritten⟩, maxSegmentBytes, lastIndex⟩ := w
    cases buf <;> rfl
  have flushed : w.flush (.writeLost 0 creates) =
      ({ w with writer := { w.writer with buf := [] } }, .ok ()) := by
    simp only [flush, lost, modify_append_nil, if_neg room.not_ge]
  rw [flushed]
  exact ⟨rfl, rfl, rfl⟩

/-- The store holds the flushed records; what waits is in its buffer, and a part of it that a
failed flush left may stand behind them in the file. -/
structure Holds (a : Accepted ρ) (torn : List α) (w : WalStore F) : Prop where
  stored : ∃ segs w₀, Numbered segs w₀ ∧ recordsOf segs = a.flushed ∧
    (∀ k, Blank segs k → k = w₀.lastIndex + 1) ∧ w = (a.pending.foldl append w₀).spill torn
  torn : torn <+: F.encodeAll a.pending

theorem freshStart_holds (max : ℕ) : Holds ⟨[], []⟩ [] (freshStart F .empty max) := by
  refine ⟨⟨_, _, freshStart_numbered max, rfl, ?_, by simp⟩, List.nil_prefix⟩
  rintro k ⟨done, e⟩
  have last := congrArg List.getLast? e
  simp only [List.getLast?_singleton, List.getLast?_concat, Option.some.injEq, Prod.mk.injEq] at last
  exact last.1.symm

/-- On an empty active segment with nothing to write, a rotation starts that segment again. -/
theorem Numbered.flush_blank {segs : List (ℕ × List ρ)} (h : Numbered segs w) {k : ℕ}
    (blank : Blank segs k) (idle : k = w.lastIndex + 1) : (w.flush .succeeds).1 = w := by
  obtain ⟨done, rfl⟩ := blank
  have behind := h.behind
  have file := behind.file_eq
  have entries := behind.entries
  rw [List.nil_append, F.layout_append_singleton, ite_self, List.nil_append,
    F.encodeAll_nil] at entries
  have bytes := behind.counted k [] (by rw [entries, List.getLast?_concat])
  have again : w.segments.insert k [] = w.segments := by
    apply BTreeMap.ext_mem
    intro e
    rw [BTreeMap.mem_insert, entries, List.mem_append, List.mem_singleton]
    constructor
    · rintro (rfl | ⟨mem, -⟩)
      · exact .inr rfl
      · exact mem
    · rintro (mem | rfl)
      · exact .inr ⟨.inl mem, (w.segments.key_lt_of_entries_eq entries e mem).ne⟩
      · exact .inl rfl
  obtain ⟨segments, ⟨f, buf, bytesWritten⟩, maxSegmentBytes, lastIndex⟩ := w
  obtain rfl : f = k := file
  obtain rfl : buf = [] := behind.flushed
  obtain rfl : bytesWritten = 0 := bytes
  simp only at again idle
  rw [flush_succeeds]
  simp only [modify_append_nil, ← idle, again]
  split_ifs <;> rfl

theorem bytes_pos (weighs : ∀ a, 1 ≤ F.weight a) {s : List α} (ne : s ≠ []) : 1 ≤ F.bytes s := by
  obtain ⟨a, s, rfl⟩ := List.exists_cons_of_ne_nil ne
  have := weighs a
  simp only [LogFormat.bytes, List.map_cons, List.sum_cons]
  omega

section Holds
variable {a : Accepted ρ} {torn : List α}

/-- The byte counter is right exactly while nothing was left behind. -/
theorem Holds.torn_eq_nil (h : Holds a torn w) (weighs : ∀ a, 1 ≤ F.weight a)
    (aligned : w.Aligned) : torn = [] := by
  obtain ⟨⟨segs, w₀, numbered, -, -, rfl⟩, -⟩ := h
  obtain ⟨done, rs, split⟩ := numbered.behind.active
  have entries := numbered.behind.entries
  rw [split, List.nil_append, F.layout_append_singleton] at entries
  have counted := numbered.behind.counted _ _ (by rw [entries, List.getLast?_concat])
  have after := w₀.segments.entries_modify_last (· ++ torn) entries
  by_contra ne
  have pos := bytes_pos weighs ne
  rw [foldl_append] at aligned
  have same := aligned _ ((BTreeMap.get?_eq_some_iff _ _ _).mpr
    (after ▸ List.mem_append_right _ (List.mem_singleton_self _)))
  simp only [spill, numbered.behind.flushed, List.nil_append, F.bytes_append] at same counted
  omega

theorem Holds.buf (h : Holds a torn w) : w.writer.buf = F.encodeAll a.pending := by
  obtain ⟨⟨segs, w₀, numbered, -, -, rfl⟩, -⟩ := h
  rw [foldl_append]
  simp only [spill, numbered.behind.flushed, List.nil_append]

theorem Holds.buf_ne_nil (h : Holds a torn w) (solid : ∀ r, F.encode r ≠ [])
    (waits : a.pending ≠ []) : w.writer.buf ≠ [] := by
  obtain ⟨r, rest, e⟩ := List.exists_cons_of_ne_nil waits
  rw [h.buf, e, F.encodeAll_cons]
  exact fun nothing => solid r (List.append_eq_nil_iff.mp nothing).1

theorem Holds.append (h : Holds a torn w) (r : ρ) :
    Holds (a.written (.append r)) torn (w.append r) := by
  obtain ⟨⟨segs, w₀, numbered, stored, idle, rfl⟩, left⟩ := h
  refine ⟨⟨segs, w₀, numbered, stored, idle, ?_⟩, ?_⟩
  · rw [append_spill, Accepted.written, List.foldl_append]
    rfl
  · rw [Accepted.written, F.encodeAll_append]
    exact left.trans (List.prefix_append _ _)

/-- A flush that succeeds with nothing left behind covers what waits. -/
theorem Holds.flush_succeeds (h : Holds a [] w)
    (pos : ∀ r ∈ a.records, 1 ≤ F.index r)
    (increasing : a.records.Pairwise (F.index · < F.index ·))
    (fits : ∀ k, w.rotationTarget = some k → k < 2 ^ 64) :
    Holds ⟨a.flushed ++ a.pending, []⟩ [] (w.flush .succeeds).1 := by
  obtain ⟨⟨segs, w₀, numbered, stored, idle, rfl⟩, -⟩ := h
  rw [spill_nil] at fits ⊢
  rw [Accepted.records, ← stored] at pos increasing
  by_cases blank : a.pending = [] ∧ ∃ k, Blank segs k
  · obtain ⟨none, k, blank⟩ := blank
    rw [none, List.foldl_nil, numbered.flush_blank blank (idle k blank), List.append_nil]
    exact ⟨⟨segs, w₀, numbered, stored, idle, by simp⟩, List.nil_prefix⟩
  · have busy : 1 ≤ w₀.maxSegmentBytes ∨ a.pending ≠ [] ∨ ∀ k, ¬ Blank segs k := by
      right
      by_contra idle
      obtain ⟨none, some⟩ := not_or.mp idle
      exact blank ⟨not_not.mp none, not_forall_not.mp some⟩
    obtain ⟨segs', numbered', stored', -, idle'⟩ :=
      numbered.flush busy pos increasing fits (flush_ok _)
    refine ⟨⟨segs', _, numbered', ?_, idle' idle, by simp⟩, List.nil_prefix⟩
    rw [stored', stored]

theorem Holds.writes {w' : WalStore F} {c : WriteCall ρ} (h : Holds a torn w)
    (solid : ∀ r, F.encode r ≠ []) (weighs : ∀ a, 1 ≤ F.weight a)
    (last : Writes w c w') (calm : w.Undisturbed c) (pos : ∀ r ∈ a.records, 1 ≤ F.index r)
    (increasing : a.records.Pairwise (F.index · < F.index ·)) :
    ∃ torn, Holds (a.written c) torn w' := by
  cases last with
  | append r => exact ⟨torn, h.append r⟩
  | @flush io _ returned creates done fits =>
    have buf := h.buf
    obtain ⟨calm, whole⟩ := calm
    by_cases passes : w.writer.buf = [] ∨ io.Passes
    · -- the flush covers what waits
      obtain rfl : torn = [] := by
        by_cases empty : a.pending = []
        · have left := h.torn
          rw [empty] at left
          exact List.prefix_nil.mp left
        · have ne := h.buf_ne_nil solid empty
          have passes := passes.resolve_left ne
          refine h.torn_eq_nil weighs (calm ?_)
          rw [whole passes]
          exact ne
      rw [flush_of_whole creates fun ne => ⟨passes.resolve_left ne, whole (passes.resolve_left ne)⟩,
        flush_ok] at done
      obtain ⟨rfl, rfl⟩ := Prod.mk.inj done
      exact ⟨[], h.flush_succeeds pos increasing (fits rfl)⟩
    · -- it leaves a part of the buffer in the file
      obtain ⟨ne, fails⟩ := not_or.mp passes
      rw [flush_fails ne fails] at done
      obtain ⟨rfl, rfl⟩ := Prod.mk.inj done
      by_cases nothing : io.reaches w.writer.buf = []
      · rw [nothing, spill_nil]
        exact ⟨torn, h⟩
      · obtain rfl := h.torn_eq_nil weighs (calm nothing)
        obtain ⟨⟨segs, w₀, numbered, stored, idle, rfl⟩, -⟩ := h
        rw [buf, spill_nil]
        exact ⟨_, ⟨segs, w₀, numbered, stored, idle, rfl⟩, io.reaches_prefix _⟩

/-- After any calls that leave each other undisturbed, the store holds what they covered. -/
theorem holds_of_run (solid : ∀ r, F.encode r ≠ []) (weighs : ∀ a, 1 ≤ F.weight a) {max : ℕ}
    {calls : List (WriteCall ρ)}
    (run : Run (fun w c w' => Writes w c w' ∧ w.Undisturbed c) (freshStart F .empty max) calls w)
    (pos : ∀ r ∈ (covered calls).records, 1 ≤ F.index r)
    (increasing : (covered calls).records.Pairwise (F.index · < F.index ·)) :
    ∃ torn, Holds (covered calls) torn w := by
  induction run with
  | nil => exact ⟨[], freshStart_holds max⟩
  | @snoc calls w c w' _ last ih =>
    rw [covered_concat] at pos increasing ⊢
    have records := (covered calls).records_written c
    have pos' : ∀ r ∈ (covered calls).records, 1 ≤ F.index r :=
      fun r mem => pos r (records.subset mem)
    have increasing' := increasing.sublist records.sublist
    obtain ⟨torn, holds⟩ := ih pos' increasing'
    exact holds.writes solid weighs last.1 last.2 pos' increasing'

/-- A replay reads what is covered, and behind it the records a failed flush left whole. -/
theorem Holds.replay {Fits : ρ → Prop} {view : ρ → ν} (h : Holds a torn w)
    (law : F.Lawful Fits view) (fits : ∀ r ∈ a.records, Fits r) :
    ∃ whole, whole <+: a.pending ∧ w.replay = ((a.flushed ++ whole).map view, none) := by
  obtain ⟨⟨segs, w₀, numbered, stored, -, rfl⟩, left⟩ := h
  obtain ⟨done, rs, split⟩ := numbered.behind.active
  have entries := numbered.behind.entries
  rw [split, List.nil_append, F.layout_append_singleton, ite_self, List.nil_append,
    F.layout_nil_base] at entries
  have after := w₀.segments.entries_modify_last (· ++ torn) entries
  have flushed : a.flushed = recordsOf done ++ rs := by
    rw [← stored, split]
    simp
  have fits' : ∀ r ∈ recordsOf done ++ rs ++ a.pending, Fits r := by
    rw [← flushed]
    exact fits
  obtain ⟨k, cut⟩ : ∃ k, torn = (F.encodeAll a.pending).take k :=
    ⟨_, List.prefix_iff_eq_take.mp left⟩
  refine ⟨F.intact k a.pending, F.intact_initial _ _, ?_⟩
  have last : F.decodeAll (F.encodeAll rs ++ torn) =
      ((rs ++ F.intact k a.pending).map view, none) := by
    rw [law.decodeAll_encodeAll_append rs torn (fun r hr => fits' r (by simp [hr])), cut,
      law.decodeAll_take a.pending k (fun r hr => fits' r (by simp [hr]))]
    simp
  have segments : ((a.pending.foldl WalStore.append w₀).spill torn).segments.entries =
      done.map (fun seg => (seg.1, F.encodeAll seg.2)) ++
        [(w₀.writer.file, F.encodeAll rs ++ torn)] := by
    rw [foldl_append]
    exact after
  rw [WalStore.replay, segments, replaySegments_append _ _ _
    (replaySegments_encoded law done (fun r hr => fits' r (by simp [hr])))]
  simp only [replaySegments, last, flushed]
  simp

end Holds

section OnDisk
open Record
variable {checksum : List UInt8 → BitVec 128} {w : WalStore (logFormat checksum)}

/-- The replay ends without an error, and returns each of these records once and in order. -/
def Readable (w : WalStore (logFormat checksum)) (records : List Record) : Prop :=
  ∃ read, w.replay = (read, none) ∧
    read.filter (· ∈ records.map view) = records.map view

/-- While no flush puts bytes behind those a failed one has left, and none returns `Ok` with a part
of the buffer lost, every record that a flush covered is read back. -/
theorem retried_flush_readable {max : ℕ} {calls : List (WriteCall Record)}
    (run : Run (fun w c w' => Writes w c w' ∧ w.Undisturbed c)
      (freshStart (logFormat checksum) .empty max) calls w)
    (fits : ∀ r ∈ (covered calls).records, r.Fits)
    (pos : ∀ r ∈ (covered calls).records, 1 ≤ r.index.toNat)
    (increasing : (covered calls).records.Pairwise (·.index.toNat < ·.index.toNat)) :
    w.Readable (covered calls).flushed := by
  have solid : ∀ r : Record, (logFormat checksum).encode r ≠ [] := bytes_ne_nil checksum
  obtain ⟨torn, holds⟩ := holds_of_run solid (fun _ => le_refl 1) run pos increasing
  obtain ⟨whole, front, read⟩ := holds.replay (logFormat_lawful checksum) fits
  refine ⟨_, read, ?_⟩
  have later : ∀ v ∈ whole.map view, v ∉ (covered calls).flushed.map view := by
    intro v mem covered
    obtain ⟨r, hr, rfl⟩ := List.mem_map.mp mem
    obtain ⟨q, hq, same⟩ := List.mem_map.mp covered
    have lt := (List.pairwise_append.mp increasing).2.2 q hq r (front.subset hr)
    have index : q.index = r.index := congrArg Prod.fst same
    rw [index] at lt
    exact lt.false
  have none : (whole.map view).filter (· ∈ (covered calls).flushed.map view) = [] := by
    apply List.filter_eq_nil_iff.mpr
    intro v mem
    simpa using later v mem
  have all : ((covered calls).flushed.map view).filter
      (· ∈ (covered calls).flushed.map view) = (covered calls).flushed.map view := by
    apply List.filter_eq_self.mpr
    intro v mem
    simpa using mem
  rw [List.map_append, List.filter_append, all, none, List.append_nil]

/-- The second of two records is written and then not synced: the first one is read back. -/
theorem retried_flush_readable_once :
    ∃ w : WalStore (logFormat fun _ => 1), w.Readable [⟨1, 1, 1, 0, []⟩] := by
  let r : Record := ⟨1, 1, 1, 0, []⟩
  let q : Record := ⟨1, 2, 1, 0, []⟩
  let w₀ : WalStore (logFormat fun _ => 1) := freshStart _ .empty 1000
  let w₁ := w₀.append r
  let w₂ := (w₁.flush .succeeds).1
  let w₃ := w₂.append q
  let w₄ := w₃.spill w₃.writer.buf
  have full : w₁.rotationTarget = none := by decide +kernel
  have succeeds : Writes w₁ (.flush .succeeds (.ok ())) w₂ := by
    refine .flush rfl (flush_ok w₁) (fun _ k target => ?_)
    rw [full] at target
    cases target
  have ne : w₃.writer.buf ≠ [] := by decide +kernel
  have fails : Writes w₃ (.flush .syncFails (.error .io)) w₄ :=
    .flush rfl (flush_fails ne id) (fun ok => by cases ok)
  have aligned : w₁.Aligned := by
    intro data stored
    have empty : w₁.segments.get? w₁.writer.file = some [] := by rfl
    rw [empty] at stored
    cases stored
    decide +kernel
  have aligned' : w₃.Aligned := by
    intro data stored
    have one : w₃.segments.get? w₃.writer.file = some (r.bytes fun _ => 1) := by decide +kernel
    rw [one] at stored
    cases stored
    decide +kernel
  have run : Run (fun w c w' => Writes w c w' ∧ w.Undisturbed c) w₀ _ w₄ :=
    (((Run.single ⟨.append r, trivial⟩).snoc ⟨succeeds, fun _ => aligned, fun _ => rfl⟩).snoc
      ⟨.append q, trivial⟩).snoc ⟨fails, fun _ => aligned', fun passes => passes.elim⟩
  have readable := retried_flush_readable run
    (by show ∀ p ∈ [r, q], p.Fits; decide)
    (by show ∀ p ∈ [r, q], 1 ≤ p.index.toNat; decide)
    (by show [r, q].Pairwise (·.index.toNat < ·.index.toNat); decide)
  exact ⟨w₄, readable⟩

/-- A record that is written and then not synced stands in the file a second time when the flush is
retried, whatever the checksum function. -/
theorem retried_record_doubled :
    ¬ ∃ checksum, ∀ max calls (w : WalStore (logFormat checksum)),
      Run Writes (freshStart (logFormat checksum) .empty max) calls w →
      (∀ r ∈ (covered calls).records, r.Fits) →
      (∀ r ∈ (covered calls).records, 1 ≤ r.index.toNat) →
      (covered calls).records.Pairwise (·.index.toNat < ·.index.toNat) →
      w.Readable (covered calls).flushed := by
  rintro ⟨checksum, all⟩
  let r : Record := ⟨1, 1, 1, 0, []⟩
  let w₀ : WalStore (logFormat checksum) := freshStart _ .empty 1000
  let w₁ := w₀.append r
  let w₂ := w₁.spill (r.bytes checksum)
  have counted : w₁.writer.bytesWritten = 38 := by
    have size : w₁.writer.bytesWritten = 0 + (logFormat checksum).bytes (r.bytes checksum) := rfl
    have length : (r.bytes checksum).length = 38 := bytes_length checksum r
    rw [size, bytes_logFormat, length]
  have fails : Writes w₁ (.flush .syncFails (.error .io)) w₂ :=
    .flush rfl (flush_fails (bytes_ne_nil checksum r) id) (fun ok => by cases ok)
  have small : ¬ w₂.maxSegmentBytes ≤ w₂.writer.bytesWritten := by
    show ¬ 1000 ≤ w₁.writer.bytesWritten
    rw [counted]
    decide
  obtain ⟨w₃, hw₃⟩ : ∃ w₃, w₃ = (w₂.flush .succeeds).1 := ⟨_, rfl⟩
  have succeeds : Writes w₂ (.flush .succeeds (.ok ())) w₃ := by
    refine .flush rfl (hw₃ ▸ flush_ok w₂) (fun _ k target => ?_)
    rw [rotationTarget, if_neg small] at target
    cases target
  have entries : w₃.segments.entries =
      [(1, [r, r])].map (fun seg => (seg.1, (logFormat checksum).encodeAll seg.2)) := by
    have twice : (logFormat checksum).encodeAll [r, r] = r.bytes checksum ++ r.bytes checksum := by
      rw [Codec.encodeAll_cons, Codec.encodeAll_cons, Codec.encodeAll_nil, List.append_nil]
      rfl
    rw [hw₃, flush_succeeds]
    simp only [if_neg small, List.map_cons, List.map_nil, twice]
    rfl
  have readable := all 1000 _ w₃ (((Run.single (.append r)).snoc fails).snoc succeeds)
    (by show ∀ q ∈ [r], q.Fits; decide)
    (by show ∀ q ∈ [r], 1 ≤ q.index.toNat; decide)
    (by show [r].Pairwise (·.index.toNat < ·.index.toNat); decide)
  have read : w₃.replay = ([r.view, r.view], none) := by
    rw [WalStore.replay, entries]
    exact replaySegments_encoded (logFormat_lawful checksum) [(1, [r, r])]
      (by show ∀ q ∈ [r, r], q.Fits; decide)
  obtain ⟨read', same, once⟩ := readable
  rw [read] at same
  obtain ⟨rfl, -⟩ := Prod.mk.inj same
  have lengths := congrArg List.length once
  simp [covered, Accepted.written] at lengths

end OnDisk
end WalStore
end TinyKeeper
