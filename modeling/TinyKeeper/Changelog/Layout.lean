import TinyKeeper.Changelog.WalStore

/-! Where appended records lie: batch after batch behind the bytes a segment had when the store
was opened, and in the segments started since. -/
namespace TinyKeeper
variable {α ρ ν : Type*}

/-- The records of some segments, each given by its first index and its records. -/
def recordsOf (segs : List (ℕ × List ρ)) : List ρ := segs.flatMap Prod.snd

@[simp] theorem recordsOf_append (segs segs' : List (ℕ × List ρ)) :
    recordsOf (segs ++ segs') = recordsOf segs ++ recordsOf segs' := by
  simp [recordsOf]

@[simp] theorem recordsOf_nil : recordsOf ([] : List (ℕ × List ρ)) = [] := rfl

@[simp] theorem recordsOf_cons (seg : ℕ × List ρ) (segs : List (ℕ × List ρ)) :
    recordsOf (seg :: segs) = seg.2 ++ recordsOf segs := rfl

namespace LogFormat
variable (F : LogFormat α ρ ν)

/-- The index after the last record. -/
def nextIndex (rs : List ρ) : ℕ := (rs.getLast?.map F.index).getD 0 + 1

/-- The files of some segments; the first one starts with the bytes `base`. -/
def layout (base : List α) : List (ℕ × List ρ) → List (ℕ × List α)
  | [] => []
  | seg :: segs =>
    (seg.1, base ++ F.encodeAll seg.2) :: segs.map (fun seg => (seg.1, F.encodeAll seg.2))

theorem layout_nil_base (segs : List (ℕ × List ρ)) :
    F.layout [] segs = segs.map (fun seg => (seg.1, F.encodeAll seg.2)) := by
  cases segs <;> simp [layout]

theorem layout_append_singleton (base : List α) (done : List (ℕ × List ρ)) (k : ℕ)
    (rs : List ρ) :
    F.layout base (done ++ [(k, rs)]) =
      F.layout base done ++ [(k, (if done = [] then base else []) ++ F.encodeAll rs)] := by
  cases done <;> simp [layout]

/-- The segments after a batch went to the last one, which is closed once it is full. -/
def grow (maxSegmentBytes : ℕ) (base : List α) (done : List (ℕ × List ρ)) (k : ℕ)
    (rs : List ρ) : List (ℕ × List ρ) :=
  if maxSegmentBytes ≤ F.bytes ((if done = [] then base else []) ++ F.encodeAll rs) then
    done ++ [(k, rs)] ++ [(F.nextIndex (recordsOf (done ++ [(k, rs)])), [])]
  else done ++ [(k, rs)]

theorem recordsOf_grow (maxSegmentBytes : ℕ) (base : List α) (done : List (ℕ × List ρ)) (k : ℕ)
    (rs : List ρ) : recordsOf (F.grow maxSegmentBytes base done k rs) = recordsOf done ++ rs := by
  unfold grow
  split_ifs <;> simp

/-- The segments after a batch went to the last of them. -/
def place (maxSegmentBytes : ℕ) (base : List α) (segs : List (ℕ × List ρ)) (batch : List ρ) :
    List (ℕ × List ρ) :=
  match segs.getLast? with
  | none => []
  | some (k, rs) => F.grow maxSegmentBytes base segs.dropLast k (rs ++ batch)

theorem place_append_singleton (maxSegmentBytes : ℕ) (base : List α) (done : List (ℕ × List ρ))
    (k : ℕ) (rs batch : List ρ) :
    F.place maxSegmentBytes base (done ++ [(k, rs)]) batch =
      F.grow maxSegmentBytes base done k (rs ++ batch) := by
  simp [place]

theorem recordsOf_place (maxSegmentBytes : ℕ) (base : List α) (segs : List (ℕ × List ρ))
    (batch : List ρ) (h : segs ≠ []) :
    recordsOf (F.place maxSegmentBytes base segs batch) = recordsOf segs ++ batch := by
  obtain ⟨done, ⟨k, rs⟩, rfl⟩ := (List.eq_nil_or_concat' segs).resolve_left h
  rw [place_append_singleton, recordsOf_grow]
  simp

/-- Batches never touch the first index of the first segment. -/
theorem head_place (maxSegmentBytes : ℕ) (base : List α) (segs : List (ℕ × List ρ))
    (batch : List ρ) (h : segs ≠ []) :
    (F.place maxSegmentBytes base segs batch).head?.map Prod.fst = segs.head?.map Prod.fst := by
  obtain ⟨done, ⟨k, rs⟩, rfl⟩ := (List.eq_nil_or_concat' segs).resolve_left h
  rw [place_append_singleton, grow]
  cases done <;> split_ifs <;> rfl

theorem place_ne_nil (maxSegmentBytes : ℕ) (base : List α) (segs : List (ℕ × List ρ))
    (batch : List ρ) (h : segs ≠ []) : F.place maxSegmentBytes base segs batch ≠ [] := by
  obtain ⟨done, ⟨k, rs⟩, rfl⟩ := (List.eq_nil_or_concat' segs).resolve_left h
  rw [place_append_singleton, grow]
  split_ifs <;> simp

theorem foldl_place (maxSegmentBytes : ℕ) (base : List α) (segs : List (ℕ × List ρ))
    (batches : List (List ρ)) (h : segs ≠ []) :
    (batches.foldl (F.place maxSegmentBytes base) segs).head?.map Prod.fst =
        segs.head?.map Prod.fst ∧
      recordsOf (batches.foldl (F.place maxSegmentBytes base) segs) =
        recordsOf segs ++ batches.flatten := by
  induction batches generalizing segs with
  | nil => simp
  | cons batch batches ih =>
    obtain ⟨head, records⟩ := ih _ (F.place_ne_nil maxSegmentBytes base segs batch h)
    rw [List.foldl_cons, head, records, F.head_place _ _ _ _ h, F.recordsOf_place _ _ _ _ h]
    simp

/-- Placing depends on a format only through the indices and the sizes of the records. -/
theorem place_congr {α' ν' : Type*} (F' : LogFormat α' ρ ν') (index : F'.index = F.index)
    (size : ∀ r, F'.bytes (F'.encode r) = F.bytes (F.encode r)) (maxSegmentBytes : ℕ)
    (segs : List (ℕ × List ρ)) (batch : List ρ) :
    F'.place maxSegmentBytes [] segs batch = F.place maxSegmentBytes [] segs batch := by
  have sizes (rs : List ρ) : F'.bytes (F'.encodeAll rs) = F.bytes (F.encodeAll rs) := by
    induction rs with
    | nil => rfl
    | cons r rs ih => rw [F'.encodeAll_cons, F.encodeAll_cons, bytes_append, bytes_append, size, ih]
  simp only [place, grow, nextIndex, index, ite_self, List.nil_append, sizes]

theorem nextIndex_append (rs batch : List ρ) (h : batch ≠ []) :
    F.nextIndex (rs ++ batch) = F.nextIndex batch := by
  obtain ⟨init, r, rfl⟩ := List.eq_nil_or_concat' batch |>.resolve_left h
  simp [nextIndex, ← List.append_assoc]

end LogFormat

namespace WalStore
variable {F : LogFormat α ρ ν} {init : List (ℕ × List α)} {base : List α}
variable {segs done : List (ℕ × List ρ)} {k : ℕ} {rs batch : List ρ} {w : WalStore F}

/-- The store holds the closed segments `init`, and behind them `segs`, of which the first starts
with the bytes `base`. The writer is on the last one, nothing waits in its buffer, and every
segment after the first was started at the index that followed. -/
structure Behind (init : List (ℕ × List α)) (base : List α) (segs : List (ℕ × List ρ))
    (w : WalStore F) : Prop where
  entries : w.segments.entries = init ++ F.layout base segs
  active : ∃ done rs, segs = done ++ [(w.writer.file, rs)]
  counted : ∀ file data, w.segments.entries.getLast? = some (file, data) →
    w.writer.bytesWritten = F.bytes data
  flushed : w.writer.buf = []
  keyed : ∀ d seg, d ++ [seg] <+: segs → d ≠ [] →
    recordsOf d ≠ [] ∧ seg.1 = F.nextIndex (recordsOf d)

theorem Behind.file_eq (h : Behind init base (done ++ [(k, rs)]) w) : w.writer.file = k := by
  obtain ⟨d, rs', e⟩ := h.active
  have last := (List.append_inj' e rfl).2
  simp only [List.cons.injEq, Prod.mk.injEq] at last
  exact last.1.1.symm

/-- The last segment was started at or before the index of any record still to come. -/
theorem Behind.file_le (h : Behind init base (done ++ [(k, rs)]) w) {k₀ : ℕ}
    (head : ((done ++ [(k, rs)]).head?).map Prod.fst = some k₀) {r : ρ} (first : k₀ ≤ F.index r)
    (later : ∀ q ∈ recordsOf done, F.index q < F.index r) : k ≤ F.index r := by
  by_cases single : done = []
  · subst single
    simp only [List.nil_append, List.head?_cons, Option.map_some, Option.some.injEq] at head
    exact head ▸ first
  · obtain ⟨ne, started⟩ := h.keyed done (k, rs) (List.prefix_refl _) single
    obtain ⟨front, q, split⟩ := (List.eq_nil_or_concat' _).resolve_left ne
    have before := later q (by simp [split])
    simp only [split, LogFormat.nextIndex, List.getLast?_concat] at started
    simp only [Option.map_some, Option.getD_some] at started
    omega

theorem Behind.segs_ne_nil (h : Behind init base segs w) : segs ≠ [] := by
  obtain ⟨done, rs, rfl⟩ := h.active
  simp

/-- The bytes of a batch go behind those of the last segment. -/
theorem Behind.grown (h : Behind init base (done ++ [(k, rs)]) w) (batch : List ρ)
    (lastIndex : ℕ) :
    Behind init base (done ++ [(k, rs ++ batch)]) ({ w with
      segments := w.segments.modify k (· ++ F.encodeAll batch)
      writer := ⟨k, [], w.writer.bytesWritten + F.bytes (F.encodeAll batch)⟩
      lastIndex := lastIndex } : WalStore F) := by
  obtain ⟨data, hdata⟩ : ∃ data, data = (if done = [] then base else []) ++ F.encodeAll rs :=
    ⟨_, rfl⟩
  have entries : w.segments.entries = (init ++ F.layout base done) ++ [(k, data)] := by
    rw [h.entries, F.layout_append_singleton, ← hdata, List.append_assoc]
  have written := w.segments.entries_modify_last (· ++ F.encodeAll batch) entries
  refine ⟨?_, ⟨done, rs ++ batch, rfl⟩, ?_, rfl, ?_⟩
  · rw [written, F.layout_append_singleton, F.encodeAll_append, hdata]
    simp only [List.append_assoc]
  · intro file data' last
    rw [written, List.getLast?_concat] at last
    cases last
    rw [h.counted k data (by rw [entries, List.getLast?_concat]), F.bytes_append]
  · intro d seg pre hd
    obtain e | pre := List.prefix_concat_iff.mp pre
    · obtain ⟨rfl, rfl⟩ := List.append_singleton_inj.mp e
      exact h.keyed d (k, rs) (List.prefix_refl _) hd
    · exact h.keyed d seg (pre.trans (List.prefix_append _ _)) hd

/-- Starting the next segment. -/
theorem Behind.rotated (h : Behind init base segs w) (ne : recordsOf segs ≠ []) {k : ℕ}
    (next : k = F.nextIndex (recordsOf segs)) (above : ∀ e ∈ w.segments.entries, e.1 < k) :
    Behind init base (segs ++ [(k, [])])
      ({ w with segments := w.segments.insert k [], writer := ⟨k, [], 0⟩ } : WalStore F) := by
  have entries := w.segments.entries_insert_of_forall_lt k [] above
  refine ⟨?_, ⟨segs, [], rfl⟩, ?_, rfl, ?_⟩
  · rw [entries, h.entries, F.layout_append_singleton, if_neg h.segs_ne_nil, List.append_assoc]
    simp
  · intro file data last
    rw [entries, List.getLast?_concat] at last
    cases last
    rfl
  · intro d seg pre hd
    obtain e | pre := List.prefix_concat_iff.mp pre
    · obtain ⟨rfl, rfl⟩ := List.append_singleton_inj.mp e
      exact ⟨ne, next⟩
    · exact h.keyed d seg pre hd

/-- Appending a batch and flushing it puts it at the end of the last segment. -/
theorem Behind.appendBatch (h : Behind init base (done ++ [(k, rs)]) w) (ne : batch ≠ [])
    (fresh : ∀ r ∈ batch, k ≤ F.index r) :
    Behind init base (F.grow w.maxSegmentBytes base done k (rs ++ batch))
      (w.appendBatch batch).1 := by
  have grown := h.grown batch ((batch.getLast?.map F.index).getD w.lastIndex)
  have next : (batch.getLast?.map F.index).getD w.lastIndex + 1 =
      F.nextIndex (recordsOf (done ++ [(k, rs ++ batch)])) := by
    rw [recordsOf_append, recordsOf_cons, recordsOf_nil, List.append_nil, ← List.append_assoc,
      F.nextIndex_append _ _ ne]
    obtain ⟨front, r, rfl⟩ := (List.eq_nil_or_concat' batch).resolve_left ne
    simp [LogFormat.nextIndex]
  have after : k < F.nextIndex (recordsOf (done ++ [(k, rs ++ batch)])) := by
    rw [← next]
    obtain ⟨front, r, rfl⟩ := (List.eq_nil_or_concat' batch).resolve_left ne
    have := fresh r (by simp)
    simp only [List.getLast?_concat, Option.map_some, Option.getD_some]
    omega
  obtain ⟨data, same⟩ : ∃ data,
      data = (if done = [] then base else []) ++ F.encodeAll (rs ++ batch) := ⟨_, rfl⟩
  have entries := grown.entries
  rw [F.layout_append_singleton, ← same, ← List.append_assoc] at entries
  have counted : w.writer.bytesWritten + F.bytes (F.encodeAll batch) = F.bytes data :=
    grown.counted k data (by rw [entries, List.getLast?_concat])
  simp only [WalStore.appendBatch, foldl_append, flush_succeeds, h.flushed, List.nil_append,
    h.file_eq, next, LogFormat.grow, ← same, ← counted]
  by_cases full : w.maxSegmentBytes ≤ w.writer.bytesWritten + F.bytes (F.encodeAll batch)
  · rw [if_pos full, if_pos full]
    refine grown.rotated (by simp [ne]) rfl fun e mem => ?_
    rw [entries] at mem
    obtain mem | mem := List.mem_append.mp mem
    · exact (BTreeMap.key_lt_of_entries_eq _ entries e mem).trans after
    · rw [List.mem_singleton.mp mem]
      exact after
  · rw [if_neg full, if_neg full]
    exact grown

theorem maxSegmentBytes_appendBatch (w : WalStore F) (batch : List ρ) :
    (w.appendBatch batch).1.maxSegmentBytes = w.maxSegmentBytes := by
  simp only [WalStore.appendBatch, foldl_append, flush_succeeds]
  split_ifs <;> rfl

theorem appendBatch_ok (w : WalStore F) (batch : List ρ) : (w.appendBatch batch).2 = .ok () := by
  simp only [WalStore.appendBatch, flush_succeeds]
  split_ifs <;> rfl

/-- Batches with increasing indices fill the segments one after another. -/
theorem Behind.appendBatches (h : Behind init base segs w) {k₀ : ℕ}
    (head : segs.head?.map Prod.fst = some k₀) (batches : List (List ρ))
    (ne : ∀ batch ∈ batches, batch ≠ []) (first : ∀ r ∈ batches.flatten, k₀ ≤ F.index r)
    (increasing : (recordsOf segs ++ batches.flatten).Pairwise (F.index · < F.index ·)) :
    Behind init base (batches.foldl (F.place w.maxSegmentBytes base) segs)
      (w.appendBatches batches) := by
  induction batches generalizing segs w with
  | nil => exact h
  | cons batch batches ih =>
    obtain ⟨done, ⟨k, rs⟩, rfl⟩ := (List.eq_nil_or_concat' segs).resolve_left h.segs_ne_nil
    have fresh : ∀ r ∈ batch, k ≤ F.index r := by
      intro r hr
      have mem : r ∈ (batch :: batches).flatten := by simp [hr]
      refine h.file_le head (first r mem) ?_
      intro q hq
      exact (List.pairwise_append.mp increasing).2.2 q (by simp [hq]) r mem
    have step := h.appendBatch (ne batch (by simp)) fresh
    rw [← F.place_append_singleton] at step
    have rest := ih step (by rw [F.head_place _ _ _ _ (by simp), head])
      (fun b hb => ne b (List.mem_cons_of_mem _ hb))
      (fun r hr => first r (by
        rw [List.flatten_cons]
        exact List.mem_append_right _ hr))
      (by simpa [F.recordsOf_place _ _ _ _ (by simp : done ++ [(k, rs)] ≠ [])] using increasing)
    rw [maxSegmentBytes_appendBatch] at rest
    exact rest

theorem replaySegments_append (a b : List (ℕ × List α)) (read : List ν)
    (h : replaySegments F a = (read, none)) :
    replaySegments F (a ++ b) = (read ++ (replaySegments F b).1, (replaySegments F b).2) := by
  induction a generalizing read with
  | nil =>
    obtain rfl : [] = read := congrArg Prod.fst h
    rfl
  | cons segment a ih =>
    rw [List.cons_append]
    simp only [replaySegments] at h ⊢
    cases hd : F.decodeAll segment.2 with
    | mk vs o =>
      cases o with
      | some e => simp [hd] at h
      | none =>
        simp only [hd, Prod.mk.injEq] at h ⊢
        rw [ih _ (Prod.ext rfl h.2)]
        simp [← h.1]

section Lawful
variable {Fits : ρ → Prop} {view : ρ → ν} (law : F.Lawful Fits view)
include law

theorem replaySegments_encoded (segs : List (ℕ × List ρ)) (fits : ∀ r ∈ recordsOf segs, Fits r) :
    replaySegments F (segs.map (fun seg => (seg.1, F.encodeAll seg.2))) =
      ((recordsOf segs).map view, none) := by
  induction segs with
  | nil => rfl
  | cons seg segs ih =>
    have here := law.decodeAll_encodeAll seg.2 (fun r hr => fits r (by simp [hr]))
    simp only [List.map_cons, replaySegments, here,
      ih (fun r hr => fits r (by simp [hr]))]
    simp

/-- A store that was just opened replays the directory it was opened on. -/
theorem replay_of_open {dir : Segments α} {max : ℕ} {w : WalStore F}
    (h : WalStore.open F dir max = .ok w) : w.replay = replaySegments F dir.entries := by
  unfold WalStore.open at h
  cases last : dir.lastKeyValue with
  | none =>
    have empty : dir.entries = [] := List.getLast?_eq_none_iff.mp last
    have only := dir.entries_insert_of_forall_lt 1 [] (by simp [empty])
    rw [last, Except.ok.injEq] at h
    rw [← h, WalStore.replay, freshStart, only, empty]
    simp [replaySegments, F.decodeAll_none [] law.decode_nil]
  | some segment =>
    obtain ⟨first, data⟩ := segment
    rw [last] at h
    simp only at h
    cases decoded : F.decodeAll data with
    | mk read stop =>
      cases stop with
      | some e => simp [decoded] at h
      | none =>
        rw [decoded, Except.ok.injEq] at h
        rw [← h]
        rfl

/-- What a replay of the store reads: the closed segments, the first segment with the bytes it
began with, and every record after that. -/
theorem Behind.replay {k : ℕ} {rs : List ρ} {rest : List (ℕ × List ρ)} {read : List ν}
    (h : Behind init base ((k, rs) :: rest) w)
    (closed : replaySegments F init = (read, none)) (fits : ∀ r ∈ recordsOf rest, Fits r) :
    w.replay = match F.decodeAll (base ++ F.encodeAll rs) with
      | (vs, some e) => (read ++ vs, some e)
      | (vs, none) => (read ++ vs ++ (recordsOf rest).map view, none) := by
  rw [WalStore.replay, h.entries, replaySegments_append _ _ read closed, LogFormat.layout]
  simp only [replaySegments, replaySegments_encoded law rest fits]
  cases F.decodeAll (base ++ F.encodeAll rs) with
  | mk vs o => cases o <;> simp

end Lawful

/-- The store holds exactly these records, with nothing torn and nothing left in the buffer. -/
def Settled (w : WalStore F) (recs : List ρ) : Prop :=
  ∃ segs, Behind [] [] segs w ∧ segs.head?.map Prod.fst = some 1 ∧ recordsOf segs = recs

theorem Settled.replay {recs : List ρ} (h : Settled w recs) {Fits : ρ → Prop} {view : ρ → ν}
    (law : F.Lawful Fits view) (fits : ∀ r ∈ recs, Fits r) :
    w.replay = (recs.map view, none) := by
  obtain ⟨segs, behind, -, rfl⟩ := h
  obtain ⟨⟨k, rs⟩, rest, rfl⟩ := List.exists_cons_of_ne_nil behind.segs_ne_nil
  rw [behind.replay law rfl (fun r hr => fits r (by simp [hr])), List.nil_append,
    law.decodeAll_encodeAll rs (fun r hr => fits r (by simp [hr]))]
  simp

theorem Settled.appendBatches {recs : List ρ} (h : Settled w recs) (batches : List (List ρ))
    (ne : ∀ batch ∈ batches, batch ≠ []) (pos : ∀ r ∈ batches.flatten, 1 ≤ F.index r)
    (increasing : (recs ++ batches.flatten).Pairwise (F.index · < F.index ·)) :
    Settled (w.appendBatches batches) (recs ++ batches.flatten) := by
  obtain ⟨segs, behind, head, rfl⟩ := h
  obtain ⟨head', records⟩ :=
    F.foldl_place w.maxSegmentBytes [] segs batches behind.segs_ne_nil
  exact ⟨_, behind.appendBatches head batches ne pos increasing, by rw [head', head], records⟩

/-- Opening a directory whose last segment decodes keeps all of it and writes behind it. -/
theorem open_of_decodes (dir : Segments α) (max : ℕ) {closed : List (ℕ × List α)} {k : ℕ}
    {data : List α} {read : List ν} (entries : dir.entries = closed ++ [(k, data)])
    (decodes : F.decodeAll data = (read, none)) :
    ∃ w, WalStore.open F dir max = .ok w ∧ w.segments = dir ∧ w.writer = ⟨k, [], F.bytes data⟩ ∧
      w.maxSegmentBytes = max := by
  have last : dir.lastKeyValue = some (k, data) := by
    rw [BTreeMap.lastKeyValue, entries, List.getLast?_concat]
  simp only [WalStore.open, last, decodes]
  exact ⟨_, rfl, rfl, rfl, rfl⟩

theorem freshStart_behind (max : ℕ) :
    Behind [] [] [(1, [])] (freshStart F BTreeMap.empty max) := by
  refine ⟨rfl, ⟨[], [], rfl⟩, ?_, rfl, ?_⟩
  · rintro file data h
    cases h
    rfl
  · intro d seg pre hd
    have := pre.length_le
    cases d with
    | nil => exact absurd rfl hd
    | cons e d => simp at this

theorem freshStart_settled (max : ℕ) : Settled (freshStart F BTreeMap.empty max) [] :=
  ⟨[(1, [])], freshStart_behind max, rfl, rfl⟩

/-- A clean restart finds the records where they were. -/
theorem Settled.reopen {recs : List ρ} (h : Settled w recs) {Fits : ρ → Prop} {view : ρ → ν}
    (law : F.Lawful Fits view) (fits : ∀ r ∈ recs, Fits r) (max : ℕ) :
    ∃ w', WalStore.open F w.segments max = .ok w' ∧ Settled w' recs ∧
      w'.segments = w.segments ∧ w'.maxSegmentBytes = max := by
  obtain ⟨segs, behind, head, rfl⟩ := h
  obtain ⟨done, rs, rfl⟩ := behind.active
  have entries := behind.entries
  rw [List.nil_append, F.layout_append_singleton, ite_self, List.nil_append] at entries
  obtain ⟨w', opened, segments, writer, maxBytes⟩ := open_of_decodes w.segments max entries
    (law.decodeAll_encodeAll rs (fun r hr => fits r (by simp [hr])))
  refine ⟨w', opened, ⟨_, ⟨?_, ⟨done, rs, ?_⟩, ?_, ?_, behind.keyed⟩, head, rfl⟩, segments,
    maxBytes⟩
  · rw [segments, behind.entries]
  · rw [writer]
  · intro file data last
    rw [segments, entries, List.getLast?_concat] at last
    cases last
    rw [writer]
  · rw [writer]

end WalStore
end TinyKeeper
