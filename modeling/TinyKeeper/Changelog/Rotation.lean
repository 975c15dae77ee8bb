import TinyKeeper.Changelog.Directory
import TinyKeeper.Changelog.Layout
import TinyKeeper.Lib.Run

/-! Rotation and reopening. The name of a segment, the highest index of a store and its byte
counter stay in step over every mix of appends, flushes, and closing and opening again. -/
namespace TinyKeeper
variable {α ρ ν : Type*}

/-- The calls of the owner of a store; a reopening comes with the listing of the directory. -/
inductive StoreCall (α ρ : Type*)
  | append (r : ρ)
  | flush
  | reopen (listing : List (String × List α))

/-- The records a store was given: those a flush has covered, and those still in the buffer. -/
structure Accepted (ρ : Type*) where
  flushed : List ρ
  pending : List ρ

def Accepted.records (a : Accepted ρ) : List ρ := a.flushed ++ a.pending

def Accepted.next (a : Accepted ρ) : StoreCall α ρ → Accepted ρ
  | .append r => ⟨a.flushed, a.pending ++ [r]⟩
  | .flush => ⟨a.flushed ++ a.pending, []⟩
  | .reopen _ => a

def accepted (calls : List (StoreCall α ρ)) : Accepted ρ := calls.foldl Accepted.next ⟨[], []⟩

@[simp] theorem accepted_concat (calls : List (StoreCall α ρ)) (c : StoreCall α ρ) :
    accepted (calls ++ [c]) = (accepted calls).next c := by
  simp [accepted]

theorem Accepted.records_next (a : Accepted ρ) (c : StoreCall α ρ) :
    a.records <+: (a.next c).records ∧ a.flushed <+: (a.next c).flushed := by
  cases c with
  | append r => simp [records, next, ← List.append_assoc]
  | flush => simp [records, next]
  | reopen listing => simp [next]

namespace WalStore
variable {F : LogFormat α ρ ν} {w w' : WalStore F}

/-- The segment that the next flush starts, when the active one is full. -/
def rotationTarget (w : WalStore F) : Option ℕ :=
  if w.maxSegmentBytes ≤ w.writer.bytesWritten then some (w.lastIndex + 1) else none

/-- One call, all files working. The addition in `rotate` does not overflow, and a store is closed
with nothing in its buffer. -/
inductive Serves (w : WalStore F) : StoreCall α ρ → WalStore F → Prop
  | append (r : ρ) : Serves w (.append r) (w.append r)
  | flush {w' : WalStore F} (fits : ∀ k, w.rotationTarget = some k → k < 2 ^ 64)
      (done : w.flush .succeeds = (w', .ok ())) : Serves w .flush w'
  | reopen {listing : List (String × List α)} {w' : WalStore F} (closed : w.writer.buf = [])
      (listed : listing.Perm (filesOf w.segments))
      (opened : WalStore.open F (scanDir listing) w.maxSegmentBytes = .ok w') :
      Serves w (.reopen listing) w'

/-- The store holds these segments from index 1 on, and its highest index is that of the last
record of the active segment, if there is one. -/
structure Numbered (segs : List (ℕ × List ρ)) (w : WalStore F) : Prop where
  behind : Behind [] [] segs w
  head : segs.head?.map Prod.fst = some 1
  last : ∀ done k rs r, segs = done ++ [(k, rs ++ [r])] → w.lastIndex = F.index r
  small : ∀ seg ∈ segs, seg.1 < 2 ^ 64

section Numbered
variable {segs : List (ℕ × List ρ)} {pending : List ρ}

theorem mem_entries_iff (h : Behind [] [] segs w) (k : ℕ) :
    (∃ data, (k, data) ∈ w.segments.entries) ↔ ∃ rs, (k, rs) ∈ segs := by
  rw [h.entries, List.nil_append, F.layout_nil_base]
  constructor
  · rintro ⟨data, mem⟩
    obtain ⟨seg, here, same⟩ := List.mem_map.mp mem
    obtain ⟨rfl, -⟩ := Prod.mk.inj same
    exact ⟨seg.2, here⟩
  · rintro ⟨rs, mem⟩
    exact ⟨_, List.mem_map.mpr ⟨(k, rs), mem, rfl⟩⟩

theorem Numbered.small_entries (h : Numbered segs w) : ∀ e ∈ w.segments.entries, e.1 < 2 ^ 64 := by
  intro e mem
  obtain ⟨rs, here⟩ := (mem_entries_iff h.behind e.1).mp ⟨e.2, mem⟩
  exact h.small _ here

/-- Every segment was started at or before the index of a record that follows all stored ones. -/
theorem Numbered.key_le (h : Numbered segs w) {done : List (ℕ × List ρ)} {k : ℕ} {rs : List ρ}
    (split : segs = done ++ [(k, rs)]) {r : ρ} (first : 1 ≤ F.index r)
    (later : ∀ q ∈ recordsOf done, F.index q < F.index r) :
    ∀ e ∈ w.segments.entries, e.1 ≤ F.index r := by
  have behind := h.behind
  have head := h.head
  rw [split] at behind head
  have le : k ≤ F.index r := behind.file_le head first later
  have entries := behind.entries
  rw [List.nil_append, F.layout_append_singleton] at entries
  intro e mem
  rw [entries] at mem
  obtain mem | mem := List.mem_append.mp mem
  · exact ((w.segments.key_lt_of_entries_eq entries e mem).le).trans le
  · rw [List.mem_singleton.mp mem]
    exact le

theorem modify_append_nil (m : Segments α) (k : ℕ) : m.modify k (· ++ []) = m := by
  apply BTreeMap.ext_mem
  intro e
  simp [BTreeMap.modify]

theorem rotationTarget_foldl (w : WalStore F) (pending : List ρ) :
    (pending.foldl append w).rotationTarget =
      if w.maxSegmentBytes ≤ w.writer.bytesWritten + F.bytes (F.encodeAll pending) then
        some ((pending.getLast?.map F.index).getD w.lastIndex + 1)
      else none := by
  rw [rotationTarget, foldl_append]

/-- The active segment is empty. -/
def Blank (segs : List (ℕ × List ρ)) (k : ℕ) : Prop := ∃ done, segs = done ++ [(k, [])]

/-- A rotation starts a segment above all others. -/
theorem Numbered.target_above (h : Numbered segs w)
    (busy : 1 ≤ w.maxSegmentBytes ∨ pending ≠ [] ∨ ∀ k, ¬ Blank segs k)
    (pos : ∀ r ∈ recordsOf segs ++ pending, 1 ≤ F.index r)
    (increasing : (recordsOf segs ++ pending).Pairwise (F.index · < F.index ·)) {k : ℕ}
    (target : (pending.foldl append w).rotationTarget = some k) :
    (∀ e ∈ w.segments.entries, e.1 < k) ∧ recordsOf segs ++ pending ≠ [] ∧
      k = F.nextIndex (recordsOf segs ++ pending) := by
  rw [rotationTarget_foldl] at target
  split_ifs at target with full
  obtain ⟨done, ⟨file, rs⟩, split⟩ := (List.eq_nil_or_concat' segs).resolve_left h.behind.segs_ne_nil
  have stored : recordsOf segs = recordsOf done ++ rs := by simp [split]
  cases Option.some.inj target
  obtain rfl | ⟨front, r, rfl⟩ := List.eq_nil_or_concat' pending
  · have entries := h.behind.entries
    rw [split, List.nil_append, F.layout_append_singleton, ite_self, List.nil_append] at entries
    have bytes := h.behind.counted file (F.encodeAll rs) (by rw [entries, List.getLast?_concat])
    obtain rfl | ⟨front, r, rfl⟩ := List.eq_nil_or_concat' rs
    · simp only [F.encodeAll_nil, LogFormat.bytes_nil] at bytes
      simp only [bytes, F.encodeAll_nil, LogFormat.bytes_nil] at full
      have idle : Blank segs file := ⟨done, split⟩
      obtain busy | busy | busy := busy
      · omega
      · exact absurd rfl busy
      · exact absurd idle (busy file)
    · have index : w.lastIndex = F.index r := h.last done file front r split
      have mem : r ∈ recordsOf segs ++ [] := by simp [stored]
      have order := increasing
      rw [List.append_nil, stored, ← List.append_assoc] at order
      have later : ∀ q ∈ recordsOf done, F.index q < F.index r := by
        intro q hq
        exact (List.pairwise_append.mp order).2.2 q (List.mem_append_left _ hq) r (by simp)
      refine ⟨fun e he => ?_, List.ne_nil_of_mem mem, ?_⟩
      · have := h.key_le split (pos r mem) later e he
        simp only [List.getLast?_nil, Option.map_none, Option.getD_none, index]
        omega
      · rw [List.append_nil, stored, ← List.append_assoc]
        simp [LogFormat.nextIndex, index]
  · have mem : r ∈ recordsOf segs ++ (front ++ [r]) := by simp
    have later : ∀ q ∈ recordsOf done, F.index q < F.index r := by
      intro q hq
      have before : q ∈ recordsOf segs := by
        rw [stored]
        exact List.mem_append_left _ hq
      exact (List.pairwise_append.mp increasing).2.2 q before r (by simp)
    refine ⟨fun e he => ?_, List.ne_nil_of_mem mem, ?_⟩
    · have := h.key_le split (pos r mem) later e he
      simp only [List.getLast?_concat, Option.map_some, Option.getD_some]
      omega
    · rw [F.nextIndex_append _ _ (by simp)]
      simp [LogFormat.nextIndex]

/-- Writing what waits leaves the store numbered. -/
theorem Numbered.grown {closed : List (ℕ × List ρ)} {file : ℕ} {rs : List ρ}
    (h : Numbered (closed ++ [(file, rs)]) w) (pending : List ρ) :
    Numbered (closed ++ [(file, rs ++ pending)]) ({ w with
      segments := w.segments.modify file (· ++ F.encodeAll pending)
      writer := ⟨file, [], w.writer.bytesWritten + F.bytes (F.encodeAll pending)⟩
      lastIndex := (pending.getLast?.map F.index).getD w.lastIndex } : WalStore F) := by
  refine ⟨h.behind.grown pending _, ?_, ?_, ?_⟩
  · have head := h.head
    cases closed <;> simpa using head
  · intro d k rs' r e
    obtain ⟨rfl, last⟩ := List.append_singleton_inj.mp e
    obtain ⟨rfl, records⟩ := Prod.mk.inj last
    obtain rfl | ⟨front, q, rfl⟩ := List.eq_nil_or_concat' pending
    · have here : closed ++ [(file, rs)] = closed ++ [(file, rs' ++ [r])] := by
        simpa using records
      simpa using h.last closed file rs' r here
    · rw [← List.append_assoc] at records
      obtain ⟨-, rfl⟩ := List.append_singleton_inj.mp records
      simp
  · intro seg mem
    obtain mem | mem := List.mem_append.mp mem
    · exact h.small seg (by simp [mem])
    · rw [List.mem_singleton.mp mem]
      exact h.small (file, rs) (by simp)

/-- Starting the next segment does too. -/
theorem Numbered.rotated (h : Numbered segs w) (ne : recordsOf segs ≠ []) {k : ℕ}
    (next : k = F.nextIndex (recordsOf segs)) (above : ∀ e ∈ w.segments.entries, e.1 < k)
    (fits : k < 2 ^ 64) :
    Numbered (segs ++ [(k, [])])
      ({ w with segments := w.segments.insert k [], writer := ⟨k, [], 0⟩ } : WalStore F) := by
  refine ⟨h.behind.rotated ne next above, ?_, ?_, ?_⟩
  · rw [List.head?_append_of_ne_nil _ h.behind.segs_ne_nil]
    exact h.head
  · intro d k rs' r e
    obtain ⟨-, last⟩ := List.append_singleton_inj.mp e
    simp at last
  · intro seg mem
    obtain mem | mem := List.mem_append.mp mem
    · exact h.small seg mem
    · rw [List.mem_singleton.mp mem]
      exact fits

/-- A flush moves what waits to the log, and starts the next segment behind a full one. -/
theorem Numbered.flush (h : Numbered segs w)
    (busy : 1 ≤ w.maxSegmentBytes ∨ pending ≠ [] ∨ ∀ k, ¬ Blank segs k)
    (pos : ∀ r ∈ recordsOf segs ++ pending, 1 ≤ F.index r)
    (increasing : (recordsOf segs ++ pending).Pairwise (F.index · < F.index ·))
    (fits : ∀ k, (pending.foldl append w).rotationTarget = some k → k < 2 ^ 64)
    (done : (pending.foldl append w).flush .succeeds = (w', .ok ())) :
    ∃ segs', Numbered segs' w' ∧ recordsOf segs' = recordsOf segs ++ pending ∧
      w'.maxSegmentBytes = w.maxSegmentBytes ∧
      ((∀ k, Blank segs k → k = w.lastIndex + 1) → ∀ k, Blank segs' k → k = w'.lastIndex + 1) := by
  obtain ⟨closed, ⟨file, rs⟩, rfl⟩ :=
    (List.eq_nil_or_concat' segs).resolve_left h.behind.segs_ne_nil
  have numbered := h.grown pending
  have records : recordsOf (closed ++ [(file, rs ++ pending)]) =
      recordsOf (closed ++ [(file, rs)]) ++ pending := by simp
  have above (k : ℕ) (target : (pending.foldl append w).rotationTarget = some k) :=
    h.target_above busy pos increasing target
  rw [rotationTarget_foldl] at fits above
  simp only [foldl_append, flush_succeeds, h.behind.flushed, List.nil_append, h.behind.file_eq]
    at done
  split_ifs at done fits above with full
  · obtain ⟨lt, ne, next⟩ := above _ rfl
    rw [← records] at ne next
    have rotated := numbered.rotated ne next (fun e mem => ?_) (fits _ rfl)
    · cases done
      refine ⟨_, rotated, by simp, rfl, ?_⟩
      rintro - k ⟨d, e⟩
      obtain ⟨-, here⟩ := List.append_singleton_inj.mp e
      exact (Prod.mk.inj here).1.symm
    · -- The keys are those of before.
      obtain ⟨seg, hseg⟩ := (mem_entries_iff numbered.behind e.1).mp ⟨e.2, mem⟩
      have listed : ∃ rs', (e.1, rs') ∈ closed ++ [(file, rs)] := by
        obtain here | here := List.mem_append.mp hseg
        · exact ⟨seg, List.mem_append_left _ here⟩
        · rw [(Prod.mk.inj (List.mem_singleton.mp here)).1]
          exact ⟨rs, by simp⟩
      obtain ⟨data, old⟩ := (mem_entries_iff h.behind e.1).mpr listed
      exact lt (e.1, data) old
  · cases done
    refine ⟨_, numbered, records, rfl, ?_⟩
    rintro idle k ⟨d, e⟩
    obtain ⟨-, here⟩ := List.append_singleton_inj.mp e
    obtain ⟨rfl, empty⟩ := Prod.mk.inj here
    obtain ⟨rfl, rfl⟩ := List.append_eq_nil_iff.mp empty
    exact idle file ⟨closed, rfl⟩

theorem freshStart_numbered (max : ℕ) : Numbered [(1, [])] (freshStart F .empty max) := by
  refine ⟨freshStart_behind max, rfl, ?_, by simp⟩
  intro done k rs r e
  have last := congrArg List.getLast? e
  simp at last

/-- With an empty buffer nothing waits. -/
theorem pending_eq_nil (solid : ∀ r, F.encode r ≠ []) {w : WalStore F}
    (closed : (pending.foldl append w).writer.buf = []) : pending = [] := by
  rw [foldl_append] at closed
  simp only [List.append_eq_nil_iff] at closed
  by_contra ne
  obtain ⟨r, rest, rfl⟩ := List.exists_cons_of_ne_nil ne
  rw [F.encodeAll_cons, List.append_eq_nil_iff] at closed
  exact solid r closed.2.1

section Lawful
variable {Fits : ρ → Prop} {view : ρ → ν} (law : F.Lawful Fits view)
  (reads : ∀ r, F.indexRead (view r) = F.index r)
include law reads

/-- Opening the directory of a store finds its segments and its highest index again. -/
theorem Numbered.reopen (h : Numbered segs w) (fits : ∀ r ∈ recordsOf segs, Fits r)
    {listing : List (String × List α)} (listed : listing.Perm (filesOf w.segments)) :
    ∃ w', WalStore.open F (scanDir listing) w.maxSegmentBytes = .ok w' ∧ Numbered segs w' ∧
      w'.maxSegmentBytes = w.maxSegmentBytes := by
  obtain ⟨closed, rs, split⟩ := h.behind.active
  have entries := h.behind.entries
  rw [split, List.nil_append, F.layout_append_singleton, ite_self, List.nil_append] at entries
  have last : w.segments.lastKeyValue = some (w.writer.file, F.encodeAll rs) := by
    rw [BTreeMap.lastKeyValue, entries, List.getLast?_concat]
  have decodes := law.decodeAll_encodeAll rs (fun r hr => fits r (by simp [split, hr]))
  rw [scanDir_of_perm h.small_entries listed]
  simp only [WalStore.open, last, decodes]
  refine ⟨_, rfl, ⟨⟨h.behind.entries, ⟨closed, rs, split⟩, ?_, rfl, h.behind.keyed⟩, h.head, ?_,
    h.small⟩, rfl⟩
  · intro file data here
    rw [entries, List.getLast?_concat] at here
    cases here
    rfl
  · intro d k rs' r e
    rw [split] at e
    obtain ⟨-, here⟩ := List.append_singleton_inj.mp e
    obtain ⟨-, rfl⟩ := Prod.mk.inj here
    simp [reads]

/-- After any calls the store is numbered, with what waits appended to it. -/
theorem numbered_of_run (solid : ∀ r, F.encode r ≠ []) {max : ℕ} (hmax : 1 ≤ max)
    {calls : List (StoreCall α ρ)}
    (run : Run Serves (freshStart F .empty max) calls w)
    (fits : ∀ r ∈ (accepted calls).flushed, Fits r)
    (pos : ∀ r ∈ (accepted calls).records, 1 ≤ F.index r)
    (increasing : (accepted calls).records.Pairwise (F.index · < F.index ·)) :
    ∃ segs w₀, Numbered segs w₀ ∧ recordsOf segs = (accepted calls).flushed ∧
      w = (accepted calls).pending.foldl append w₀ ∧ w₀.maxSegmentBytes = max := by
  induction run with
  | nil => exact ⟨_, _, freshStart_numbered max, rfl, rfl, rfl⟩
  | @snoc calls w c w' _ last ih =>
    rw [accepted_concat] at fits pos increasing ⊢
    obtain ⟨records, flushed⟩ := (accepted calls).records_next c
    obtain ⟨segs, w₀, numbered, stored, rfl, same⟩ := ih
      (fun r hr => fits r (flushed.subset hr)) (fun r hr => pos r (records.subset hr))
      (increasing.sublist records.sublist)
    cases last with
    | append r =>
      refine ⟨segs, w₀, numbered, stored, ?_, same⟩
      simp [Accepted.next]
    | flush target done =>
      have pos' : ∀ r ∈ recordsOf segs ++ (accepted calls).pending, 1 ≤ F.index r := by
        intro r hr
        rw [stored] at hr
        exact pos r (records.subset hr)
      have increasing' := increasing.sublist records.sublist
      rw [Accepted.records, ← stored] at increasing'
      obtain ⟨segs', numbered', stored', same', -⟩ :=
        numbered.flush (.inl (same ▸ hmax)) pos' increasing' target done
      exact ⟨segs', w', numbered', by rw [stored', stored]; rfl, rfl, same'.trans same⟩
    | reopen closed listed opened =>
      have none : (accepted calls).pending = [] := pending_eq_nil solid closed
      rw [none, List.foldl_nil] at listed opened
      obtain ⟨w', opened', numbered', same'⟩ := numbered.reopen law reads
        (fun r hr => fits r (by rwa [stored] at hr)) listed
      cases opened.symm.trans opened'
      exact ⟨segs, w', numbered', stored, by simp [Accepted.next, none], same'.trans same⟩

end Lawful
end Numbered
end WalStore

namespace WalStore
open Record
variable {checksum : List UInt8 → BitVec 128} {w : WalStore (logFormat checksum)}

/-- No replay returns a payload that the length field cannot hold. -/
theorem replaySegments_fits {segments : List (ℕ × List UInt8)} {v : RecordView}
    (h : v ∈ (replaySegments (logFormat checksum) segments).1) : v.2.2.length < 2 ^ 32 := by
  induction segments with
  | nil => cases h
  | cons segment rest ih =>
    have here (mem : v ∈ ((logFormat checksum).decodeAll segment.2).1) :
        v.2.2.length < 2 ^ 32 := by
      obtain ⟨s', rest, decoded⟩ := Codec.exists_decode_of_mem _ mem
      obtain ⟨r, fits, rfl, -⟩ := decode_sound _ _ _ _ decoded
      exact fits
    rw [replaySegments] at h
    cases decoded : (logFormat checksum).decodeAll segment.2 with
    | mk read stop =>
      rw [decoded] at h here
      cases stop with
      | some e => exact here h
      | none =>
        obtain mem | mem := List.mem_append.mp h
        · exact here mem
        · exact ih mem

/-- Over any mix of appends with increasing indices, flushes and reopenings, the log holds exactly
the flushed records if and only if the length field can hold their payloads. While it can, no
rotation truncates a segment, and the store can be opened again whenever it is closed. -/
theorem rotation_loses_nothing_iff {max : ℕ} (hmax : 1 ≤ max)
    {calls : List (StoreCall UInt8 Record)}
    (run : Run Serves (freshStart (logFormat checksum) .empty max) calls w)
    (pos : ∀ r ∈ (accepted calls).records, 1 ≤ r.index.toNat)
    (increasing : (accepted calls).records.Pairwise (·.index.toNat < ·.index.toNat)) :
    (w.replay = ((accepted calls).flushed.map view, none) ↔
      ∀ r ∈ (accepted calls).flushed, r.Fits) ∧
    ((∀ r ∈ (accepted calls).flushed, r.Fits) →
      (∀ k, w.rotationTarget = some k → w.segments.get? k = none) ∧
      (w.writer.buf = [] → ∀ listing, listing.Perm (filesOf w.segments) →
        ∃ w', WalStore.open (logFormat checksum) (scanDir listing) w.maxSegmentBytes = .ok w')) := by
  have law := logFormat_lawful checksum
  have reads : ∀ r : Record, (logFormat checksum).indexRead r.view =
      (logFormat checksum).index r := fun _ => rfl
  have solid : ∀ r : Record, (logFormat checksum).encode r ≠ [] := bytes_ne_nil checksum
  refine ⟨⟨fun read r mem => ?_, fun fits => ?_⟩, fun fits => ?_⟩
  · have returned : r.view ∈ (replaySegments (logFormat checksum) w.segments.entries).1 := by
      rw [← replay, read]
      exact List.mem_map_of_mem mem
    exact replaySegments_fits returned
  · obtain ⟨segs, w₀, numbered, stored, rfl, -⟩ :=
      numbered_of_run law reads solid hmax run fits pos increasing
    have settled : Settled w₀ (accepted calls).flushed :=
      ⟨segs, numbered.behind, numbered.head, stored⟩
    rw [foldl_append]
    exact settled.replay law fits
  · obtain ⟨segs, w₀, numbered, stored, rfl, same⟩ :=
      numbered_of_run law reads solid hmax run fits pos increasing
    rw [Accepted.records, ← stored] at pos increasing
    constructor
    · intro k target
      have above := (numbered.target_above (.inl (same ▸ hmax)) pos increasing target).1
      rw [foldl_append, Option.eq_none_iff_forall_ne_some]
      intro data stored
      exact (above _ ((BTreeMap.get?_eq_some_iff _ _ _).mp stored)).false
    · intro closed listing listed
      have none : (accepted calls).pending = [] := pending_eq_nil solid closed
      rw [none, List.foldl_nil] at listed ⊢
      obtain ⟨w', opened, -⟩ := numbered.reopen law reads (fun r hr => fits r (stored ▸ hr)) listed
      exact ⟨w', opened⟩

theorem flush_ok (w : WalStore F) : w.flush .succeeds = ((w.flush .succeeds).1, .ok ()) := by
  rw [flush_succeeds]
  simp only
  split_ifs <;> rfl

theorem Serves.flush_of_target {w : WalStore F} {n : ℕ} (target : w.rotationTarget = some n)
    (small : n < 2 ^ 64) : Serves w .flush (w.flush .succeeds).1 := by
  refine .flush (fun k h => ?_) (flush_ok w)
  rw [target] at h
  cases h
  exact small

/-- The store before and after two flushed records, with a rotation behind each. -/
theorem rotation_loses_nothing_twice :
    ∃ w : WalStore (logFormat fun _ => 1),
      w.replay = ([(1, 1, []), (2, 1, [7])], none) ∧
        ∀ k, w.rotationTarget = some k → w.segments.get? k = none := by
  let r : Record := ⟨1, 1, 1, 0, []⟩
  let r' : Record := ⟨1, 2, 1, 0, [7]⟩
  let w₀ : WalStore (logFormat fun _ => 1) := freshStart _ .empty 1
  let w₁ := ((w₀.append r).flush .succeeds).1
  let w₂ := ((w₁.append r').flush .succeeds).1
  have first : Run Serves w₀ [.append r, .flush] w₁ :=
    (Run.single (.append r)).snoc (.flush_of_target (n := 2) (by decide +kernel) (by decide))
  have second : Run Serves w₀ _ w₂ :=
    (first.snoc (.append r')).snoc (.flush_of_target (n := 3) (by decide +kernel) (by decide))
  have fits : ∀ q ∈ [r, r'], q.Fits := by decide
  obtain ⟨exact_log, safe⟩ := rotation_loses_nothing_iff (le_refl 1) second
    (by show ∀ q ∈ [r, r'], 1 ≤ q.index.toNat; decide)
    (by show [r, r'].Pairwise (·.index.toNat < ·.index.toNat); decide)
  have read : w₂.replay = ([r, r'].map view, none) := exact_log.mpr fits
  have fresh := (safe fits).1
  exact ⟨w₂, read, fresh⟩

/-- A payload of 4 GiB is accepted and flushed, and no replay returns it. -/
theorem oversized_payload_lost :
    ¬ ∃ checksum, ∀ max calls (w : WalStore (logFormat checksum)), 1 ≤ max →
      Run Serves (freshStart (logFormat checksum) .empty max) calls w →
      (∀ r ∈ (accepted calls).records, 1 ≤ r.index.toNat) →
      (accepted calls).records.Pairwise (·.index.toNat < ·.index.toNat) →
      w.replay = ((accepted calls).flushed.map view, none) := by
  rintro ⟨checksum, all⟩
  obtain ⟨payload, size⟩ : ∃ payload : List UInt8, payload.length = 2 ^ 32 :=
    ⟨List.replicate (2 ^ 32) 0, List.length_replicate⟩
  obtain ⟨r, hr⟩ : ∃ r : Record, r = ⟨1, 1, 1, 0, payload⟩ := ⟨_, rfl⟩
  have index : r.index = 1 := by rw [hr]
  obtain ⟨w, done⟩ : ∃ w, ((freshStart (logFormat checksum) .empty 1).append r).flush .succeeds =
      (w, .ok ()) := ⟨_, flush_ok _⟩
  have run : Run Serves (freshStart (logFormat checksum) .empty 1) [.append r, .flush] w := by
    refine (Run.single (.append r)).snoc (.flush ?_ done)
    intro k target
    rw [rotationTarget] at target
    split_ifs at target
    cases target
    show r.index.toNat + 1 < 2 ^ 64
    rw [index]
    decide
  have read := all 1 _ w (le_refl 1) run (by simp [accepted, Accepted.next, Accepted.records, index])
    (by simp [accepted, Accepted.next, Accepted.records])
  have returned : r.view ∈ (replaySegments (logFormat checksum) w.segments.entries).1 := by
    rw [← replay, read]
    simp [accepted, Accepted.next]
  have small := replaySegments_fits returned
  rw [hr] at small
  exact absurd size small.ne

end WalStore
end TinyKeeper
