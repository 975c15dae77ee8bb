import TinyKeeper.Changelog.Layout

/-! A crash in the middle of a write. The store is reopened behind all the bytes its last segment
has, torn ones included, so what is written next is read back exactly when nothing was torn. -/
namespace TinyKeeper
open Record

/-- Cut the last segment file after some bytes. -/
def truncateLast (cut : ℕ) (dir : Segments UInt8) : Segments UInt8 :=
  match dir.lastKeyValue with
  | none => dir
  | some (first, _) => dir.modify first (List.take cut)

def logBytes (dir : Segments UInt8) : ℕ := (dir.entries.map (fun segment => segment.2.length)).sum

/-- A log that was written batch after batch, and the position at which its last file was cut. -/
structure Crash where
  maxSegmentBytes : ℕ
  written : List (List Record)
  cut : ℕ
  batch_ne : ∀ batch ∈ written, batch ≠ []
  fits : ∀ r ∈ written.flatten, r.Fits
  index_pos : ∀ r ∈ written.flatten, 1 ≤ r.index.toNat
  increasing : written.flatten.Pairwise (fun q r => q.index.toNat < r.index.toNat)

namespace Crash
variable (c : Crash) (checksum : List UInt8 → BitVec 128)

def store : WalStore (logFormat checksum) :=
  (WalStore.freshStart (logFormat checksum) BTreeMap.empty c.maxSegmentBytes).appendBatches
    c.written

def dir : Segments UInt8 := truncateLast c.cut (c.store checksum).segments

/-- The written records that lie wholly in the truncated log. -/
def kept : List Record :=
  (logFormat checksum).intact (logBytes (c.dir checksum)) c.written.flatten

/-- The truncated log ends where a record ends. -/
def CleanCut : Prop :=
  ((logFormat checksum).encodeAll (c.kept checksum)).length = logBytes (c.dir checksum)

/-- The segments, which are the same for every checksum function. -/
def segs : List (ℕ × List Record) :=
  c.written.foldl ((logFormat (fun _ => 0)).place c.maxSegmentBytes []) [(1, [])]

theorem recordsOf_segs : recordsOf c.segs = c.written.flatten := by
  simpa [segs] using ((logFormat (fun _ => 0)).foldl_place c.maxSegmentBytes [] [(1, [])]
    c.written (by simp)).2

theorem encode_length (r : Record) :
    ((logFormat checksum).encode r).length = ((logFormat (fun _ => 0)).encode r).length := by
  simp [logFormat, bytes_length]

theorem behind : WalStore.Behind [] [] c.segs (c.store checksum) := by
  have same : (logFormat (fun _ => 0)).place c.maxSegmentBytes [] =
      (logFormat checksum).place c.maxSegmentBytes [] := by
    funext segs batch
    exact (logFormat checksum).place_congr (logFormat (fun _ => 0)) rfl
      (fun r => by simp only [bytes_logFormat, encode_length checksum]) _ _ _
  rw [segs, same]
  exact (WalStore.freshStart_behind c.maxSegmentBytes).appendBatches rfl c.written c.batch_ne
    c.index_pos c.increasing

theorem length_files (segs : List (ℕ × List Record)) :
    ((segs.map (fun seg => (seg.1, (logFormat checksum).encodeAll seg.2))).map
      (fun segment => segment.2.length)).sum =
      ((logFormat checksum).encodeAll (recordsOf segs)).length := by
  induction segs with
  | nil => rfl
  | cons seg segs ih =>
    rw [recordsOf_cons, Codec.encodeAll_append, List.length_append, ← ih]
    simp

variable {done : List (ℕ × List Record)} {k : ℕ} {rs : List Record}

theorem dir_entries (split : c.segs = done ++ [(k, rs)]) :
    (c.dir checksum).entries =
      done.map (fun seg => (seg.1, (logFormat checksum).encodeAll seg.2)) ++
        [(k, ((logFormat checksum).encodeAll rs).take c.cut)] := by
  have entries := (c.behind checksum).entries
  rw [split, List.nil_append, LogFormat.layout_append_singleton, ite_self, List.nil_append,
    LogFormat.layout_nil_base] at entries
  have last : (c.store checksum).segments.lastKeyValue =
      some (k, (logFormat checksum).encodeAll rs) := by
    rw [BTreeMap.lastKeyValue, entries, List.getLast?_concat]
  rw [dir, truncateLast, last]
  exact (c.store checksum).segments.entries_modify_last (List.take c.cut) entries

theorem logBytes_dir (split : c.segs = done ++ [(k, rs)]) :
    logBytes (c.dir checksum) = ((logFormat checksum).encodeAll (recordsOf done)).length +
      min c.cut ((logFormat checksum).encodeAll rs).length := by
  rw [logBytes, c.dir_entries checksum split, List.map_append, List.sum_append, length_files]
  simp

theorem kept_initial : c.kept checksum <+: c.written.flatten :=
  (logFormat checksum).intact_initial _ _

/-! Neither the truncated length nor what survives depends on the checksum function. -/

theorem encodeAll_length (checksum' : List UInt8 → BitVec 128) (rs : List Record) :
    ((logFormat checksum').encodeAll rs).length = ((logFormat checksum).encodeAll rs).length :=
  (logFormat checksum).length_encodeAll_congr (logFormat checksum').toCodec
    (fun r => (encode_length checksum' r).trans (encode_length checksum r).symm) rs

theorem logBytes_congr (checksum' : List UInt8 → BitVec 128) :
    logBytes (c.dir checksum') = logBytes (c.dir checksum) := by
  obtain ⟨done, rs, split⟩ := (c.behind checksum).active
  rw [c.logBytes_dir checksum split, c.logBytes_dir checksum' split,
    encodeAll_length checksum checksum', encodeAll_length checksum checksum']

theorem kept_congr (checksum' : List UInt8 → BitVec 128) :
    c.kept checksum' = c.kept checksum := by
  rw [kept, kept, c.logBytes_congr checksum checksum']
  exact (logFormat checksum).intact_congr (logFormat checksum').toCodec
    (fun r => (encode_length checksum' r).trans (encode_length checksum r).symm) _ _

/-- The truncated directory: whole segments, and a last one that ends with a proper prefix of a
record. -/
theorem dir_shape (split : c.segs = done ++ [(k, rs)]) : ∃ whole torn, whole <+: rs ∧
    (c.dir checksum).entries =
      done.map (fun seg => (seg.1, (logFormat checksum).encodeAll seg.2)) ++
        [(k, (logFormat checksum).encodeAll whole ++ torn)] ∧
    c.kept checksum = recordsOf done ++ whole ∧
    logBytes (c.dir checksum) =
      ((logFormat checksum).encodeAll (c.kept checksum)).length + torn.length ∧
    (torn = [] ∨ ∃ r : Record, r.Fits ∧ torn <+: r.bytes checksum ∧ torn ≠ r.bytes checksum) := by
  obtain ⟨data, hdata⟩ : ∃ data, data = (logFormat checksum).encodeAll rs := ⟨_, rfl⟩
  obtain ⟨cut, hcut⟩ : ∃ cut, cut = min c.cut data.length := ⟨_, rfl⟩
  have short : cut ≤ data.length := by
    rw [hcut]
    exact Nat.min_le_right _ _
  have total := c.logBytes_dir checksum split
  rw [← hdata, ← hcut] at total
  have written : c.written.flatten = recordsOf done ++ rs := by
    rw [← recordsOf_segs, split, recordsOf_append, recordsOf_cons, recordsOf_nil,
      List.append_nil]
  have kept : c.kept checksum = recordsOf done ++ (logFormat checksum).intact cut rs := by
    rw [Crash.kept, total, written, Codec.intact_append_of_le]
  obtain ⟨torn, cutEq, kind⟩ := (logFormat checksum).take_encodeAll cut rs
  rw [← hdata] at cutEq
  refine ⟨(logFormat checksum).intact cut rs, torn, ?_, ?_, kept, ?_, kind.imp_right ?_⟩
  · exact (logFormat checksum).intact_initial cut rs
  · rw [c.dir_entries checksum split, ← hdata, List.take_eq_take_min, ← hcut, cutEq]
  · have length := congrArg List.length cutEq
    rw [List.length_take, Nat.min_eq_left short, List.length_append] at length
    rw [kept, Codec.encodeAll_append, List.length_append, total]
    omega
  · rintro ⟨r, mem, proper⟩
    exact ⟨r, c.fits r (by rw [written]; exact List.mem_append_right _ mem), proper⟩

/-- What is appended and flushed after the crash, by the store that opened the truncated
directory. Its indices go on after those of the records that survived. -/
structure Resumption where
  maxSegmentBytes : ℕ
  further : List (List Record)
  batch_ne : ∀ batch ∈ further, batch ≠ []
  fits : ∀ r ∈ further.flatten, r.Fits
  index_pos : ∀ r ∈ further.flatten, 1 ≤ r.index.toNat
  increasing : further.flatten.Pairwise (fun q r => q.index.toNat < r.index.toNat)
  after_kept : ∀ checksum, ∀ q ∈ c.kept checksum, ∀ r ∈ further.flatten,
    q.index.toNat < r.index.toNat

/-- A later replay yields the surviving records and then all the new ones. -/
def Resumption.Recovers {c : Crash} (s : c.Resumption) (checksum : List UInt8 → BitVec 128) :
    Prop :=
  ∃ w, WalStore.open (logFormat checksum) (c.dir checksum) s.maxSegmentBytes = .ok w ∧
    (w.appendBatches s.further).replay =
      ((c.kept checksum ++ s.further.flatten).map Record.view, none)

variable {c}

/-- After a clean cut the reopened store holds the surviving records. -/
theorem settled_of_cleanCut (clean : c.CleanCut checksum) (max : ℕ) :
    ∃ w, WalStore.open (logFormat checksum) (c.dir checksum) max = .ok w ∧
      w.Settled (c.kept checksum) := by
  obtain ⟨done, rs, split⟩ := (c.behind checksum).active
  obtain ⟨whole, torn, pre, entries, kept, total, kind⟩ := c.dir_shape checksum split
  obtain rfl : torn = [] := by
    rw [CleanCut, total] at clean
    exact List.length_eq_zero_iff.mp (by omega)
  have fits : ∀ r ∈ whole, r.Fits := by
    intro r hr
    refine c.fits r ((kept_initial c checksum).subset ?_)
    rw [kept]
    exact List.mem_append_right _ hr
  obtain ⟨w, opened, segments, writer, -⟩ :=
    WalStore.open_of_decodes (c.dir checksum) max entries
      ((logFormat_lawful checksum).decodeAll_torn whole [] fits kind)
  refine ⟨w, opened, done ++ [((c.store checksum).writer.file, whole)],
    ⟨?_, ⟨done, whole, ?_⟩, ?_, ?_, ?_⟩, ?_, ?_⟩
  · rw [segments, entries, LogFormat.layout_append_singleton, ite_self,
      LogFormat.layout_nil_base]
    simp
  · rw [writer]
  · intro file data last
    rw [segments, entries, List.getLast?_concat] at last
    cases last
    rw [writer]
  · rw [writer]
  · intro d seg hpre hd
    obtain e | hpre := List.prefix_concat_iff.mp hpre
    · obtain ⟨rfl, rfl⟩ := List.append_singleton_inj.mp e
      exact (c.behind checksum).keyed d (_, rs) (by rw [split]) hd
    · refine (c.behind checksum).keyed d seg (hpre.trans ?_) hd
      rw [split]
      exact List.prefix_append _ _
  · have head := (logFormat (fun _ => 0)).foldl_place c.maxSegmentBytes [] [(1, [])] c.written
      (by simp)
    rw [← segs, split] at head
    cases done <;> exact head.1
  · rw [kept]
    simp

theorem Resumption.recovers_of_cleanCut (s : c.Resumption) (clean : c.CleanCut checksum) :
    s.Recovers checksum := by
  obtain ⟨w, opened, settled⟩ := settled_of_cleanCut checksum clean s.maxSegmentBytes
  have increasing : (c.kept checksum ++ s.further.flatten).Pairwise
      ((logFormat checksum).index · < (logFormat checksum).index ·) := by
    refine List.pairwise_append.mpr ⟨?_, s.increasing, s.after_kept checksum⟩
    exact c.increasing.sublist (kept_initial c checksum).sublist
  have fits : ∀ r ∈ c.kept checksum ++ s.further.flatten, r.Fits := by
    intro r hr
    obtain hr | hr := List.mem_append.mp hr
    · exact c.fits r ((kept_initial c checksum).subset hr)
    · exact s.fits r hr
  exact ⟨w, opened, (settled.appendBatches s.further s.batch_ne s.index_pos increasing).replay
    (logFormat_lawful checksum) fits⟩

/-- Without further writes the torn bytes are simply not read. -/
theorem Resumption.recovers_of_nothing_further (s : c.Resumption) (nothing : s.further = []) :
    s.Recovers checksum := by
  obtain ⟨done, rs, split⟩ := (c.behind checksum).active
  obtain ⟨whole, torn, pre, entries, kept, total, kind⟩ := c.dir_shape checksum split
  have fits : ∀ r ∈ recordsOf done ++ whole, r.Fits := by
    intro r hr
    exact c.fits r ((kept_initial c checksum).subset (by rwa [kept]))
  have decodes := (logFormat_lawful checksum).decodeAll_torn whole torn
    (fun r hr => fits r (List.mem_append_right _ hr)) kind
  obtain ⟨w, opened, segments, -⟩ :=
    WalStore.open_of_decodes (c.dir checksum) s.maxSegmentBytes entries decodes
  refine ⟨w, opened, ?_⟩
  rw [nothing, WalStore.appendBatches, List.foldl_nil, WalStore.replay, segments, entries,
    WalStore.replaySegments_append _ _ _ (WalStore.replaySegments_encoded
      (logFormat_lawful checksum) done (fun r hr => fits r (List.mem_append_left _ hr)))]
  simp only [WalStore.replaySegments, decodes, kept]
  simp

/-- If a replay after the crash reads what it should, the decoder reads the first new record off
the torn bytes it was written behind. -/
theorem decode_of_replay {done : List (ℕ × List Record)} {k : ℕ} {whole : List Record}
    {torn : List UInt8} {w : WalStore (logFormat checksum)} {further : List (List Record)}
    {f : Record} {fs : List Record}
    (behind : WalStore.Behind
      (done.map (fun seg => (seg.1, (logFormat checksum).encodeAll seg.2)))
      ((logFormat checksum).encodeAll whole ++ torn) [(k, [])] w)
    (batch_ne : ∀ batch ∈ further, batch ≠ [])
    (fresh : ∀ r ∈ further.flatten, k ≤ r.index.toNat)
    (increasing : further.flatten.Pairwise (fun q r => q.index.toNat < r.index.toNat))
    (fits : ∀ r ∈ recordsOf done ++ whole ++ further.flatten, r.Fits)
    (first : further.flatten = f :: fs)
    (replay : (w.appendBatches further).replay =
      ((recordsOf done ++ whole ++ further.flatten).map Record.view, none)) :
    ∃ rest tail, Record.decode checksum (torn ++ (f.bytes checksum ++ tail)) =
      .ok (some (f.view, rest)) := by
  have filled := behind.appendBatches rfl further batch_ne fresh increasing
  obtain ⟨head, records⟩ := (logFormat checksum).foldl_place w.maxSegmentBytes
    ((logFormat checksum).encodeAll whole ++ torn) [(k, [])] further (by simp)
  obtain ⟨segs, hsegs⟩ : ∃ segs, segs = further.foldl ((logFormat checksum).place
    w.maxSegmentBytes ((logFormat checksum).encodeAll whole ++ torn)) [(k, [])] := ⟨_, rfl⟩
  rw [← hsegs] at filled head records
  obtain ⟨⟨k', rs⟩, rest, rfl⟩ := List.exists_cons_of_ne_nil filled.segs_ne_nil
  have split : rs ++ recordsOf rest = f :: fs := by
    rw [← first]
    simpa using records
  obtain ⟨rs, rfl⟩ : ∃ rs', rs = f :: rs' := by
    cases rs with
    | cons r rs' => exact ⟨rs', by rw [(List.cons.inj split).1]⟩
    | nil =>
      cases rest with
      | nil => simp at split
      | cons seg rest =>
        have nonempty := (filled.keyed [(k', [])] seg
          (by simp) (by simp)).1
        exact absurd rfl nonempty
  have closed := WalStore.replaySegments_encoded (logFormat_lawful checksum) done
    (fun r hr => fits r (by simp [hr]))
  have read := filled.replay (logFormat_lawful checksum) closed (fun r hr => fits r (by
    rw [first, ← split]
    simp [hr]))
  rw [replay, List.append_assoc ((logFormat checksum).encodeAll whole),
    (logFormat_lawful checksum).decodeAll_encodeAll_append _ _
      (fun r hr => fits r (by simp [hr]))] at read
  cases hd : (logFormat checksum).decodeAll
      (torn ++ (logFormat checksum).encodeAll (f :: rs)) with
  | mk vs o =>
    cases o with
    | some e =>
      rw [hd] at read
      cases congrArg Prod.snd read
    | none =>
      rw [hd, first, ← split] at read
      simp only [List.map_append, Prod.mk.injEq, and_true, List.append_assoc,
        List.append_cancel_left_eq] at read
      rw [List.append_cancel_right_eq, List.map_cons] at read
      subst read
      obtain ⟨rest, decoded⟩ := Codec.decodeAll_eq_cons _ _ _ _ _ hd
      exact ⟨rest, _, decoded⟩

/-! The other direction. A constant checksum lets the decoder run on from the torn bytes into
the record behind them; its bytes are chosen so that what is read there is not that record. -/
section Adverse
variable {K : BitVec 128} {a b : UInt8}

theorem exists_byte_ne (x y : Option UInt8) : ∃ b : UInt8, x ≠ some b ∧ y ≠ some b := by
  by_contra none
  have taken (b : UInt8) : x = some b ∨ y = some b := by
    by_contra free
    exact none ⟨b, not_or.mp free⟩
  rcases taken 0 with h0 | h0 <;> rcases taken 1 with h1 | h1 <;> rcases taken 2 with h2 | h2 <;>
    simp_all

theorem exists_checksum_bytes (a b : UInt8) :
    ∃ K : BitVec 128, leBytes 16 K.toNat = a :: List.replicate 15 b := by
  have bound := leNat_lt (a :: List.replicate 15 b)
  refine ⟨BitVec.ofNat 128 (leNat (a :: List.replicate 15 b)), ?_⟩
  rw [BitVec.toNat_ofNat, Nat.mod_eq_of_lt (by simpa using bound)]
  exact leBytes_leNat (a :: List.replicate 15 b)

/-- Records that read the same differ only in the version and in the value type. -/
theorem body_getElem?_of_view_eq {r r' : Record} (h : r'.view = r.view) {j : ℕ} (h0 : j ≠ 0)
    (h17 : j ≠ 17) : r'.body[j]? = r.body[j]? := by
  obtain ⟨version, index, term, valueType, payload⟩ := r
  obtain ⟨version', index', term', valueType', payload'⟩ := r'
  simp only [view, Prod.mk.injEq] at h
  obtain ⟨rfl, rfl, rfl⟩ := h
  have same : body ⟨version', index', term', valueType', payload'⟩ =
      ((body ⟨version, index', term', valueType, payload'⟩).set 0 version').set 17
        valueType' := rfl
  rw [same, List.getElem?_set_ne h17.symm, List.getElem?_set_ne h0.symm]

theorem bytes_getElem?_checksum (hK : leBytes 16 K.toNat = a :: List.replicate 15 b) (r : Record)
    {j : ℕ} (h : j < 16) :
    (r.bytes (fun _ => K))[j]? = some (if j = 0 then a else b) := by
  rw [bytes, List.getElem?_append_left (by simpa using h), hK]
  cases j with
  | zero => rfl
  | succ j =>
    rw [List.getElem?_cons_succ, List.getElem?_replicate_of_lt (by omega)]
    rfl

theorem bytes_getElem?_body (K : BitVec 128) (r : Record) (j : ℕ) :
    (r.bytes (fun _ => K))[16 + j]? = r.body[j]? := by
  rw [bytes, List.getElem?_append_right (by simp)]
  simp

/-- The decoder never reads the record `f` off a torn record with `f` written behind it. -/
theorem decode_torn_append_ne (hK : leBytes 16 K.toNat = a :: List.replicate 15 b)
    {cut f : Record} {torn tail rest : List UInt8} (fitsCut : cut.Fits)
    (pre : torn <+: cut.bytes (fun _ => K)) (ne : torn ≠ cut.bytes (fun _ => K))
    (pos : torn ≠ []) (hab : some b ≠ some a) (h1 : f.body[1]? ≠ some b)
    (h18 : f.body[18]? ≠ some b) (hs : f.body[torn.length - 16]? ≠ some a) :
    Record.decode (fun _ => K) (torn ++ (f.bytes (fun _ => K) ++ tail)) ≠
      .ok (some (f.view, rest)) := by
  intro h
  obtain ⟨r, hr, hview, split⟩ := Record.decode_sound _ _ _ _ h
  have size (r : Record) : (r.bytes (fun _ => K)).length = 38 + r.payload.length :=
    bytes_length _ r
  have same : r.payload.length = f.payload.length := by
    rw [show r.payload = f.payload from congrArg (·.2.2) hview]
  have start : 0 < torn.length := List.length_pos_iff.mpr pos
  have short : torn.length < 38 + cut.payload.length := by
    rw [← size]
    exact lt_of_le_of_ne pre.length_le (fun full => ne (pre.eq_of_length full))
  have left (j : ℕ) (hj : j < 38 + f.payload.length) :
      (torn ++ (f.bytes (fun _ => K) ++ tail))[j]? = (r.bytes (fun _ => K))[j]? := by
    rw [split, List.getElem?_append_left (by rw [size, same]; exact hj)]
  have right (j : ℕ) (hj : torn.length ≤ j) (hj' : j < torn.length + 38) :
      (torn ++ (f.bytes (fun _ => K) ++ tail))[j]? = (f.bytes (fun _ => K))[j - torn.length]? := by
    rw [List.getElem?_append_right hj, List.getElem?_append_left (by rw [size]; omega)]
  -- a byte of `f` behind the seam, read once in its own place and once in that of `r`
  have seam (j : ℕ) (hle : torn.length ≤ j) (hle' : j < torn.length + 2) (h16 : 16 < j)
      (h33 : j ≠ 33) (hlt : j < 38 + f.payload.length) :
      f.body[j - 16]? = some (if j = torn.length then a else b) := by
    have own := bytes_getElem?_checksum hK f (by omega : j - torn.length < 16)
    have there := bytes_getElem?_body K r (j - 16)
    rw [show 16 + (j - 16) = j by omega] at there
    rw [← body_getElem?_of_view_eq hview (by omega) (by omega), ← there, ← left j hlt,
      right j hle (by omega), own]
    congr 2
    rw [eq_iff_iff]
    omega
  by_cases inChecksum : torn.length < 16
  · have first := bytes_getElem?_checksum hK f (by omega : 0 < 16)
    have later := bytes_getElem?_checksum hK r inChecksum
    rw [if_neg (by omega), ← left _ (by omega), right _ (le_refl _) (by omega), Nat.sub_self,
      first, if_pos rfl] at later
    exact hab later.symm
  by_cases inLength : 38 + f.payload.length ≤ torn.length
  · have torn_eq : torn = (cut.bytes (fun _ => K)).take torn.length :=
      List.prefix_iff_eq_take.mp pre
    have field := payloadLen_bytes (fun _ => K) r hr rest
    have fieldCut := payloadLen_bytes (fun _ => K) cut fitsCut []
    have inside : RecordHeader.payloadLenOffset + 4 ≤ torn.length := by
      have : RecordHeader.payloadLenOffset + 4 = 38 := rfl
      omega
    rw [List.append_nil, ← slice_take inside, ← torn_eq] at fieldCut
    rw [← split, ← slice_take inside, List.take_left, fieldCut] at field
    omega
  by_cases atVersion : torn.length = 16
  · have byte := seam 17 (by omega) (by omega) (by omega) (by omega) (by omega)
    rw [if_neg (by omega)] at byte
    exact h1 byte
  by_cases atType : torn.length = 33
  · have byte := seam 34 (by omega) (by omega) (by omega) (by omega) (by omega)
    rw [if_neg (by omega)] at byte
    exact h18 byte
  · have byte := seam torn.length (le_refl _) (by omega) (by omega) atType (by omega)
    rw [if_pos rfl] at byte
    exact hs byte

theorem Resumption.cleanCut_of_recovers (s : c.Resumption) (ne : s.further ≠ [])
    (all : ∀ checksum, s.Recovers checksum) (checksum : List UInt8 → BitVec 128) :
    c.CleanCut checksum := by
  by_contra torn_cut
  obtain ⟨f, fs, first⟩ : ∃ f fs, s.further.flatten = f :: fs := by
    refine List.exists_cons_of_ne_nil (fun empty => ?_)
    obtain ⟨batch, batches, e⟩ := List.exists_cons_of_ne_nil ne
    exact s.batch_ne batch (by simp [e]) (List.flatten_eq_nil_iff.mp empty batch (by simp [e]))
  -- the number of torn bytes is known before the checksum function is chosen
  obtain ⟨n, hn⟩ : ∃ n, n = logBytes (c.dir checksum) -
    ((logFormat checksum).encodeAll (c.kept checksum)).length := ⟨_, rfl⟩
  obtain ⟨b, h1, h18⟩ := exists_byte_ne f.body[1]? f.body[18]?
  obtain ⟨a, hab, hs⟩ := exists_byte_ne (some b) f.body[n - 16]?
  obtain ⟨K, hK⟩ := exists_checksum_bytes a b
  obtain ⟨done, rs, split⟩ := (c.behind (fun _ => K)).active
  obtain ⟨whole, torn, pre, entries, kept, total, kind⟩ := c.dir_shape (fun _ => K) split
  have length : torn.length = n := by
    rw [hn, ← c.logBytes_congr checksum (fun _ => K), total, ← c.kept_congr checksum (fun _ => K),
      ← encodeAll_length checksum (fun _ => K), Nat.add_sub_cancel_left]
  have pos : torn ≠ [] := by
    rintro rfl
    refine torn_cut ?_
    rw [CleanCut, ← c.logBytes_congr checksum (fun _ => K), total,
      ← c.kept_congr checksum (fun _ => K), ← encodeAll_length checksum (fun _ => K)]
    rfl
  obtain ⟨r, hr, preTorn, neTorn⟩ := kind.resolve_left pos
  have fits : ∀ q ∈ recordsOf done ++ whole, q.Fits := by
    intro q hq
    exact c.fits q ((kept_initial c (fun _ => K)).subset (by rwa [kept]))
  obtain ⟨w, opened, segments, writer, maxBytes⟩ :=
    WalStore.open_of_decodes (c.dir (fun _ => K)) s.maxSegmentBytes entries
      ((logFormat_lawful _).decodeAll_torn whole torn
        (fun q hq => fits q (List.mem_append_right _ hq)) kind)
  obtain ⟨w', opened', replay⟩ := all (fun _ => K)
  obtain rfl : w' = w := Except.ok.inj (opened'.symm.trans opened)
  have behind : WalStore.Behind
      (done.map (fun seg => (seg.1, (logFormat (fun _ => K)).encodeAll seg.2)))
      ((logFormat (fun _ => K)).encodeAll whole ++ torn)
      [((c.store (fun _ => K)).writer.file, [])] w' := by
    refine ⟨?_, ⟨[], [], by rw [writer]; rfl⟩, ?_, by rw [writer], ?_⟩
    · rw [segments, entries]
      simp [LogFormat.layout]
    · intro file data last
      rw [segments, entries, List.getLast?_concat] at last
      cases last
      rw [writer]
    · intro d seg hpre hd
      have := hpre.length_le
      have := List.length_pos_iff.mpr hd
      simp only [List.length_append, List.length_singleton] at *
      omega
  have fresh : ∀ q ∈ s.further.flatten, (c.store (fun _ => K)).writer.file ≤ q.index.toNat := by
    intro q hq
    have head := ((logFormat (fun _ => 0)).foldl_place c.maxSegmentBytes [] [(1, [])] c.written
      (by simp)).1
    rw [← segs, split] at head
    have started := c.behind (fun _ => K)
    rw [split] at started
    refine started.file_le head (s.index_pos q hq) (fun p hp => ?_)
    exact s.after_kept (fun _ => K) p (by rw [kept]; exact List.mem_append_left _ hp) q hq
  obtain ⟨rest, tail, read⟩ := decode_of_replay _ behind s.batch_ne fresh s.increasing
    (fun q hq => (List.mem_append.mp hq).elim (fits q) (s.fits q)) first (by rw [replay, kept])
  exact decode_torn_append_ne hK hr preTorn neTorn pos hab h1 h18 (by rwa [length]) read

end Adverse

/-- What was acknowledged survives every crash and is read back with all that follows it, for
every checksum function, exactly when no torn bytes are left behind or nothing is written after
the crash. -/
theorem Resumption.recovers_iff (s : c.Resumption) :
    (∀ checksum, s.Recovers checksum) ↔ (s.further = [] ∨ ∀ checksum, c.CleanCut checksum) := by
  constructor
  · intro all
    by_cases nothing : s.further = []
    · exact .inl nothing
    · exact .inr (s.cleanCut_of_recovers nothing all)
  · rintro (nothing | clean) checksum
    · exact s.recovers_of_nothing_further checksum nothing
    · exact s.recovers_of_cleanCut checksum (clean checksum)

section Example

/-- One record of 38 bytes, cut one byte short. -/
def lostByte : Crash where
  maxSegmentBytes := 1000
  written := [[⟨1, 1, 1, 0, []⟩]]
  cut := 37
  batch_ne := by decide
  fits := by decide
  index_pos := by decide
  increasing := by decide

def rewritten : lostByte.Resumption where
  maxSegmentBytes := 1000
  further := [[⟨1, 1, 1, 0, []⟩]]
  batch_ne := by decide
  fits := by decide
  index_pos := by decide
  increasing := by decide
  after_kept := by
    intro checksum
    rw [lostByte.kept_congr (fun _ => 1) checksum]
    decide +kernel

/-- The record written after the crash is lost: its first bytes complete the torn header, whose
length field then asks for more payload than there is. -/
theorem acknowledged_record_lost : ¬ ∀ (c : Crash) (s : c.Resumption) checksum,
    s.Recovers checksum := by
  intro all
  obtain ⟨w, opened, replay⟩ := all lostByte rewritten (fun _ => 1)
  have reads : (WalStore.open (logFormat (fun _ => 1)) (lostByte.dir (fun _ => 1))
      rewritten.maxSegmentBytes).map (fun w => (w.appendBatches rewritten.further).replay) =
      .ok ([], none) := by
    decide +kernel
  rw [opened, Except.map, replay] at reads
  have empty := congrArg Prod.fst (Except.ok.inj reads)
  rw [List.map_eq_nil_iff, List.append_eq_nil_iff] at empty
  exact absurd empty.2 (by decide)

end Example
end Crash
end TinyKeeper
