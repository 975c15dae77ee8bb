import TinyKeeper.Changelog.Crash
import TinyKeeper.Changelog.Directory
import TinyKeeper.Changelog.Image
import TinyKeeper.KeeperServer.Recovery

/-! The log of the server as it lies on disk: what the calls write, byte by byte, and what a start
makes of files that a crash may have cut. The serialization of an operation is that of the
`postcard` crate; it is a parameter, and so is the checksum. -/
namespace TinyKeeper
variable (checksum : List UInt8 → BitVec 128) (serialize : WalOperation → List UInt8)
  (deserialize : List UInt8 → Option WalOperation)

namespace LogRecord

/-- The record that is appended for an operation. -/
def onDisk (r : LogRecord) : Record := ⟨1, UInt64.ofNat r.index, 0, 0, serialize r.op⟩

/-- The size of that record in its file. -/
def diskBytes (r : LogRecord) : ℕ := RecordHeader.size + (serialize r.op).length

/-- The record fits its fields, and its operation is read back as it was written. -/
structure Storable (r : LogRecord) : Prop where
  index : r.index < 2 ^ 63
  payload : (serialize r.op).length < 2 ^ 32
  restored : deserialize (serialize r.op) = some r.op

variable {serialize}

theorem encodeAll_onDisk_nil_iff (rs : List LogRecord) :
    (Record.logFormat checksum).encodeAll (rs.map (onDisk serialize)) = [] ↔ rs = [] := by
  cases rs with
  | nil => simp
  | cons r rs => simp [Record.logFormat, Record.bytes_ne_nil]

/-- A log takes as many bytes as is counted of its records. -/
theorem bytes_onDisk (rs : List LogRecord) :
    (Record.logFormat checksum).bytes
        ((Record.logFormat checksum).encodeAll (rs.map (onDisk serialize))) =
      (format (diskBytes serialize)).bytes rs := by
  induction rs with
  | nil => rfl
  | cons r rs ih =>
    rw [List.map_cons, Codec.encodeAll_cons, LogFormat.bytes_append, ih, Record.bytes_logFormat]
    have size : ((Record.logFormat checksum).encode (r.onDisk serialize)).length =
        r.diskBytes serialize := Record.bytes_length checksum _
    rw [size]
    rfl

theorem index_onDisk {r : LogRecord} (within : r.index < 2 ^ 63) :
    (Record.logFormat checksum).index (r.onDisk serialize) =
      (format (diskBytes serialize)).index r :=
  UInt64.toNat_ofNat_of_lt' (within.trans (by decide))

variable (serialize)

/-- The log of whole records, as bytes. -/
def diskImage : (format (diskBytes serialize)).Image (Record.logFormat checksum) where
  stream rs := (Record.logFormat checksum).encodeAll (rs.map (onDisk serialize))
  record := onDisk serialize
  Within r := r.index < 2 ^ 63
  append _ _ := (congrArg _ List.map_append).trans (Codec.encodeAll_append _ _ _)
  empty_iff := encodeAll_onDisk_nil_iff checksum
  encode _ := (List.append_nil _).symm
  bytes := bytes_onDisk checksum
  index _ := index_onDisk checksum

end LogRecord

/-- The callback of the replay for one record as it was read. -/
def KeeperStorage.replayView (st : KeeperStorage) (orders : ℕ → HashOrders) (v : RecordView) :
    Panics KeeperStorage :=
  let st := st.setLastZxid v.1.toNat
  match deserialize v.2.2 with
  | some op => st.replayOperation (orders v.1.toNat) op
  | none => .error "corrupt WAL entry during replay"

def KeeperStorage.replayViews (orders : ℕ → HashOrders) (st : KeeperStorage) :
    List RecordView → Panics KeeperStorage
  | [] => .ok st
  | v :: vs => do
    let st ← st.replayView deserialize orders v
    st.replayViews orders vs

namespace KeeperServer

/-- Start on the files of a directory. -/
def newOnDisk (listing : List (String × List UInt8)) (orders : ℕ → HashOrders) :
    Except StartError (KeeperStorage × WalStore (Record.logFormat checksum)) :=
  match WalStore.open (Record.logFormat checksum) (scanDir listing) maxSegmentBytes with
  | .error e => .error (.wal e)
  | .ok wal =>
    let (views, stop) := wal.replay
    match (KeeperStorage.new 500).replayViews deserialize orders views with
    | .error message => .error (.panic message)
    | .ok storage =>
      match stop with
      | some e => .error (.wal e)
      | none => .ok (storage, wal)

end KeeperServer

section Reading
variable {checksum serialize deserialize}

theorem KeeperStorage.replayViews_onDisk {records : List LogRecord}
    (storable : ∀ r ∈ records, r.Storable serialize deserialize) (st : KeeperStorage)
    (orders : ℕ → HashOrders) :
    st.replayViews deserialize orders (records.map fun r => (r.onDisk serialize).view) =
      st.replayAll orders records := by
  induction records generalizing st with
  | nil => rfl
  | cons r records ih =>
    obtain ⟨index, -, restored⟩ := storable r (by simp)
    have number : (r.onDisk serialize).view.1.toNat = r.index :=
      (LogRecord.diskImage (fun _ => 0) serialize).index r index
    have payload : (r.onDisk serialize).view.2.2 = serialize r.op := rfl
    have rest := fun st => ih (fun r' mem => storable r' (List.mem_cons_of_mem r mem)) st
    simp only [List.map_cons, replayViews, replayAll, replayView, number, payload, restored,
      replayRecord, rest]

/-- A start on whole files behind which the last one was cut reads the records that are whole. -/
theorem KeeperServer.newOnDisk_cut {dir : Segments UInt8} {front : List (ℕ × List LogRecord)}
    {k cut : ℕ} {data kept : List LogRecord}
    (entries : dir.entries = front.map (Prod.map id (LogRecord.diskImage checksum serialize).stream)
      ++ [(k, ((LogRecord.diskImage checksum serialize).stream data).take cut)])
    (initial : kept <+: data)
    (whole : (Record.logFormat checksum).intact cut (data.map (LogRecord.onDisk serialize)) =
      kept.map (LogRecord.onDisk serialize))
    (storable : ∀ r ∈ recordsOf front ++ data, r.Storable serialize deserialize)
    (small : ∀ e ∈ dir.entries, e.1 < 2 ^ 64) {listing : List (String × List UInt8)}
    (listed : listing.Perm (filesOf dir)) (orders : ℕ → HashOrders) {st : KeeperStorage}
    (replayed : (KeeperStorage.new 500).replayAll orders (recordsOf front ++ kept) = .ok st) :
    ∃ wal, newOnDisk checksum deserialize listing orders = .ok (st, wal) := by
  have law := Record.logFormat_lawful checksum
  have fits (r : LogRecord) (mem : r ∈ recordsOf front ++ data) : (r.onDisk serialize).Fits :=
    (storable r mem).payload
  have last : (Record.logFormat checksum).decodeAll
      (((LogRecord.diskImage checksum serialize).stream data).take cut) =
        (kept.map fun r => (r.onDisk serialize).view, none) := by
    have read := law.decodeAll_take (data.map (LogRecord.onDisk serialize)) cut (by
      intro r mem
      obtain ⟨r, here, rfl⟩ := List.mem_map.mp mem
      exact fits r (List.mem_append_right _ here))
    rw [whole, List.map_map] at read
    exact read
  have closed : WalStore.replaySegments (Record.logFormat checksum)
      (front.map (Prod.map id (LogRecord.diskImage checksum serialize).stream)) =
        ((recordsOf front).map fun r => (r.onDisk serialize).view, none) := by
    let records := front.map (Prod.map id (List.map (LogRecord.onDisk serialize)))
    have all : recordsOf records = (recordsOf front).map (LogRecord.onDisk serialize) := by
      simp [records, recordsOf, List.flatMap_map, List.map_flatMap]
    have read := WalStore.replaySegments_encoded law records (by
      intro r mem
      obtain ⟨r, here, rfl⟩ := List.mem_map.mp (all ▸ mem)
      exact fits r (List.mem_append_left _ here))
    rw [all, List.map_map, List.map_map] at read
    exact read
  obtain ⟨wal, opened, segments, -, -⟩ := WalStore.open_of_decodes dir maxSegmentBytes entries last
  have read : wal.replay =
      ((recordsOf front ++ kept).map fun r => (r.onDisk serialize).view, none) := by
    rw [WalStore.replay_of_open law opened, entries,
      WalStore.replaySegments_append _ _ _ closed, WalStore.replaySegments, last, List.map_append]
    simp [WalStore.replaySegments]
  have sub : ∀ r ∈ recordsOf front ++ kept, r.Storable serialize deserialize := by
    intro r mem
    obtain mem | mem := List.mem_append.mp mem
    · exact storable r (List.mem_append_left _ mem)
    · exact storable r (List.mem_append_right _ (initial.subset mem))
  refine ⟨wal, ?_⟩
  rw [newOnDisk, scanDir_of_perm small listed, opened]
  simp only [read, KeeperStorage.replayViews_onDisk sub, replayed]

end Reading
end TinyKeeper
