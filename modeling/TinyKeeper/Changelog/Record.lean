import TinyKeeper.Lib.Bytes
import TinyKeeper.Lib.Codec

/-! The bytes of a WAL record: a checksum, a fixed header and the payload. The checksum function is
a parameter; nothing below depends on which one it is. -/
namespace TinyKeeper

inductive WalError
  | checksumMismatch
  | io
  deriving DecidableEq, Repr

structure Record where
  version : UInt8
  index : UInt64
  term : UInt64
  valueType : UInt8
  payload : List UInt8
  deriving DecidableEq

/-- The arguments `replay` hands to its callback for one record. -/
abbrev RecordView := UInt64 × UInt64 × List UInt8

namespace RecordHeader

def checksumSize : ℕ := 16
def size : ℕ := checksumSize + 1 + 8 + 8 + 1 + 4
def versionOffset : ℕ := checksumSize
def indexOffset : ℕ := versionOffset + 1
def termOffset : ℕ := indexOffset + 8
def valueTypeOffset : ℕ := termOffset + 8
def payloadLenOffset : ℕ := valueTypeOffset + 1

end RecordHeader

namespace Record
open RecordHeader
variable (checksum : List UInt8 → BitVec 128)

/-- Write a record behind a buffer: the checksum field is reserved first and filled in once the
bytes it covers are in place. The length field holds the payload length modulo `2 ^ 32`. -/
def encode (buf : List UInt8) (r : Record) : List UInt8 :=
  let start := buf.length
  let buf := buf ++ leBytes 16 0
  let checksumStart := buf.length
  let buf := buf ++ [r.version]
  let buf := buf ++ leBytes 8 r.index.toNat
  let buf := buf ++ leBytes 8 r.term.toNat
  let buf := buf ++ [r.valueType]
  let buf := buf ++ leBytes 4 r.payload.length
  let buf := buf ++ r.payload
  let sum := checksum (buf.drop checksumStart)
  buf.take start ++ leBytes 16 sum.toNat ++ buf.drop (start + checksumSize)

/-- Take one record off the front of the buffer. -/
def decode (buf : List UInt8) : Except WalError (Option (RecordView × List UInt8)) :=
  if buf.length < size then .ok none
  else
    let payloadLen := leNat (slice buf payloadLenOffset (payloadLenOffset + 4))
    let recordSize := size + payloadLen
    if buf.length < recordSize then .ok none
    else
      let stored := leNat (buf.take checksumSize)
      let computed := checksum (slice buf checksumSize recordSize)
      if stored ≠ computed.toNat then .error .checksumMismatch
      else
        let index := UInt64.ofNat (leNat (slice buf indexOffset (indexOffset + 8)))
        let term := UInt64.ofNat (leNat (slice buf termOffset (termOffset + 8)))
        let payload := slice buf size recordSize
        .ok (some ((index, term, payload), buf.drop recordSize))

/-- The bytes the checksum covers. -/
def body (r : Record) : List UInt8 :=
  r.version :: leBytes 8 r.index.toNat ++ leBytes 8 r.term.toNat ++ [r.valueType] ++
    leBytes 4 r.payload.length ++ r.payload

def bytes (r : Record) : List UInt8 := leBytes 16 (checksum r.body).toNat ++ r.body

/-- The length of a payload that its length field can hold. -/
def Fits (r : Record) : Prop := r.payload.length < 2 ^ 32

instance : DecidablePred Fits := fun r => inferInstanceAs (Decidable (r.payload.length < 2 ^ 32))

def view (r : Record) : RecordView := (r.index, r.term, r.payload)

theorem body_length (r : Record) : r.body.length = 22 + r.payload.length := by
  simp [body]
  omega

theorem bytes_length (r : Record) : (r.bytes checksum).length = size + r.payload.length := by
  simp [bytes, body_length, size, checksumSize]
  omega

theorem bytes_ne_nil (r : Record) : r.bytes checksum ≠ [] := by
  intro empty
  have length := bytes_length checksum r
  have : size = 38 := rfl
  rw [empty, List.length_nil] at length
  omega

/-- Filling in the checksum afterwards leaves what stood in the buffer alone. -/
theorem encode_eq (buf : List UInt8) (r : Record) :
    r.encode checksum buf = buf ++ r.bytes checksum := by
  have layout : buf ++ leBytes 16 0 ++ [r.version] ++ leBytes 8 r.index.toNat ++
      leBytes 8 r.term.toNat ++ [r.valueType] ++ leBytes 4 r.payload.length ++ r.payload =
      buf ++ leBytes 16 0 ++ r.body := by
    simp [body]
  have covered : (buf ++ leBytes 16 0 ++ r.body).drop (buf ++ leBytes 16 0).length = r.body :=
    List.drop_left
  have behind : (buf ++ leBytes 16 0 ++ r.body).drop (buf.length + checksumSize) = r.body := by
    rw [← covered]
    simp [checksumSize]
  have front : (buf ++ leBytes 16 0 ++ r.body).take buf.length = buf := by simp
  simp only [encode, bytes]
  rw [layout, covered, behind, front, List.append_assoc]

/-- The length field of a stream that starts with a record. -/
theorem payloadLen_bytes (r : Record) (h : r.Fits) (s : List UInt8) :
    leNat (slice (r.bytes checksum ++ s) payloadLenOffset (payloadLenOffset + 4)) =
      r.payload.length := by
  have field : slice (r.bytes checksum ++ s) payloadLenOffset (payloadLenOffset + 4) =
      leBytes 4 r.payload.length :=
    slice_mid (a := leBytes 16 (checksum r.body).toNat ++ [r.version] ++
        leBytes 8 r.index.toNat ++ leBytes 8 r.term.toNat ++ [r.valueType])
      (c := r.payload ++ s) (by simp [bytes, body])
      (by simp [payloadLenOffset, valueTypeOffset, termOffset, indexOffset, versionOffset,
        checksumSize])
      (by simp)
  rw [field, leNat_leBytes_of_lt (by simpa [Fits] using h)]

theorem decode_bytes (r : Record) (h : r.Fits) (s : List UInt8) :
    decode checksum (r.bytes checksum ++ s) = .ok (some (r.view, s)) := by
  have total : (r.bytes checksum ++ s).length = size + r.payload.length + s.length := by
    rw [List.length_append, bytes_length]
  have sum : leNat ((r.bytes checksum ++ s).take checksumSize) = (checksum r.body).toNat := by
    have field : (r.bytes checksum ++ s).take checksumSize =
        leBytes 16 (checksum r.body).toNat := by
      rw [bytes, List.append_assoc, List.take_left' (by simp [checksumSize])]
    rw [field, leNat_leBytes_of_lt]
    simpa using (checksum r.body).isLt
  have covered : slice (r.bytes checksum ++ s) checksumSize (size + r.payload.length) = r.body :=
    slice_mid (a := leBytes 16 (checksum r.body).toNat) (c := s) (by simp [bytes])
      (by simp [checksumSize]) (by simp [body_length, size, checksumSize]; omega)
  have index : slice (r.bytes checksum ++ s) indexOffset (indexOffset + 8) =
      leBytes 8 r.index.toNat :=
    slice_mid (a := leBytes 16 (checksum r.body).toNat ++ [r.version])
      (c := leBytes 8 r.term.toNat ++ [r.valueType] ++ leBytes 4 r.payload.length ++
        r.payload ++ s)
      (by simp [bytes, body]) (by simp [indexOffset, versionOffset, checksumSize]) (by simp)
  have term : slice (r.bytes checksum ++ s) termOffset (termOffset + 8) =
      leBytes 8 r.term.toNat :=
    slice_mid (a := leBytes 16 (checksum r.body).toNat ++ [r.version] ++
        leBytes 8 r.index.toNat)
      (c := [r.valueType] ++ leBytes 4 r.payload.length ++ r.payload ++ s)
      (by simp [bytes, body])
      (by simp [termOffset, indexOffset, versionOffset, checksumSize]) (by simp)
  have payload : slice (r.bytes checksum ++ s) size (size + r.payload.length) = r.payload :=
    slice_mid (a := leBytes 16 (checksum r.body).toNat ++ [r.version] ++
        leBytes 8 r.index.toNat ++ leBytes 8 r.term.toNat ++ [r.valueType] ++
        leBytes 4 r.payload.length)
      (c := s) (by simp [bytes, body]) (by simp [size, checksumSize]) rfl
  have rest : (r.bytes checksum ++ s).drop (size + r.payload.length) = s := by
    rw [← bytes_length checksum r, List.drop_left]
  have number (x : UInt64) : UInt64.ofNat (leNat (leBytes 8 x.toNat)) = x := by
    rw [leNat_leBytes_of_lt (by simpa using x.toNat_lt), UInt64.ofNat_toNat]
  simp only [decode, payloadLen_bytes checksum r h s, sum, covered, index, term, payload, rest,
    number]
  rw [if_neg (by omega), if_neg (by omega), if_neg (not_not_intro rfl)]
  rfl

/-- A record that was cut short is not a record yet. -/
theorem decode_of_prefix (r : Record) (p : List UInt8) (h : r.Fits)
    (pre : p <+: r.bytes checksum) (ne : p ≠ r.bytes checksum) :
    decode checksum p = .ok none := by
  have cut : p = (r.bytes checksum).take p.length := List.prefix_iff_eq_take.mp pre
  have short : p.length < size + r.payload.length := by
    rw [← bytes_length checksum r]
    exact lt_of_le_of_ne pre.length_le (fun full => ne (pre.eq_of_length full))
  by_cases header : p.length < size
  · rw [decode, if_pos header]
  · have len : leNat (slice p payloadLenOffset (payloadLenOffset + 4)) = r.payload.length := by
      have inside : payloadLenOffset + 4 ≤ p.length := by
        have : payloadLenOffset + 4 = size := rfl
        omega
      rw [cut, slice_take inside]
      simpa using payloadLen_bytes checksum r h []
    rw [decode, if_neg header]
    simp only [len]
    rw [if_pos short]

/-- What `decode` checked and read when it returned a record. -/
theorem decode_eq_some (buf rest : List UInt8) (v : RecordView)
    (h : decode checksum buf = .ok (some (v, rest))) :
    size + leNat (slice buf 34 38) ≤ buf.length ∧
      leNat (slice buf 0 16) =
        (checksum (slice buf 16 (size + leNat (slice buf 34 38)))).toNat ∧
      v = (UInt64.ofNat (leNat (slice buf 17 25)), UInt64.ofNat (leNat (slice buf 25 33)),
        slice buf size (size + leNat (slice buf 34 38))) ∧
      rest = buf.drop (size + leNat (slice buf 34 38)) := by
  simp only [decode] at h
  split_ifs at h with header short sum
  · cases h
  · cases h
  · cases h
    exact ⟨not_lt.mp short, not_not.mp sum, rfl, rfl⟩

theorem decode_progress (s : List UInt8) (v : RecordView) (rest : List UInt8)
    (h : decode checksum s = .ok (some (v, rest))) : rest.length < s.length := by
  obtain ⟨whole, -, -, rfl⟩ := decode_eq_some checksum s rest v h
  have : 0 < size := by decide
  rw [List.length_drop]
  omega

theorem slice_append (buf : List UInt8) {lo mid hi : ℕ} (h : lo ≤ mid) (h' : mid ≤ hi) :
    slice buf lo mid ++ slice buf mid hi = slice buf lo hi := by
  have front : (slice buf lo hi).take (mid - lo) = slice buf lo mid := by
    rw [slice, List.take_drop, List.take_take, slice]
    congr 2
    omega
  have back : (slice buf lo hi).drop (mid - lo) = slice buf mid hi := by
    rw [slice, List.drop_drop, slice]
    congr 1
    omega
  rw [← front, ← back, List.take_append_drop]

theorem slice_length (buf : List UInt8) (lo hi : ℕ) (h : hi ≤ buf.length) :
    (slice buf lo hi).length = hi - lo := by
  simp [slice, h]

theorem leBytes_leNat_slice (buf : List UInt8) (lo hi width : ℕ) (h : hi ≤ buf.length)
    (w : hi - lo = width) : leBytes width (leNat (slice buf lo hi)) = slice buf lo hi := by
  have whole := leBytes_leNat (slice buf lo hi)
  rwa [slice_length buf lo hi h, w] at whole

/-- What is accepted is the encoding of a record. -/
theorem decode_sound (buf rest : List UInt8) (v : RecordView)
    (h : decode checksum buf = .ok (some (v, rest))) :
    ∃ r : Record, r.Fits ∧ r.view = v ∧ buf = r.bytes checksum ++ rest := by
  obtain ⟨whole, sum, rfl, rfl⟩ := decode_eq_some checksum buf rest v h
  obtain ⟨n, hn⟩ : ∃ n, n = leNat (slice buf 34 38) := ⟨_, rfl⟩
  rw [← hn] at whole sum ⊢
  have header : size = 38 := rfl
  have payload : (slice buf size (size + n)).length = n := by
    rw [slice_length buf _ _ whole, Nat.add_sub_cancel_left]
  obtain ⟨version, hv⟩ := List.length_eq_one_iff.mp
    (slice_length buf 16 17 (by omega))
  obtain ⟨valueType, ht⟩ := List.length_eq_one_iff.mp
    (slice_length buf 33 34 (by omega))
  have number (lo hi : ℕ) (inside : hi ≤ buf.length) (width : hi - lo = 8) :
      leBytes 8 (UInt64.ofNat (leNat (slice buf lo hi))).toNat = slice buf lo hi := by
    have bound := leNat_lt (slice buf lo hi)
    rw [slice_length buf lo hi inside, width] at bound
    rw [UInt64.toNat_ofNat_of_lt' (by simpa using bound), leBytes_leNat_slice buf lo hi 8 inside width]
  let r : Record := ⟨version, UInt64.ofNat (leNat (slice buf 17 25)),
    UInt64.ofNat (leNat (slice buf 25 33)), valueType, slice buf size (size + n)⟩
  have body : r.body = slice buf 16 (size + n) := by
    have length : leBytes 4 r.payload.length = slice buf 34 38 := by
      rw [payload, hn, leBytes_leNat_slice buf 34 38 4 (by omega) rfl]
    have split : slice buf 16 17 ++ slice buf 17 25 ++ slice buf 25 33 ++ slice buf 33 34 ++
        slice buf 34 38 ++ slice buf 38 (38 + n) = slice buf 16 (38 + n) := by
      rw [slice_append buf (by omega) (by omega), slice_append buf (by omega) (by omega),
        slice_append buf (by omega) (by omega), slice_append buf (by omega) (by omega),
        slice_append buf (by omega) (by omega)]
    rw [Record.body, length]
    simp only [r, number 17 25 (by omega) rfl, number 25 33 (by omega) rfl, ← ht, header]
    rw [← split, hv]
    rfl
  refine ⟨r, ?_, rfl, ?_⟩
  · have bound := leNat_lt (slice buf 34 38)
    rw [slice_length buf 34 38 (by omega)] at bound
    rw [Fits, payload, hn]
    simpa using bound
  · rw [bytes, body, ← sum, leBytes_leNat_slice buf 0 16 16 (by omega) rfl,
      slice_append buf (by omega) (by omega)]
    exact (List.take_append_drop (size + n) buf).symm

/-- The record format of the log. -/
def codec : Codec UInt8 Record RecordView WalError where
  encode := bytes checksum
  decode := decode checksum
  progress := decode_progress checksum

@[simp] theorem codec_encode : (codec checksum).encode = bytes checksum := rfl

@[simp] theorem codec_decode : (codec checksum).decode = decode checksum := rfl

theorem codec_lawful : (codec checksum).Lawful Fits view where
  decode_nil := by
    rw [codec_decode, decode, if_pos (by decide)]
  decode_encode r s h := by
    rw [codec_encode, codec_decode, decode_bytes checksum r h s]
  decode_cut r p h pre ne := by
    rw [codec_decode, decode_of_prefix checksum r p h pre ne]

end Record
end TinyKeeper
