import TinyKeeper.Changelog.WalStore
import TinyKeeper.Lib.Run

/-! Reading a log that was cut anywhere: the records before the cut come back, and the cut itself
reads as the end of the log. -/
namespace TinyKeeper
namespace Record
variable (checksum : List UInt8 → BitVec 128)

/-- The buffer after the records were written behind it one after another. -/
def encodeLog (buf : List UInt8) (rs : List Record) : List UInt8 :=
  rs.foldl (fun buf r => r.encode checksum buf) buf

theorem encodeLog_eq (buf : List UInt8) (rs : List Record) :
    encodeLog checksum buf rs = buf ++ (codec checksum).encodeAll rs := by
  induction rs generalizing buf with
  | nil => simp [encodeLog]
  | cons r rs ih =>
    change encodeLog checksum (r.encode checksum buf) rs = _
    rw [ih, encode_eq, Codec.encodeAll_cons, codec_encode, List.append_assoc]

/-- A call of `decode` that returns a record. -/
def Decodes (buf : List UInt8) (v : RecordView) (rest : List UInt8) : Prop :=
  decode checksum buf = .ok (some (v, rest))

/-- The first `k` bytes of a log decode to the records that end within them, and then to the end
of the log; nothing is left when the log is whole. -/
theorem decode_truncated (rs : List Record) (h : ∀ r ∈ rs, r.Fits) (k : ℕ) :
    ∃ n rest, Run (Decodes checksum) ((encodeLog checksum [] rs).take k)
        ((rs.take n).map view) rest ∧
      decode checksum rest = .ok none ∧
      (∀ i < rs.length, i < n ↔ (encodeLog checksum [] (rs.take (i + 1))).length ≤ k) ∧
      ((encodeLog checksum [] rs).length ≤ k → rs.take n = rs ∧ rest = []) := by
  simp only [encodeLog_eq, List.nil_append]
  obtain ⟨torn, split, run, done⟩ := (codec_lawful checksum).run_take rs k h
  have front : rs.take ((codec checksum).intact k rs).length = (codec checksum).intact k rs :=
    (List.prefix_iff_eq_take.mp ((codec checksum).intact_initial k rs)).symm
  refine ⟨((codec checksum).intact k rs).length, torn, ?_, done, ?_, ?_⟩
  · rw [front]
    exact run
  · intro i hi
    exact (codec checksum).lt_length_intact_iff k rs i hi
  · intro whole
    have all : (codec checksum).intact k rs = rs := (codec checksum).intact_of_le k rs whole
    rw [all, List.take_of_length_le whole] at split
    rw [all, List.take_length]
    exact ⟨rfl, by simpa using split⟩

/-- The second of two records lost its last byte. -/
theorem decode_truncated_torn_payload :
    ∃ rest, Run (Decodes (fun _ => 7))
        ((encodeLog (fun _ => 7) [] [⟨1, 1, 0, 0, [7]⟩, ⟨1, 2, 0, 0, [8, 9]⟩]).take 78)
        [(1, 0, [7])] rest ∧ decode (fun _ => 7) rest = .ok none := by
  obtain ⟨n, rest, run, done, within, -⟩ :=
    decode_truncated (fun _ => 7) [⟨1, 1, 0, 0, [7]⟩, ⟨1, 2, 0, 0, [8, 9]⟩] (by decide) 78
  have first : 0 < n := (within 0 (by decide)).mpr (by decide)
  have second : ¬ 1 < n := fun more => absurd ((within 1 (by decide)).mp more) (by decide)
  obtain rfl : n = 1 := by omega
  exact ⟨rest, run, done⟩

end Record
end TinyKeeper
