import TinyKeeper.ConnectionHandler
import TinyKeeper.Lib.Codec

/-! The frame format of the protocol, and the resumable reader of `read_frame` against it. -/
namespace TinyKeeper

/-- A length passes the check of `read_frame` exactly when it is small as an unsigned number. -/
theorem i32FromBeBytes_valid_iff (bs : List UInt8) (h : bs.length = 4) :
    (0 ≤ (i32FromBeBytes bs).toInt ∧ (i32FromBeBytes bs).toInt ≤ maxMessageLength) ↔
      beNat bs ≤ maxMessageLength := by
  have bound := beNat_lt bs
  rw [h] at bound
  rw [i32FromBeBytes_toInt bs h, maxMessageLength]
  split_ifs <;> omega

theorem i32FromBeBytes_toNat (bs : List UInt8) (h : bs.length = 4)
    (valid : 0 ≤ (i32FromBeBytes bs).toInt) : (i32FromBeBytes bs).toInt.toNat = beNat bs := by
  have bound := beNat_lt bs
  rw [h] at bound
  rw [i32FromBeBytes_toInt bs h] at valid ⊢
  split_ifs at valid ⊢ <;> omega

theorem beNat_header {n : ℕ} (valid : n ≤ maxMessageLength) : beNat (beBytes 4 n) = n := by
  apply beNat_beBytes_of_lt
  rw [maxMessageLength] at valid
  omega

/-- A frame is the length of its payload in four bytes and the payload. Lengths past the limit are
refused, whether they are too large or negative as an `i32`. -/
def frames : Codec UInt8 (List UInt8) (List UInt8) Unit where
  encode payload := beBytes 4 payload.length ++ payload
  decode s :=
    if s.length < 4 then .ok none
    else if maxMessageLength < beNat (s.take 4) then .error ()
    else if (s.drop 4).length < beNat (s.take 4) then .ok none
    else .ok (some ((s.drop 4).take (beNat (s.take 4)), (s.drop 4).drop (beNat (s.take 4))))
  progress := by
    intro s payload rest h
    split_ifs at h with short large less
    · cases h
    · cases h
    · obtain ⟨rfl, rfl⟩ := Prod.mk.inj (Option.some.inj (Except.ok.inj h))
      simp only [List.length_drop]
      omega

theorem frames_encode_length (payload : List UInt8) :
    (frames.encode payload).length = 4 + payload.length := by
  simp [frames]

theorem frames_decode_short (s : List UInt8) (h : s.length < 4) : frames.decode s = .ok none := by
  simp [frames, h]

/-- What the reader does once it has the length. -/
theorem frames_decode_length (header s : List UInt8) (h : header.length = 4) :
    frames.decode (header ++ s) =
      if maxMessageLength < beNat header then .error ()
      else if s.length < beNat header then .ok none
      else .ok (some (s.take (beNat header), s.drop (beNat header))) := by
  have enough : ¬ (header ++ s).length < 4 := by simp [h]
  have front : (header ++ s).take 4 = header := by rw [← h, List.take_left]
  have back : (header ++ s).drop 4 = s := by rw [← h, List.drop_left]
  simp only [frames, if_neg enough, front, back]

/-- The frames on a stream are those `encode` writes, and no payload exceeds the limit. -/
theorem frames_decode_iff (s payload rest : List UInt8) :
    frames.decode s = .ok (some (payload, rest)) ↔
      s = frames.encode payload ++ rest ∧ payload.length ≤ maxMessageLength := by
  constructor
  · intro h
    by_cases short : s.length < 4
    · rw [frames_decode_short s short] at h
      cases h
    · have header : (s.take 4).length = 4 := by simp only [List.length_take]; omega
      have spelled := beBytes_beNat (s.take 4)
      rw [← List.take_append_drop 4 s, frames_decode_length _ _ header] at h
      rw [header] at spelled
      split_ifs at h with large less
      · cases h
      · obtain ⟨rfl, rfl⟩ := Prod.mk.inj (Option.some.inj (Except.ok.inj h))
        have full : ((s.drop 4).take (beNat (s.take 4))).length = beNat (s.take 4) := by
          rw [List.length_take]
          omega
        constructor
        · change s = beBytes 4 _ ++ _ ++ _
          rw [full, spelled, List.append_assoc, List.take_append_drop, List.take_append_drop]
        · omega
  · intro ⟨split, fits⟩
    have length := beNat_header fits
    change s = beBytes 4 payload.length ++ payload ++ rest at split
    rw [split, List.append_assoc, frames_decode_length _ _ (by simp), length, if_neg (by omega),
      if_neg (by simp), List.take_left, List.drop_left]

theorem frames_lawful : frames.Lawful (fun payload => payload.length ≤ maxMessageLength) id where
  decode_nil := rfl
  decode_encode payload s fits := (frames_decode_iff _ _ _).mpr ⟨rfl, fits⟩
  decode_cut := by
    intro payload cut fits initial ne
    have shorter : cut.length < (frames.encode payload).length := by
      have unequal : cut.length ≠ (frames.encode payload).length :=
        fun same => ne (initial.eq_of_length same)
      have le := initial.length_le
      omega
    rw [frames_encode_length] at shorter
    by_cases short : cut.length < 4
    · exact frames_decode_short cut short
    · have front : cut.take 4 = beBytes 4 payload.length := by
        have same := List.prefix_iff_eq_take.mp initial
        rw [same, List.take_take, min_eq_left (by omega)]
        exact List.take_left' (by simp)
      have length := beNat_header fits
      rw [← List.take_append_drop 4 cut, front, frames_decode_length _ _ (by simp), length,
        if_neg (by omega), if_pos (by simp only [List.length_drop]; omega)]

theorem readExact_eq (size : ℕ) (buffer socket : List UInt8) (h : buffer.length ≤ size) :
    readExact size buffer socket = ((buffer ++ socket).take size, (buffer ++ socket).drop size) := by
  rw [readExact, List.take_append, List.take_of_length_le h, List.drop_append,
    List.drop_of_length_le h, List.nil_append]

namespace ReadFrame

/-- What a poll can do, in terms of the stream from the start of the frame. -/
inductive Polled (future : ReadFrame) (socket : List UInt8) : Poll × List UInt8 → Prop
  | short {future' : ReadFrame} (decoded : frames.decode (future.taken ++ socket) = .ok none)
      (taken : future'.taken = future.taken ++ socket) :
      Polled future socket (.pending future', [])
  | frame {payload rest : List UInt8}
      (decoded : frames.decode (future.taken ++ socket) = .ok (some (payload, rest))) :
      Polled future socket (.ready (some payload), rest)
  | invalid {rest : List UInt8} (decoded : frames.decode (future.taken ++ socket) = .error ())
      (less : rest.length ≤ (future.taken ++ socket).length) :
      Polled future socket (.ready none, rest)

/-- The second stage, started with part of the payload, reads what the format says is behind the
header. -/
theorem pollPayload_polled (future : ReadFrame) (socket header payload rest : List UInt8)
    (valid : beNat header ≤ maxMessageLength) (length : header.length = 4)
    (le : payload.length ≤ beNat header)
    (stream : future.taken ++ socket = header ++ (payload ++ rest)) :
    Polled future socket (pollPayload (beNat header) valid payload rest) := by
  have decoded := frames_decode_length header (payload ++ rest) length
  rw [← stream, if_neg (by omega)] at decoded
  have spelled := beBytes_beNat header
  rw [length] at spelled
  simp only [pollPayload, readExact_eq _ _ _ le]
  split_ifs with short
  · have less : (payload ++ rest).length < beNat header := by
      rw [List.length_take] at short
      omega
    rw [if_pos less] at decoded
    simp only [List.take_of_length_le less.le, List.drop_of_length_le less.le]
    apply Polled.short decoded
    rw [stream, taken, spelled]
  · have enough : ¬ (payload ++ rest).length < beNat header := by
      rw [List.length_take] at short
      omega
    rw [if_neg enough] at decoded
    exact Polled.frame decoded

/-- The two-stage reader reads the frame format: what it takes over its polls decodes as one
stream. -/
theorem poll_polled (future : ReadFrame) (socket : List UInt8) :
    Polled future socket (future.poll socket) := by
  cases future with
  | readLength lengthBuffer short =>
    simp only [poll, readExact_eq _ _ _ short.le]
    split_ifs with few valid
    · have less : (lengthBuffer ++ socket).length < 4 := by
        rw [List.length_take] at few
        omega
      simp only [List.take_of_length_le less.le, List.drop_of_length_le less.le]
      exact Polled.short (frames_decode_short _ less) rfl
    · have header : ((lengthBuffer ++ socket).take 4).length = 4 := by
        rw [List.length_take] at few ⊢
        omega
      have length := i32FromBeBytes_toNat _ header valid.1
      have small := (i32FromBeBytes_valid_iff _ header).mp valid
      have read := pollPayload_polled (.readLength lengthBuffer short) socket
        ((lengthBuffer ++ socket).take 4) [] ((lengthBuffer ++ socket).drop 4) small header
        (by simp) (List.take_append_drop 4 _).symm
      simpa only [length] using read
    · have header : ((lengthBuffer ++ socket).take 4).length = 4 := by
        rw [List.length_take] at few ⊢
        omega
      have large : maxMessageLength < beNat ((lengthBuffer ++ socket).take 4) := by
        rw [i32FromBeBytes_valid_iff _ header] at valid
        omega
      have decoded := frames_decode_length _ ((lengthBuffer ++ socket).drop 4) header
      rw [List.take_append_drop, if_pos large] at decoded
      apply Polled.invalid decoded
      simp only [taken, List.length_drop]
      omega
  | readPayload messageLength valid payload short =>
    have length := beNat_header valid
    have read := pollPayload_polled (.readPayload messageLength valid payload short) socket
      (beBytes 4 messageLength) payload socket (by omega) (by simp) (by omega)
      (List.append_assoc _ _ _)
    simpa only [poll, length] using read

end ReadFrame
end TinyKeeper
