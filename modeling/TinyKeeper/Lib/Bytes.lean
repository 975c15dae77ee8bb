import Mathlib.Data.List.Basic
import Mathlib.Algebra.Order.Ring.Nat
import Mathlib.Tactic.Ring

/-! Numbers as byte strings of a fixed width, least or most significant byte first. -/
namespace TinyKeeper

/-- The bytes `buf[lo..hi]`. -/
def slice (buf : List UInt8) (lo hi : ℕ) : List UInt8 := (buf.take hi).drop lo

theorem slice_mid {buf a b c : List UInt8} {lo hi : ℕ} (h : buf = a ++ b ++ c)
    (hlo : a.length = lo) (hhi : lo + b.length = hi) : slice buf lo hi = b := by
  subst h hlo hhi
  rw [slice, ← List.length_append, List.take_left, List.drop_left]

theorem slice_take {buf : List UInt8} {lo hi n : ℕ} (h : hi ≤ n) :
    slice (buf.take n) lo hi = slice buf lo hi := by
  rw [slice, List.take_take, Nat.min_eq_left h, slice]

/-- The low `n` bytes of a number, least significant byte first. -/
def leBytes : ℕ → ℕ → List UInt8
  | 0, _ => []
  | n + 1, x => UInt8.ofNat x :: leBytes n (x / 256)

def leNat : List UInt8 → ℕ
  | [] => 0
  | b :: bs => b.toNat + 256 * leNat bs

@[simp] theorem leBytes_length (n x : ℕ) : (leBytes n x).length = n := by
  induction n generalizing x with
  | zero => rfl
  | succ n ih => simp [leBytes, ih]

/-- Reading back a fixed-width number keeps it modulo its width. -/
theorem leNat_leBytes (n x : ℕ) : leNat (leBytes n x) = x % 256 ^ n := by
  induction n generalizing x with
  | zero => simp [leBytes, leNat, Nat.mod_one]
  | succ n ih =>
    have low : (UInt8.ofNat x).toNat = x % 256 := by simp
    rw [leBytes, leNat, ih, low, pow_succ', Nat.mod_mul]

theorem leNat_leBytes_of_lt {n x : ℕ} (h : x < 256 ^ n) : leNat (leBytes n x) = x := by
  rw [leNat_leBytes, Nat.mod_eq_of_lt h]

/-- A byte string is the fixed-width form of the number it spells. -/
theorem leBytes_leNat (bs : List UInt8) : leBytes bs.length (leNat bs) = bs := by
  induction bs with
  | nil => rfl
  | cons b bs ih =>
    have hb : b.toNat < 256 := b.toNat_lt
    have low : UInt8.ofNat (b.toNat + 256 * leNat bs) = b := by
      apply UInt8.toNat_inj.mp
      rw [UInt8.toNat_ofNat']
      omega
    have high : (b.toNat + 256 * leNat bs) / 256 = leNat bs := by omega
    rw [List.length_cons, leBytes, leNat, low, high, ih]

theorem leNat_lt (bs : List UInt8) : leNat bs < 256 ^ bs.length := by
  induction bs with
  | nil => simp [leNat]
  | cons b bs ih =>
    have hb : b.toNat < 256 := b.toNat_lt
    rw [leNat, List.length_cons, pow_succ']
    omega

/-- The low `n` bytes of a number, most significant byte first. -/
def beBytes (n x : ℕ) : List UInt8 := (leBytes n x).reverse

def beNat (bs : List UInt8) : ℕ := leNat bs.reverse

@[simp] theorem beBytes_length (n x : ℕ) : (beBytes n x).length = n := by simp [beBytes]

theorem beNat_beBytes_of_lt {n x : ℕ} (h : x < 256 ^ n) : beNat (beBytes n x) = x := by
  rw [beNat, beBytes, List.reverse_reverse, leNat_leBytes_of_lt h]

theorem beNat_lt (bs : List UInt8) : beNat bs < 256 ^ bs.length := by
  rw [beNat, ← List.length_reverse]
  exact leNat_lt _

theorem beBytes_beNat (bs : List UInt8) : beBytes bs.length (beNat bs) = bs := by
  rw [beBytes, beNat, ← List.length_reverse, leBytes_leNat, List.reverse_reverse]

/-- The `i32` that four big-endian bytes spell. -/
def i32FromBeBytes (bs : List UInt8) : Int32 := Int32.ofNat (beNat bs)

theorem i32FromBeBytes_toInt (bs : List UInt8) (h : bs.length = 4) :
    (i32FromBeBytes bs).toInt =
      if beNat bs < 2147483648 then (beNat bs : ℤ) else beNat bs - 4294967296 := by
  have bound := beNat_lt bs
  rw [h] at bound
  rw [i32FromBeBytes, Int32.toInt_ofNat', Int.bmod_def]
  simp only [Int32.size]
  split_ifs <;> omega

/-- `i32::to_be_bytes`. -/
def i32ToBeBytes (n : Int32) : List UInt8 := beBytes 4 n.toUInt32.toNat

/-- `i64::to_be_bytes`. -/
def i64ToBeBytes (n : Int64) : List UInt8 := beBytes 8 n.toUInt64.toNat

/-- The `i64` that eight big-endian bytes spell. -/
def i64FromBeBytes (bs : List UInt8) : Int64 := Int64.ofNat (beNat bs)

@[simp] theorem i32ToBeBytes_length (n : Int32) : (i32ToBeBytes n).length = 4 := beBytes_length _ _

@[simp] theorem i64ToBeBytes_length (n : Int64) : (i64ToBeBytes n).length = 8 := beBytes_length _ _

@[simp] theorem i32FromBeBytes_i32ToBeBytes (n : Int32) : i32FromBeBytes (i32ToBeBytes n) = n := by
  have bound : n.toUInt32.toNat < 256 ^ 4 := n.toUInt32.toNat_lt
  rw [i32FromBeBytes, i32ToBeBytes, beNat_beBytes_of_lt bound]
  apply Int32.toBitVec_inj.mp
  simp

@[simp] theorem i64FromBeBytes_i64ToBeBytes (n : Int64) : i64FromBeBytes (i64ToBeBytes n) = n := by
  have bound : n.toUInt64.toNat < 256 ^ 8 := n.toUInt64.toNat_lt
  rw [i64FromBeBytes, i64ToBeBytes, beNat_beBytes_of_lt bound]
  apply Int64.toBitVec_inj.mp
  simp

theorem i32ToBeBytes_i32FromBeBytes {bs : List UInt8} (h : bs.length = 4) :
    i32ToBeBytes (i32FromBeBytes bs) = bs := by
  have bound := beNat_lt bs
  have spelled := beBytes_beNat bs
  rw [h] at bound spelled
  have same : (Int32.ofNat (beNat bs)).toUInt32.toNat = beNat bs := by
    simp only [Int32.toUInt32_ofNat', UInt32.toNat_ofNat']
    omega
  rw [i32ToBeBytes, i32FromBeBytes, same, spelled]

theorem i64ToBeBytes_i64FromBeBytes {bs : List UInt8} (h : bs.length = 8) :
    i64ToBeBytes (i64FromBeBytes bs) = bs := by
  have bound := beNat_lt bs
  have spelled := beBytes_beNat bs
  rw [h] at bound spelled
  have same : (Int64.ofNat (beNat bs)).toUInt64.toNat = beNat bs := by
    simp only [Int64.toUInt64_ofNat', UInt64.toNat_ofNat']
    omega
  rw [i64ToBeBytes, i64FromBeBytes, same, spelled]

end TinyKeeper
