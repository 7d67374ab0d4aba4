import Mathlib.Tactic.Ring
import Siathos.Lib.Buffer

/-!
# Numbers in bytes

What `v |= p[i] << (i * 8)` reads from bytes in memory is what `littleEndian` writes there.
-/

namespace Lib

/-- The number that the bytes are, with the least significant one first. -/
def fromBytes : List UInt8 → Nat
  | [] => 0
  | b :: bs => b.toNat + 256 * fromBytes bs

theorem fromBytes_littleEndian (w n : Nat) : fromBytes (littleEndian w n) = n % 256 ^ w := by
  induction w generalizing n with
  | zero => rw [littleEndian, fromBytes, pow_zero, Nat.mod_one]
  | succ w ih =>
    rw [littleEndian, fromBytes, ih, pow_succ', Nat.mod_mul]
    rfl

/-! ## Bytes put together with `|` -/

/-- One byte is put on top of `i` of them. -/
def putByte {w : Nat} (v : BitVec w) (i : Nat) (b : UInt8) : BitVec w := v ||| b.toBitVec.setWidth w <<< (i * 8)

/-- The bytes from `i` on are put on top. -/
def putBytes {w : Nat} : BitVec w → Nat → List UInt8 → BitVec w
  | v, _, [] => v
  | v, i, b :: bs => putBytes (putByte v i b) (i + 1) bs

theorem toNat_putByte {w i : Nat} {v : BitVec w} (hv : v.toNat < 2 ^ (8 * i)) (hi : 8 * (i + 1) ≤ w) (b : UInt8) :
    (putByte v i b).toNat = v.toNat + b.toNat * 2 ^ (8 * i) := by
  have hb : b.toNat < 2 ^ 8 := b.toNat_lt
  have hsmall : b.toNat * 2 ^ (8 * i) < 2 ^ w :=
    calc b.toNat * 2 ^ (8 * i) < 2 ^ 8 * 2 ^ (8 * i) := Nat.mul_lt_mul_of_pos_right hb (Nat.two_pow_pos _)
      _ = 2 ^ (8 * (i + 1)) := by rw [← pow_add, Nat.mul_add, Nat.add_comm]
      _ ≤ 2 ^ w := Nat.pow_le_pow_right (by decide) hi
  have hwide : b.toNat < 2 ^ w := Nat.lt_of_lt_of_le hb (Nat.pow_le_pow_right (by decide) (by omega))
  rw [putByte, BitVec.toNat_or, BitVec.toNat_shiftLeft, BitVec.toNat_setWidth, UInt8.toNat_toBitVec,
    Nat.mod_eq_of_lt hwide, Nat.shiftLeft_eq, Nat.mul_comm i 8, Nat.mod_eq_of_lt hsmall, Nat.or_comm,
    Nat.mul_comm b.toNat, ← Nat.two_pow_add_eq_or_of_lt hv, Nat.add_comm]

theorem toNat_putBytes {w i : Nat} {v : BitVec w} (hv : v.toNat < 2 ^ (8 * i)) {bs : List UInt8}
    (h : 8 * (i + bs.length) ≤ w) : (putBytes v i bs).toNat = v.toNat + fromBytes bs * 2 ^ (8 * i) := by
  induction bs generalizing v i with
  | nil => rw [putBytes, fromBytes, Nat.zero_mul, Nat.add_zero]
  | cons b bs ih =>
    rw [List.length_cons] at h
    have hb : b.toNat < 2 ^ 8 := b.toNat_lt
    have hput := toNat_putByte hv (by omega) b
    have hpow : 2 ^ (8 * (i + 1)) = 2 ^ 8 * 2 ^ (8 * i) := by rw [← pow_add, Nat.mul_add, Nat.add_comm]
    have hlt : (putByte v i b).toNat < 2 ^ (8 * (i + 1)) := by
      have hmul : (b.toNat + 1) * 2 ^ (8 * i) ≤ 2 ^ 8 * 2 ^ (8 * i) := Nat.mul_le_mul_right _ hb
      rw [Nat.add_mul] at hmul
      omega
    rw [putBytes, ih hlt (by omega), hput, fromBytes, hpow]
    ring

theorem putBytes_littleEndian {n : Nat} (v : BitVec (8 * n)) : putBytes 0 0 (littleEndian n v.toNat) = v := by
  have hpow : 256 ^ n = 2 ^ (8 * n) := (pow_mul 2 8 n).symm
  apply BitVec.eq_of_toNat_eq
  rw [toNat_putBytes (Nat.two_pow_pos _) (by rw [length_littleEndian]; omega), fromBytes_littleEndian, hpow,
    Nat.mod_eq_of_lt v.isLt]
  simp

end Lib
