import Mathlib.Data.BitVec

/-!
# Bitmaps

A set of numbers in words of 64 bits.
-/

namespace Lib

abbrev Bitmap := Nat → BitVec 64

namespace Bitmap

def bit (m : Bitmap) (i : Nat) : Bool := m (i >>> 6) &&& (1#64 <<< (i &&& 63)) != 0

def set (m : Bitmap) (i : Nat) : Bitmap :=
  fun w => if w = i >>> 6 then m w ||| (1#64 <<< (i &&& 63)) else m w

def clear (m : Bitmap) (i : Nat) : Bitmap :=
  fun w => if w = i >>> 6 then m w &&& ~~~(1#64 <<< (i &&& 63)) else m w

variable {m : Bitmap}

theorem place (i j : Nat) : i = j ↔ i >>> 6 = j >>> 6 ∧ i &&& 63 = j &&& 63 := by
  have hmod : ∀ n, n &&& 63 = n % 64 := fun n => Nat.and_two_pow_sub_one_eq_mod n 6
  rw [hmod, hmod, Nat.shiftRight_eq_div_pow, Nat.shiftRight_eq_div_pow]
  omega

theorem place_lt (i : Nat) : i &&& 63 < 64 := Nat.lt_succ_of_le Nat.and_le_right

theorem bit_eq (m : Bitmap) (i : Nat) : m.bit i = (m (i >>> 6)).getLsbD (i &&& 63) := by
  have hi := place_lt i
  unfold bit
  rw [← BitVec.twoPow_eq, BitVec.and_twoPow]
  cases (m (i >>> 6)).getLsbD (i &&& 63) with
  | false => simp
  | true =>
    have hne : BitVec.twoPow 64 (i &&& 63) ≠ 0#64 := by
      intro h
      have := congrArg (fun w => w.getLsbD (i &&& 63)) h
      simp [hi] at this
    simpa using hne

@[simp] theorem bit_set (i j : Nat) : (m.set i).bit j = (m.bit j || decide (i = j)) := by
  have hi := place_lt i
  have hj := place_lt j
  rw [bit_eq, bit_eq, set]
  by_cases hword : j >>> 6 = i >>> 6
  · rw [if_pos hword, BitVec.getLsbD_or, ← BitVec.twoPow_eq, BitVec.getLsbD_twoPow]
    simp [place i j, hword, hi, hj]
  · rw [if_neg hword]
    simp [place i j, Ne.symm hword]

@[simp] theorem bit_clear (i j : Nat) : (m.clear i).bit j = (m.bit j && !decide (i = j)) := by
  have hi := place_lt i
  have hj := place_lt j
  rw [bit_eq, bit_eq, clear]
  by_cases hword : j >>> 6 = i >>> 6
  · rw [if_pos hword, BitVec.getLsbD_and, BitVec.getLsbD_not, ← BitVec.twoPow_eq, BitVec.getLsbD_twoPow]
    simp [place i j, hword, hi, hj]
  · rw [if_neg hword]
    simp [place i j, Ne.symm hword]

end Bitmap

end Lib
