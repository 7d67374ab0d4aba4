import Siathos.Lib.Sha256

/-!
# HMAC and PBKDF2

Keyed hashing, for any hash function with its block length, and the derivation of keys from passwords, for
any pseudorandom function with its output length. Both are the standard ones.
-/

namespace Lib

/-- The bytes of two strings of one length, one by one. -/
def xor (l r : List UInt8) : List UInt8 := List.zipWith (· ^^^ ·) l r

@[simp] theorem length_xor {l r : List UInt8} (h : l.length = r.length) : (xor l r).length = l.length := by
  simp [xor, h]

section Hmac

variable (hash : List UInt8 → List UInt8) (block : Nat)

/-- A long key is hashed first, and zeros fill the block. -/
def hmacKey (key : List UInt8) : List UInt8 :=
  let k := if block < key.length then hash key else key
  k ++ List.replicate (block - k.length) 0

def hmac (key text : List UInt8) : List UInt8 :=
  hash ((hmacKey hash block key).map (· ^^^ 0x5c) ++ hash ((hmacKey hash block key).map (· ^^^ 0x36) ++ text))

end Hmac

namespace Pbkdf2

variable (prf : List UInt8 → List UInt8 → List UInt8) (hLen : Nat) (password salt : List UInt8)

/-- `U_1`, and then `U_2` and so on: the salt with the number of the block, hashed again and again. -/
def chain (i : Nat) : Nat → List UInt8
  | 0 => prf password (salt ++ bigEndian 4 i)
  | j + 1 => prf password (chain i j)

/-- The first `n + 1` of them, added up. -/
def sum (i : Nat) : Nat → List UInt8
  | 0 => chain prf password salt i 0
  | n + 1 => xor (sum i n) (chain prf password salt i (n + 1))

/-- The block with the number `i`, from `c` iterations. -/
def block (c i : Nat) : List UInt8 := sum prf password salt i (c - 1)

/-- The first bytes of the blocks one behind another. A longer key than four bytes can number is an error. -/
def key (c dkLen : Nat) : Option (List UInt8) :=
  if (2 ^ 32 - 1) * hLen < dkLen then none
  else
    let l := (dkLen + hLen - 1) / hLen
    some (((List.range l).flatMap fun i => block prf password salt c (i + 1)).take dkLen)

variable {prf hLen}

theorem length_chain (h : ∀ k m, (prf k m).length = hLen) (i j : Nat) :
    (chain prf password salt i j).length = hLen := by
  cases j with
  | zero => exact h _ _
  | succ j => exact h _ _

theorem length_sum (h : ∀ k m, (prf k m).length = hLen) (i n : Nat) : (sum prf password salt i n).length = hLen := by
  induction n with
  | zero => exact length_chain password salt h i 0
  | succ n ih => rw [sum, length_xor (ih.trans (length_chain password salt h i _).symm), ih]

theorem length_block (h : ∀ k m, (prf k m).length = hLen) (c i : Nat) : (block prf password salt c i).length = hLen :=
  length_sum password salt h i (c - 1)

theorem length_flatMap_const {α β : Type} {n : Nat} {f : α → List β} (h : ∀ a, (f a).length = n) (l : List α) :
    (l.flatMap f).length = l.length * n := by
  induction l with
  | nil => simp
  | cons a as ih => rw [List.flatMap_cons, List.length_append, h, ih, List.length_cons, Nat.succ_mul, Nat.add_comm]

theorem length_key (h : ∀ k m, (prf k m).length = hLen) (hpos : 0 < hLen) {c dkLen : Nat} {dk : List UInt8}
    (hkey : key prf hLen password salt c dkLen = some dk) : dk.length = dkLen := by
  unfold key at hkey
  split at hkey
  · contradiction
  · cases hkey
    have hcover : dkLen ≤ (dkLen + hLen - 1) / hLen * hLen := by
      have hdiv := Nat.div_add_mod (dkLen + hLen - 1) hLen
      have hmod := Nat.mod_lt (dkLen + hLen - 1) hpos
      rw [Nat.mul_comm] at hdiv
      omega
    rw [List.length_take, length_flatMap_const fun i => length_block password salt h c (i + 1), List.length_range,
      Nat.min_eq_left hcover]

end Pbkdf2

end Lib
