import Mathlib.Data.List.Basic
import Mathlib.Data.Nat.Sqrt
import Siathos.Lib.Buffer

/-!
# SHA-256

The standard hash, for messages that are whole bytes. The message is padded, cut into blocks of 64
bytes, and the blocks are mixed into eight words one after another.
-/

namespace Lib

/-- A number of `w` bytes, the highest byte first. -/
def bigEndian (w n : Nat) : List UInt8 := (littleEndian w n).reverse

@[simp] theorem length_bigEndian (w n : Nat) : (bigEndian w n).length = w := by simp [bigEndian]

/-! ## Blocks -/

/-- The whole blocks of `n` bytes at the start of a stream. -/
def blocks {α : Type} (n : Nat) (l : List α) : List (List α) :=
  (List.range (l.length / n)).map fun i => (l.drop (i * n)).take n

section Blocks

variable {α : Type} {n : Nat} {l r : List α}

theorem blocks_one (hn : 0 < n) (h : l.length = n) : blocks n l = [l] := by
  subst h
  simp [blocks, Nat.div_self hn]

theorem blocks_append (hn : 0 < n) (h : n ∣ l.length) (r : List α) : blocks n (l ++ r) = blocks n l ++ blocks n r := by
  obtain ⟨k, hk⟩ := h
  have hcount : (l ++ r).length / n = k + r.length / n := by
    rw [List.length_append, hk, Nat.mul_add_div hn]
  have hleft : l.length / n = k := by rw [hk, Nat.mul_div_cancel_left k hn]
  rw [blocks, blocks, blocks, hcount, hleft, List.range_add, List.map_append, List.map_map]
  congr 1
  · refine List.map_congr_left fun i hi => ?_
    have hroom : (i + 1) * n ≤ k * n := Nat.mul_le_mul_right n (List.mem_range.mp hi)
    rw [Nat.add_mul, Nat.one_mul] at hroom
    rw [Nat.mul_comm n k] at hk
    rw [List.drop_append_of_le_length (by omega), List.take_append_of_le_length (by rw [List.length_drop]; omega)]
  · refine List.map_congr_left fun i _ => ?_
    rw [Function.comp_apply, Nat.add_mul, ← Nat.mul_comm n k, ← hk, List.drop_append, Nat.add_sub_cancel_left,
      List.drop_eq_nil_of_le (Nat.le_add_right _ _), List.nil_append]

end Blocks

namespace Sha256

abbrev Word := BitVec 32

/-- The eight words of a hash value, or the working variables. -/
@[ext] structure State where
  a : Word
  b : Word
  c : Word
  d : Word
  e : Word
  f : Word
  g : Word
  h : Word
deriving DecidableEq

/-! ## Constants -/

/-- The greatest number made of `r` and `n` more bits whose power does not exceed `x`. -/
def root (power x : Nat) : Nat → Nat → Nat
  | 0, r => r
  | n + 1, r => root power x n (if (r + 2 ^ n) ^ power ≤ x then r + 2 ^ n else r)

def primes : List Nat :=
  (List.range 312).filter fun p => 2 ≤ p && (List.range p).all fun d => d < 2 || p % d != 0

/-- The first 32 bits behind the point of the square roots of the first eight primes. -/
def roots : List Word := (primes.take 8).map fun p => BitVec.ofNat 32 (root 2 (p * 2 ^ 64) 64 0)

def initial : State :=
  ⟨roots.getD 0 0, roots.getD 1 0, roots.getD 2 0, roots.getD 3 0, roots.getD 4 0, roots.getD 5 0, roots.getD 6 0,
    roots.getD 7 0⟩

/-- The first 32 bits behind the point of the cube roots of the first 64 primes. -/
def constants : List Word := primes.map fun p => BitVec.ofNat 32 (root 3 (p * 2 ^ 96) 64 0)

/-! ## The compression of one block -/

def choose (x y z : Word) : Word := (x &&& y) ^^^ (~~~x &&& z)

def majority (x y z : Word) : Word := (x &&& y) ^^^ (x &&& z) ^^^ (y &&& z)

def bigSigma0 (x : Word) : Word := x.rotateRight 2 ^^^ x.rotateRight 13 ^^^ x.rotateRight 22

def bigSigma1 (x : Word) : Word := x.rotateRight 6 ^^^ x.rotateRight 11 ^^^ x.rotateRight 25

def sigma0 (x : Word) : Word := x.rotateRight 7 ^^^ x.rotateRight 18 ^^^ x >>> 3

def sigma1 (x : Word) : Word := x.rotateRight 17 ^^^ x.rotateRight 19 ^^^ x >>> 10

/-- The word in the four bytes from an index on. -/
def wordAt (block : List UInt8) (i : Nat) : Word :=
  (block.getD i 0).toBitVec ++ (block.getD (i + 1) 0).toBitVec ++ (block.getD (i + 2) 0).toBitVec ++
    (block.getD (i + 3) 0).toBitVec

/-- The words of the block, and `n` more. -/
def schedule (block : List UInt8) : Nat → List Word
  | 0 => (List.range 16).map fun t => wordAt block (4 * t)
  | n + 1 =>
    let w := schedule block n
    w ++ [sigma1 (w.getD (n + 14) 0) + w.getD (n + 9) 0 + sigma0 (w.getD (n + 1) 0) + w.getD n 0]

def round (s : State) (k w : Word) : State :=
  let t1 := s.h + bigSigma1 s.e + choose s.e s.f s.g + k + w
  let t2 := bigSigma0 s.a + majority s.a s.b s.c
  ⟨t1 + t2, s.a, s.b, s.c, s.d + t1, s.e, s.f, s.g⟩

def compress (s : State) (block : List UInt8) : State :=
  let w := schedule block 48
  let r := (List.range 64).foldl (fun r t => round r (constants.getD t 0) (w.getD t 0)) s
  ⟨r.a + s.a, r.b + s.b, r.c + s.c, r.d + s.d, r.e + s.e, r.f + s.f, r.g + s.g, r.h + s.h⟩

/-! ## Messages -/

/-- A one bit, as few zeros as fill the last block, and the length in bits. -/
def padding (l : Nat) : List UInt8 := 0x80 :: List.replicate ((119 - l % 64) % 64) 0 ++ bigEndian 8 (8 * l)

def State.words (s : State) : List Word := [s.a, s.b, s.c, s.d, s.e, s.f, s.g, s.h]

def State.digest (s : State) : List UInt8 := s.words.flatMap fun w => bigEndian 4 w.toNat

end Sha256

open Sha256 in
def sha256 (m : List UInt8) : List UInt8 := ((blocks 64 (m ++ padding m.length)).foldl compress initial).digest

@[simp] theorem length_sha256 (m : List UInt8) : (sha256 m).length = 32 := by
  simp [sha256, Sha256.State.digest, Sha256.State.words]

example : sha256 (ascii "abc") = [0xBA, 0x78, 0x16, 0xBF, 0x8F, 0x01, 0xCF, 0xEA, 0x41, 0x41, 0x40, 0xDE, 0x5D, 0xAE,
    0x22, 0x23, 0xB0, 0x03, 0x61, 0xA3, 0x96, 0x17, 0x7A, 0x9C, 0xB4, 0x10, 0xFF, 0x61, 0xF2, 0x00, 0x15, 0xAD] := by
  decide +kernel

end Lib
