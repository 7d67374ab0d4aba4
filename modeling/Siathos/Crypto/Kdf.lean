import Siathos.Crypto.Sha256
import Siathos.Lib.Kdf

/-!
# The key derivation of the kernel

`hmac_sha256` hashes into its output twice, and the derivation hands it that output again as its data.
-/

namespace Siathos.Crypto

open Lib

/-- What is hashed: bytes of their own, or what the output holds. -/
inductive Data
  | apart (d : List UInt8)
  | output (n : Nat)

def Data.read (out : Buf) : Data → List UInt8
  | apart d => d
  | output n => out.bytes n

-- What the stack holds where a context starts.
variable (stack : Buf)

def hmacSha256 (key : List UInt8) (data : Data) (out : Buf) : Buf :=
  let k : Buf :=
    if key.length > 64 then sha256Final (sha256Update (sha256Init stack) key) fun _ => 0
    else Buf.write (fun _ => 0) 0 key
  let ipad := (k.bytes 64).map (· ^^^ 0x36)
  let opad := (k.bytes 64).map (· ^^^ 0x5c)
  let out := sha256Final (sha256Update (sha256Update (sha256Init stack) ipad) (data.read out)) out
  sha256Final (sha256Update (sha256Update (sha256Init stack) opad) (out.bytes 32)) out

/-- `for(uint32_t r=2;r<=iters;r++)`, with `u` and `t`. -/
def pbkdf2Rounds (pw : List UInt8) (iters : BitVec 32) : Nat → BitVec 32 → Buf → Buf → Option (Buf × Buf)
  | 0, _, _, _ => none
  | fuel + 1, r, u, t =>
    if r ≤ iters then
      let u := hmacSha256 stack pw (.output 32) u
      pbkdf2Rounds pw iters fuel (r + 1) u (t.write 0 (xor (t.bytes 32) (u.bytes 32)))
    else some (u, t)

/-- `while(pos<outlen)`. -/
def pbkdf2Blocks (pw salt : List UInt8) (iters : BitVec 32) (outlen fuel : Nat) :
    Nat → Nat → BitVec 32 → Buf → Buf → Buf → Option Buf
  | 0, _, _, _, _, _ => none
  | turns + 1, pos, block, u, t, out =>
    if pos < outlen then
      let concat := salt.take (min salt.length 128) ++
        [lowByte (block >>> 24), lowByte (block >>> 16), lowByte (block >>> 8), lowByte block]
      let u := hmacSha256 stack pw (.apart concat) u
      (pbkdf2Rounds stack pw iters fuel 2 u (t.write 0 (u.bytes 32))).bind fun (u, t) =>
        let n := min 32 (outlen - pos)
        pbkdf2Blocks pw salt iters outlen fuel turns (pos + n) (block + 1) u t (out.write pos (t.bytes n))
    else some out

/-- Writes `outlen` bytes of key. Both loops may turn `fuel` times. -/
def pbkdf2HmacSha256 (fuel : Nat) (u t : Buf) (pw salt : List UInt8) (iters : BitVec 32) (out : Buf) (outlen : Nat) :
    Option Buf :=
  pbkdf2Blocks stack pw salt iters outlen fuel fuel 0 1 u t out

/-! ## Keyed hashing -/

theorem final_update (d out : Buf) (m : List UInt8) :
    sha256Final (sha256Update (sha256Init d) m) out = out.write 0 (sha256 m) :=
  sha256Final_eq ((holds_init d).update m) out

theorem final_update_update (d out : Buf) (m m' : List UInt8) :
    sha256Final (sha256Update (sha256Update (sha256Init d) m) m') out = out.write 0 (sha256 (m ++ m')) :=
  sha256Final_eq (((holds_init d).update m).update m') out

theorem key_bytes {l : List UInt8} (h : l.length ≤ 64) :
    (Buf.write (fun _ => 0) 0 l).bytes 64 = l ++ List.replicate (64 - l.length) 0 := by
  rw [Buf.bytes_write_drop _ h]
  congr 1
  rw [Buf.bytes, List.map_const', List.length_range, List.drop_replicate]

theorem hmacSha256_eq (key : List UInt8) (data : Data) (out : Buf) :
    hmacSha256 stack key data out = out.write 0 (hmac sha256 64 key (data.read out)) := by
  have hkey : ((if key.length > 64 then sha256Final (sha256Update (sha256Init stack) key) fun _ => 0
      else Buf.write (fun _ => 0) 0 key).bytes 64) = hmacKey sha256 64 key := by
    rw [hmacKey]
    split
    · rw [final_update, key_bytes (by simp)]
    · next h => rw [key_bytes (by omega)]
  simp only [hmacSha256, hkey, final_update_update, Buf.bytes_write_zero (length_sha256 _)]
  rw [Buf.write_again (by simp)]
  rfl

/-- Keyed hashing, as the derivation uses it. -/
def hmacOf : List UInt8 → List UInt8 → List UInt8 := hmac sha256 64

theorem length_hmacOf (key text : List UInt8) : (hmacOf key text).length = 32 := length_sha256 _

theorem bytes_hmacSha256 (key : List UInt8) (data : Data) (out : Buf) :
    (hmacSha256 stack key data out).bytes 32 = hmacOf key (data.read out) := by
  rw [hmacSha256_eq]
  exact Buf.bytes_write_zero (length_hmacOf _ _) out

/-! ## The iterations of one block -/

variable {pw salt : List UInt8} {iters : BitVec 32}

/-- After the iteration `r - 1`, `u` is the last hash and `t` the sum of all. The last one does not wrap around. -/
theorem rounds_eq (hmax : iters.toNat < 2 ^ 32 - 1) {i n k fuel : Nat} {r : BitVec 32} {u t : Buf}
    (hr : r.toNat = k + 2)
    (hn : k + n + 1 = iters.toNat) (hfuel : n < fuel) (hu : u.bytes 32 = Pbkdf2.chain hmacOf pw salt i k)
    (ht : t.bytes 32 = Pbkdf2.sum hmacOf pw salt i k) :
    ∃ u' t', pbkdf2Rounds stack pw iters fuel r u t = some (u', t') ∧
      t'.bytes 32 = Pbkdf2.block hmacOf pw salt iters.toNat i := by
  induction n generalizing k fuel r u t with
  | zero =>
    obtain ⟨fuel, rfl⟩ := Nat.exists_eq_succ_of_ne_zero (Nat.ne_of_gt hfuel)
    refine ⟨u, t, ?_, ?_⟩
    · rw [pbkdf2Rounds, if_neg]
      rw [BitVec.le_def]
      omega
    · rw [ht, Pbkdf2.block]
      congr 1
      omega
  | succ n ih =>
    obtain ⟨fuel, rfl⟩ := Nat.exists_eq_succ_of_ne_zero (Nat.ne_of_gt (Nat.zero_lt_of_lt hfuel))
    have hle : r ≤ iters := by
      rw [BitVec.le_def]
      omega
    have hnext : (r + 1).toNat = k + 1 + 2 := by
      simp [BitVec.toNat_add, hr]
      omega
    have hu' : (hmacSha256 stack pw (.output 32) u).bytes 32 = Pbkdf2.chain hmacOf pw salt i (k + 1) := by
      rw [bytes_hmacSha256, Data.read, hu]
      rfl
    rw [pbkdf2Rounds, if_pos hle]
    refine ih hnext (by omega) (by omega) hu' ?_
    rw [Buf.bytes_write_zero, ht, hu']
    · rfl
    · simp

/-! ## The blocks of the key -/

theorem bigEndian_number (i : Nat) :
    [lowByte (BitVec.ofNat 32 i >>> 24), lowByte (BitVec.ofNat 32 i >>> 16), lowByte (BitVec.ofNat 32 i >>> 8),
      lowByte (BitVec.ofNat 32 i)] = bigEndian 4 i := by
  have hlow : ∀ k, lowByte (BitVec.ofNat 32 i >>> k) = UInt8.ofNat (i % 2 ^ 32 / 2 ^ k) := by
    intro k
    apply UInt8.toNat_inj.mp
    simp [lowByte, Nat.shiftRight_eq_div_pow]
  have hlast : lowByte (BitVec.ofNat 32 i) = UInt8.ofNat (i % 2 ^ 32) := by simpa using hlow 0
  simp only [hlow, hlast, bigEndian, littleEndian, List.reverse_cons, List.reverse_nil, List.nil_append,
    List.cons_append, Nat.div_div_eq_div_mul, List.cons.injEq, and_true]
  refine ⟨?_, ?_, ?_, ?_⟩ <;>
  · apply ofNat_congr
    omega

/-- The blocks from the number `i + 1` on, as far as the key goes. -/
theorem blocks_eq (hone : 0 < iters.toNat) (hmax : iters.toNat < 2 ^ 32 - 1) (hsalt : salt.length ≤ 128)
    {outlen fuel : Nat}
    (hfuel : iters.toNat ≤ fuel) {k turns i pos : Nat} (hturns : k < turns) (hk : outlen - pos ≤ 32 * k)
    (u t out : Buf) :
    pbkdf2Blocks stack pw salt iters outlen fuel turns pos (BitVec.ofNat 32 (i + 1)) u t out =
      some (out.write pos (((List.range k).flatMap fun j =>
        Pbkdf2.block hmacOf pw salt iters.toNat (i + j + 1)).take (outlen - pos))) := by
  induction k generalizing turns i pos u t out with
  | zero =>
    obtain ⟨turns, rfl⟩ := Nat.exists_eq_succ_of_ne_zero (Nat.ne_of_gt hturns)
    rw [pbkdf2Blocks, if_neg (by omega)]
    simp [Buf.write]
  | succ k ih =>
    obtain ⟨turns, rfl⟩ := Nat.exists_eq_succ_of_ne_zero (Nat.ne_of_gt (Nat.zero_lt_of_lt hturns))
    rw [pbkdf2Blocks]
    by_cases hpos : pos < outlen
    · have hconcat : salt.take (min salt.length 128) = salt := by
        rw [Nat.min_eq_left hsalt, List.take_length]
      have hu : (hmacSha256 stack pw (.apart (salt ++ bigEndian 4 (i + 1))) u).bytes 32 =
          Pbkdf2.chain hmacOf pw salt (i + 1) 0 := bytes_hmacSha256 stack pw _ u
      have ht : (t.write 0 ((hmacSha256 stack pw (.apart (salt ++ bigEndian 4 (i + 1))) u).bytes 32)).bytes 32 =
          Pbkdf2.sum hmacOf pw salt (i + 1) 0 := (Buf.bytes_write_zero (Buf.length_bytes _ _) t).trans hu
      have hfirst : iters.toNat - 1 < fuel := by omega
      obtain ⟨u', t', hrounds, ht'⟩ :=
        rounds_eq stack hmax (rfl : (2 : BitVec 32).toNat = 0 + 2) (by omega) hfirst hu ht
      have hcut : t'.bytes (min 32 (outlen - pos)) =
          (Pbkdf2.block hmacOf pw salt iters.toNat (i + 1)).take (outlen - pos) := by
        rw [← ht', ← Buf.take_bytes t' (Nat.min_le_left 32 (outlen - pos)), List.take_eq_take_iff, Buf.length_bytes]
        omega
      rw [if_pos hpos]
      simp only [hconcat, bigEndian_number, hrounds, Option.bind_some]
      have hnext : BitVec.ofNat 32 (i + 1) + 1 = BitVec.ofNat 32 (i + 1 + 1) := by
        rw [BitVec.ofNat_add (i + 1) 1]
        rfl
      have hfirst : List.range (k + 1) = 0 :: (List.range k).map Nat.succ := List.range_succ_eq_map
      have hrest : ∀ j, i + (j + 1) + 1 = i + 1 + j + 1 := fun j => by omega
      rw [hnext, ih (by omega) (by omega), hcut, hfirst, List.flatMap_cons, List.flatMap_map, List.take_append,
        Buf.write_append, List.length_take, Pbkdf2.length_block pw salt length_hmacOf, Nat.min_comm 32, Nat.add_zero]
      simp only [Nat.succ_eq_add_one, hrest]
      congr 3
      omega
    · rw [if_neg hpos, show outlen - pos = 0 by omega]
      simp [Buf.write]

/-- The derivation ends, and what it writes is the key of the standard, of the length asked for. -/
theorem pbkdf2_standard (stack u t : Buf) (pw salt : List UInt8) (iters : BitVec 32) (out : Buf) (outlen : Nat)
    (hsalt : salt.length ≤ 128) (hone : 1 ≤ iters.toNat) (hmax : iters.toNat < 2 ^ 32 - 1)
    (hlen : outlen ≤ (2 ^ 32 - 1) * 32) :
    ∃ dk, Pbkdf2.key (hmac sha256 64) 32 pw salt iters.toNat outlen = some dk ∧ dk.length = outlen ∧
      ∃ enough, ∀ fuel, enough ≤ fuel →
        pbkdf2HmacSha256 stack fuel u t pw salt iters out outlen = some (out.write 0 dk) := by
  have hkey : ∃ dk, Pbkdf2.key (hmac sha256 64) 32 pw salt iters.toNat outlen = some dk := by
    rw [Pbkdf2.key, if_neg (Nat.not_lt.mpr hlen)]
    exact ⟨_, rfl⟩
  obtain ⟨dk, hdk⟩ := hkey
  refine ⟨dk, hdk, Pbkdf2.length_key pw salt length_hmacOf (by decide) hdk,
    max iters.toNat ((outlen + 32 - 1) / 32 + 1), ?_⟩
  intro fuel hfuel
  have hturns : (outlen + 32 - 1) / 32 < fuel := Nat.lt_of_succ_le (Nat.le_trans (Nat.le_max_right _ _) hfuel)
  have hrounds : iters.toNat ≤ fuel := Nat.le_trans (Nat.le_max_left _ _) hfuel
  rw [Pbkdf2.key, if_neg (Nat.not_lt.mpr hlen)] at hdk
  rw [pbkdf2HmacSha256, ← Option.some.inj hdk]
  refine (blocks_eq stack (i := 0) hone hmax hsalt hrounds hturns (by omega) u t out).trans ?_
  simp only [Nat.zero_add, Nat.sub_zero]
  rfl

/-- Two blocks and 4096 rounds, with a salt of 16 bytes. -/
theorem pbkdf2_standard_password :
    ∃ dk, Pbkdf2.key (hmac sha256 64) 32 (ascii "senha") (List.replicate 16 0xA5) 4096 40 = some dk ∧ dk.length = 40 ∧
      ∃ enough, ∀ fuel, enough ≤ fuel →
        pbkdf2HmacSha256 (fun _ => 0xFF) fuel (fun _ => 0xFF) (fun _ => 0xFF) (ascii "senha")
          (List.replicate 16 0xA5) 4096
          (fun _ => 0xFF) 40 = some (Buf.write (fun _ => 0xFF) 0 dk) :=
  pbkdf2_standard (fun _ => 0xFF) (fun _ => 0xFF) (fun _ => 0xFF) (ascii "senha") (List.replicate 16 0xA5) 4096
    (fun _ => 0xFF)
    40 (by decide) (by decide) (by decide) (by decide)

end Siathos.Crypto
