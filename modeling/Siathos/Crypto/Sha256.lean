import Mathlib.Data.List.Induction
import Siathos.Lib.Sha256

/-!
# The hash of the kernel

`crypto.c` takes a message piece by piece, through a buffer of one block.
-/

namespace Siathos.Crypto

open Lib Lib.Sha256

/-- The table `K`. -/
def roundConstants : List Word := [
  0x428a2f98, 0x71374491, 0xb5c0fbcf, 0xe9b5dba5, 0x3956c25b, 0x59f111f1, 0x923f82a4, 0xab1c5ed5,
  0xd807aa98, 0x12835b01, 0x243185be, 0x550c7dc3, 0x72be5d74, 0x80deb1fe, 0x9bdc06a7, 0xc19bf174,
  0xe49b69c1, 0xefbe4786, 0x0fc19dc6, 0x240ca1cc, 0x2de92c6f, 0x4a7484aa, 0x5cb0a9dc, 0x76f988da,
  0x983e5152, 0xa831c66d, 0xb00327c8, 0xbf597fc7, 0xc6e00bf3, 0xd5a79147, 0x06ca6351, 0x14292967,
  0x27b70a85, 0x2e1b2138, 0x4d2c6dfc, 0x53380d13, 0x650a7354, 0x766a0abb, 0x81c2c92e, 0x92722c85,
  0xa2bfe8a1, 0xa81a664b, 0xc24b8b70, 0xc76c51a3, 0xd192e819, 0xd6990624, 0xf40e3585, 0x106aa070,
  0x19a4c116, 0x1e376c08, 0x2748774c, 0x34b0bcb5, 0x391c0cb3, 0x4ed8aa4a, 0x5b9cca4f, 0x682e6ff3,
  0x748f82ee, 0x78a5636f, 0x84c87814, 0x8cc70208, 0x90befffa, 0xa4506ceb, 0xbef9a3f7, 0xc67178f2]

def rotr32 (x : Word) (n : Nat) : Word := x >>> n ||| x <<< (32 - n)

def be32 (p : Buf) : Word :=
  (p 0).toBitVec.setWidth 32 <<< 24 ||| (p 1).toBitVec.setWidth 32 <<< 16 ||| (p 2).toBitVec.setWidth 32 <<< 8 |||
    (p 3).toBitVec.setWidth 32

def lowByte (v : Word) : UInt8 := ⟨v.setWidth 8⟩

def putBe32 (p : Buf) (i : Nat) (v : Word) : Buf :=
  p.write i [lowByte (v >>> 24), lowByte (v >>> 16), lowByte (v >>> 8), lowByte v]

/-- `sha256_ctx_t`. Between two calls the buffer is never full. -/
structure Sha256Ctx where
  h : State
  len : BitVec 64
  buf : Buf
  buflen : Nat
  room : buflen < 64

/-! ## One block -/

/-- The word that a turn stores in `w[i]`. -/
def nextWord (w : List Word) (i : Nat) : Word :=
  let s0 := rotr32 (w.getD (i - 15) 0) 7 ^^^ rotr32 (w.getD (i - 15) 0) 18 ^^^ w.getD (i - 15) 0 >>> 3
  let s1 := rotr32 (w.getD (i - 2) 0) 17 ^^^ rotr32 (w.getD (i - 2) 0) 19 ^^^ w.getD (i - 2) 0 >>> 10
  w.getD (i - 16) 0 + s0 + w.getD (i - 7) 0 + s1

/-- The array `w`, filled from its first words up to its end. -/
def expand (w : List Word) : List Word := (List.range' 16 48).foldl (fun w i => w ++ [nextWord w i]) w

/-- What one turn makes of the eight variables. -/
def mix (v : State) (k w : Word) : State :=
  let s1 := rotr32 v.e 6 ^^^ rotr32 v.e 11 ^^^ rotr32 v.e 25
  let ch := (v.e &&& v.f) ^^^ (~~~v.e &&& v.g)
  let t1 := v.h + s1 + ch + k + w
  let s0 := rotr32 v.a 2 ^^^ rotr32 v.a 13 ^^^ rotr32 v.a 22
  let maj := (v.a &&& v.b) ^^^ (v.a &&& v.c) ^^^ (v.b &&& v.c)
  let t2 := s0 + maj
  ⟨t1 + t2, v.a, v.b, v.c, v.d + t1, v.e, v.f, v.g⟩

def sha256Compress (h : State) (block : Buf) : State :=
  let w := expand ((List.range 16).map fun i => be32 (block.drop (i * 4)))
  let v := (List.range 64).foldl (fun v i => mix v (roundConstants.getD i 0) (w.getD i 0)) h
  ⟨h.a + v.a, h.b + v.b, h.c + v.c, h.d + v.d, h.e + v.e, h.f + v.f, h.g + v.g, h.h + v.h⟩

/-! ## A message -/

/-- The buffer is left as the stack has it. -/
def sha256Init (buf : Buf) : Sha256Ctx where
  h := ⟨0x6a09e667, 0xbb67ae85, 0x3c6ef372, 0xa54ff53a, 0x510e527f, 0x9b05688c, 0x1f83d9ab, 0x5be0cd19⟩
  len := 0
  buf := buf
  buflen := 0
  room := by decide

/-- `while(len)` of `sha256_update`. -/
def sha256Take (c : Sha256Ctx) (d : List UInt8) : Sha256Ctx :=
  if d.length = 0 then c
  else
    let take := min (64 - c.buflen) d.length
    let buf := c.buf.write c.buflen (d.take take)
    if hfull : c.buflen + take = 64 then
      sha256Take { c with h := sha256Compress c.h buf, buf, buflen := 0, room := by decide } (d.drop take)
    else
      sha256Take { c with buf, buflen := c.buflen + take, room := by have := c.room; omega } (d.drop take)
termination_by d.length
decreasing_by all_goals
  have hroom := c.room
  rw [List.length_drop]
  omega

def sha256Update (c : Sha256Ctx) (d : List UInt8) : Sha256Ctx :=
  sha256Take { c with len := c.len + BitVec.ofNat 64 d.length } d

/-- `while(c->buflen < n) c->buf[c->buflen++] = 0`. -/
def fillZeros (buf : Buf) (buflen n : Nat) : Buf := buf.write buflen (List.replicate (n - buflen) 0)

/-- The byte `0x80`. Where the length has no room behind it, the block ends here. -/
def sha256Mark (c : Sha256Ctx) : State × Buf × Nat :=
  let buf := c.buf.write c.buflen [0x80]
  if c.buflen + 1 > 56 then
    let buf := fillZeros buf (c.buflen + 1) 64
    (sha256Compress c.h buf, buf, 0)
  else (c.h, buf, c.buflen + 1)

def sha256Final (c : Sha256Ctx) (out : Buf) : Buf :=
  let bits := c.len * 8
  let marked := sha256Mark c
  let buf := fillZeros marked.2.1 marked.2.2 56
  let bitlen := putBe32 (putBe32 (fun _ => 0) 0 ((bits >>> 32).setWidth 32)) 4 (bits.setWidth 32)
  let buf := buf.write 56 (bitlen.bytes 8)
  let h := sha256Compress marked.1 buf
  (List.range 8).foldl (fun out i => putBe32 out (i * 4) (h.words.getD i 0)) out

/-! ## One block is compressed as the standard says -/

theorem roundConstants_eq : roundConstants = constants := by decide +kernel

theorem rotr32_eq {n : Nat} (h : n < 32) (x : Word) : rotr32 x n = x.rotateRight n := by
  rw [rotr32, BitVec.rotateRight_def, Nat.mod_eq_of_lt h]

theorem mix_eq (v : State) (k w : Word) : mix v k w = round v k w := by
  simp (disch := decide) [mix, Sha256.round, rotr32_eq, choose, majority, bigSigma0, bigSigma1]

theorem be32_eq (p : Buf) : be32 p = (p 0).toBitVec ++ (p 1).toBitVec ++ (p 2).toBitVec ++ (p 3).toBitVec := by
  apply BitVec.eq_of_getLsbD_eq
  intro i hi
  simp only [be32, BitVec.getLsbD_append, BitVec.getLsbD_or, BitVec.getLsbD_shiftLeft, BitVec.getLsbD_setWidth]
  grind

theorem be32_drop {i : Nat} (h : i + 4 ≤ 64) (p : Buf) : be32 (p.drop i) = wordAt (p.bytes 64) i := by
  have hbyte : ∀ j < 64, (p.bytes 64).getD j 0 = p j := fun j hj => by simp [Buf.bytes, hj]
  rw [be32_eq, wordAt, hbyte i (by omega), hbyte (i + 1) (by omega), hbyte (i + 2) (by omega), hbyte (i + 3) (by omega)]
  rfl

theorem nextWord_eq (block : List UInt8) (n : Nat) :
    schedule block (n + 1) = schedule block n ++ [nextWord (schedule block n) (16 + n)] := by
  have h15 : 16 + n - 15 = n + 1 := by omega
  have h2 : 16 + n - 2 = n + 14 := by omega
  have h16 : 16 + n - 16 = n := by omega
  have h7 : 16 + n - 7 = n + 9 := by omega
  simp (disch := decide) only [schedule, nextWord, h15, h2, h16, h7, rotr32_eq, sigma0, sigma1]
  congr 2
  ac_rfl

theorem expand_eq (block : List UInt8) : expand (schedule block 0) = schedule block 48 := by
  suffices hall : ∀ n, (List.range' 16 n).foldl (fun w i => w ++ [nextWord w i]) (schedule block 0) =
    schedule block n by
    exact hall 48
  intro n
  induction n with
  | zero => rfl
  | succ n ih => rw [List.range'_1_concat, List.foldl_append, ih, List.foldl_cons, List.foldl_nil, nextWord_eq]

theorem sha256Compress_eq (h : State) (block : Buf) : sha256Compress h block = compress h (block.bytes 64) := by
  have hwords : ((List.range 16).map fun i => be32 (block.drop (i * 4))) = schedule (block.bytes 64) 0 := by
    refine List.map_congr_left fun i hi => ?_
    have hlt := List.mem_range.mp hi
    rw [be32_drop (by omega), Nat.mul_comm]
  simp only [sha256Compress, compress, hwords, expand_eq, mix_eq, roundConstants_eq, BitVec.add_comm]

/-! ## Numbers in a message -/

theorem putBe32_eq (p : Buf) (i : Nat) (v : Word) : putBe32 p i v = p.write i (bigEndian 4 v.toNat) := by
  have hlow : ∀ k, lowByte (v >>> k) = UInt8.ofNat (v.toNat / 2 ^ k) := by
    intro k
    apply UInt8.toNat_inj.mp
    simp [lowByte, Nat.shiftRight_eq_div_pow]
  have hlast : lowByte v = UInt8.ofNat v.toNat := by simpa using hlow 0
  rw [putBe32, hlow, hlow, hlow, hlast]
  simp [bigEndian, littleEndian, Nat.div_div_eq_div_mul]

/-! ## A message, piece by piece -/

/-- The whole blocks of the message are in the hash value, and the rest of it is in the buffer. -/
def Took (c : Sha256Ctx) (m : List UInt8) : Prop :=
  ∃ whole, m = whole ++ c.buf.bytes c.buflen ∧ 64 ∣ whole.length ∧ c.h = (blocks 64 whole).foldl compress initial

theorem took_init (buf : Buf) : Took (sha256Init buf) [] :=
  ⟨[], rfl, Nat.dvd_zero 64, show (⟨_, _, _, _, _, _, _, _⟩ : State) = initial by decide +kernel⟩

theorem blocks_snoc {whole block : List UInt8} (hwhole : 64 ∣ whole.length) (hblock : block.length = 64) (s : State) :
    (blocks 64 (whole ++ block)).foldl compress s = compress ((blocks 64 whole).foldl compress s) block := by
  rw [blocks_append (by decide) hwhole, blocks_one (by decide) hblock, List.foldl_append, List.foldl_cons,
    List.foldl_nil]

theorem Took.take {c : Sha256Ctx} {m : List UInt8} (h : Took c m) (d : List UInt8) :
    Took (sha256Take c d) (m ++ d) := by
  revert m
  fun_induction sha256Take c d with
  | case1 c d hd =>
    intro m h
    rwa [List.length_eq_zero_iff.mp hd, List.append_nil]
  | case2 c d hd take buf hfull =>
    rename_i ih
    intro m h
    obtain ⟨whole, rfl, hwhole, hstate⟩ := h
    have hbytes : buf.bytes 64 = c.buf.bytes c.buflen ++ d.take take := by
      have hwrite := Buf.bytes_write c.buf c.buflen (d.take take)
      rwa [List.length_take, Nat.min_eq_left (Nat.min_le_right _ _), hfull] at hwrite
    have hblock : (c.buf.bytes c.buflen ++ d.take take).length = 64 := by
      rw [← hbytes, Buf.length_bytes]
    have hlen : 64 ∣ (whole ++ (c.buf.bytes c.buflen ++ d.take take)).length := by
      rw [List.length_append, hblock]
      omega
    have hfold : sha256Compress c.h buf =
        (blocks 64 (whole ++ (c.buf.bytes c.buflen ++ d.take take))).foldl compress initial := by
      rw [blocks_snoc hwhole hblock, sha256Compress_eq, hbytes, hstate]
    have htook := @ih _ ⟨_, (List.append_nil _).symm, hlen, hfold⟩
    simpa [List.append_assoc] using htook
  | case3 c d hd take buf hfull =>
    rename_i ih
    intro m h
    obtain ⟨whole, rfl, hwhole, hstate⟩ := h
    have hbytes : buf.bytes (c.buflen + take) = c.buf.bytes c.buflen ++ d.take take := by
      have hwrite := Buf.bytes_write c.buf c.buflen (d.take take)
      rwa [List.length_take, Nat.min_eq_left (Nat.min_le_right _ _)] at hwrite
    have htook := @ih (whole ++ (c.buf.bytes c.buflen ++ d.take take)) ⟨whole, by rw [hbytes], hwhole, hstate⟩
    simpa [List.append_assoc] using htook

theorem len_take (c : Sha256Ctx) (d : List UInt8) : (sha256Take c d).len = c.len := by
  fun_induction sha256Take c d with
  | case1 => rfl
  | case2 c d hd take buf hfull ih => exact ih
  | case3 c d hd take buf hfull ih => exact ih

/-- The context has taken the message, and knows its length. -/
def Holds (c : Sha256Ctx) (m : List UInt8) : Prop := Took c m ∧ c.len = BitVec.ofNat 64 m.length

theorem holds_init (buf : Buf) : Holds (sha256Init buf) [] := ⟨took_init buf, rfl⟩

theorem Holds.update {c : Sha256Ctx} {m : List UInt8} (h : Holds c m) (d : List UInt8) :
    Holds (sha256Update c d) (m ++ d) := by
  refine ⟨Took.take (c := { c with len := c.len + BitVec.ofNat 64 d.length }) h.1 d, ?_⟩
  rw [sha256Update, len_take, List.length_append, BitVec.ofNat_add, h.2]

/-! ## The end of the message -/

theorem write_words (h : State) (out : Buf) :
    (List.range 8).foldl (fun out i => putBe32 out (i * 4) (h.words.getD i 0)) out = out.write 0 h.digest := by
  simp [List.range_succ, State.digest, State.words, putBe32_eq, Buf.write_append]

theorem ofNat_congr {m n : Nat} (h : m % 256 = n % 256) : UInt8.ofNat m = UInt8.ofNat n := by
  apply UInt8.toNat_inj.mp
  simpa using h

theorem bitlen_eq (l : Nat) :
    let bits := BitVec.ofNat 64 l * 8
    bigEndian 4 ((bits >>> 32).setWidth 32).toNat ++ bigEndian 4 (bits.setWidth 32).toNat = bigEndian 8 (8 * l) := by
  have hhigh : (((BitVec.ofNat 64 l * 8) >>> 32).setWidth 32).toNat = 8 * l % 2 ^ 64 / 2 ^ 32 := by
    simp [Nat.shiftRight_eq_div_pow, Nat.mul_comm]
    omega
  have hlow : ((BitVec.ofNat 64 l * 8).setWidth 32).toNat = 8 * l % 2 ^ 32 := by
    simp [Nat.mul_comm]
  simp only [hhigh, hlow, bigEndian, littleEndian, List.reverse_cons, List.reverse_nil, List.nil_append,
    List.cons_append, Nat.div_div_eq_div_mul]
  simp only [List.cons.injEq, and_true]
  refine ⟨?_, ?_, ?_, ?_, ?_, ?_, ?_, ?_⟩ <;>
  · apply ofNat_congr
    omega

theorem bytes_bitlen (l : Nat) (b : Buf) :
    let bits := BitVec.ofNat 64 l * 8
    (putBe32 (putBe32 b 0 ((bits >>> 32).setWidth 32)) 4 (bits.setWidth 32)).bytes 8 = bigEndian 8 (8 * l) := by
  intro bits
  have hlow := Buf.bytes_write (putBe32 b 0 ((bits >>> 32).setWidth 32)) 4 (bigEndian 4 (bits.setWidth 32).toNat)
  have hhigh := Buf.bytes_write b 0 (bigEndian 4 ((bits >>> 32).setWidth 32).toNat)
  rw [length_bigEndian] at hlow hhigh
  rw [putBe32_eq, hlow, putBe32_eq, ← bitlen_eq l]
  congr 1

theorem bytes_fillZeros {i n : Nat} (h : i ≤ n) (b : Buf) :
    (fillZeros b i n).bytes n = b.bytes i ++ List.replicate (n - i) 0 := by
  have hwrite := Buf.bytes_write b i (List.replicate (n - i) 0)
  rwa [List.length_replicate, Nat.add_sub_cancel' h] at hwrite

theorem compress_marked (c : Sha256Ctx) {l : Nat} (hl : l % 64 = c.buflen) :
    compress (sha256Mark c).1 ((fillZeros (sha256Mark c).2.1 (sha256Mark c).2.2 56).bytes 56 ++ bigEndian 8 (8 * l)) =
      (blocks 64 (c.buf.bytes c.buflen ++ padding l)).foldl compress c.h := by
  have hroom := c.room
  have hmark : (c.buf.write c.buflen [0x80]).bytes (c.buflen + 1) = c.buf.bytes c.buflen ++ [0x80] :=
    Buf.bytes_write c.buf c.buflen [0x80]
  simp only [sha256Mark]
  split
  · next hlong =>
    have hfirst : (c.buf.bytes c.buflen ++ 0x80 :: List.replicate (63 - c.buflen) 0).length = 64 := by
      simp
      omega
    have hsplit : c.buf.bytes c.buflen ++ padding l =
        (c.buf.bytes c.buflen ++ 0x80 :: List.replicate (63 - c.buflen) 0) ++
          (List.replicate 56 0 ++ bigEndian 8 (8 * l)) := by
      rw [padding, hl, show (119 - c.buflen) % 64 = (63 - c.buflen) + 56 by omega, List.replicate_add]
      simp
    rw [hsplit, blocks_append (by decide) ⟨1, hfirst⟩, blocks_one (by decide) hfirst, List.foldl_append,
      blocks_one (by decide) (by simp), bytes_fillZeros (Nat.zero_le 56), sha256Compress_eq, bytes_fillZeros (by omega),
      hmark]
    simp [Buf.bytes, show 64 - (c.buflen + 1) = 63 - c.buflen by omega]
  · next hshort =>
    have hsplit : c.buf.bytes c.buflen ++ padding l =
        c.buf.bytes c.buflen ++ [0x80] ++ List.replicate (55 - c.buflen) 0 ++ bigEndian 8 (8 * l) := by
      rw [padding, hl, show (119 - c.buflen) % 64 = 55 - c.buflen by omega]
      simp
    have hone : (c.buf.bytes c.buflen ++ [0x80] ++ List.replicate (55 - c.buflen) 0 ++ bigEndian 8 (8 * l)).length =
      64 := by
      simp
      omega
    rw [hsplit, blocks_one (by decide) hone, bytes_fillZeros (show c.buflen + 1 ≤ 56 by omega), hmark,
      show 56 - (c.buflen + 1) = 55 - c.buflen by omega]
    rfl

theorem sha256Final_eq {c : Sha256Ctx} {m : List UInt8} (h : Holds c m) (out : Buf) :
    sha256Final c out = out.write 0 (sha256 m) := by
  obtain ⟨⟨whole, hm, hwhole, hstate⟩, hlen⟩ := h
  have hroom := c.room
  have hrest : m.length % 64 = c.buflen := by
    rw [hm, List.length_append, Buf.length_bytes]
    omega
  have hpad : blocks 64 (m ++ padding m.length) =
      blocks 64 whole ++ blocks 64 (c.buf.bytes c.buflen ++ padding m.length) := by
    rw [← blocks_append (by decide) hwhole, ← List.append_assoc, ← hm]
  have hend : ∀ b : Buf, (b.write 56 (bigEndian 8 (8 * m.length))).bytes 64 =
      b.bytes 56 ++ bigEndian 8 (8 * m.length) := by
    intro b
    have hwrite := Buf.bytes_write b 56 (bigEndian 8 (8 * m.length))
    rwa [length_bigEndian] at hwrite
  rw [sha256, hpad, List.foldl_append, ← hstate, ← compress_marked c hrest, ← write_words]
  simp only [sha256Final, hlen, bytes_bitlen, sha256Compress_eq, hend]

/-! ## Pieces of a message -/

/-- The fields of a context that has taken the message. -/
structure Buffered (c : Sha256Ctx) (m : List UInt8) : Prop where
  room : c.buflen < 64
  len : c.len.toNat = m.length % 2 ^ 64
  buflen : c.buflen = m.length % 64
  buf : c.buf.bytes c.buflen = m.drop (m.length - m.length % 64)

theorem Holds.buffered {c : Sha256Ctx} {m : List UInt8} (h : Holds c m) : Buffered c m := by
  obtain ⟨⟨whole, hm, hwhole, -⟩, hlen⟩ := h
  have hroom := c.room
  have hlength : m.length = whole.length + c.buflen := by
    rw [hm, List.length_append, Buf.length_bytes]
  have hrest : c.buflen = m.length % 64 := by omega
  refine ⟨hroom, by rw [hlen, BitVec.toNat_ofNat], hrest, ?_⟩
  have hdrop : m.length - m.length % 64 = whole.length := by omega
  rw [hdrop, hm, List.drop_left]

theorem holds_updates (buf : Buf) (pieces : List (List UInt8)) :
    Holds (pieces.foldl sha256Update (sha256Init buf)) pieces.flatten := by
  induction pieces using List.reverseRecOn with
  | nil => exact holds_init buf
  | append_singleton pieces piece ih =>
    rw [List.foldl_append, List.flatten_append]
    simpa using ih.update piece

/-- The digest does not show how the message was cut, and after each piece the context has what it should. -/
theorem sha256_pieces (stale stale' out : Buf) (pieces : List (List UInt8)) :
    sha256Final (pieces.foldl sha256Update (sha256Init stale)) out =
      sha256Final (sha256Update (sha256Init stale') pieces.flatten) out ∧
    ∀ k, Buffered ((pieces.take k).foldl sha256Update (sha256Init stale)) (pieces.take k).flatten := by
  refine ⟨?_, fun k => (holds_updates stale (pieces.take k)).buffered⟩
  rw [sha256Final_eq (holds_updates stale pieces), sha256Final_eq ((holds_init stale').update pieces.flatten)]
  rfl

end Siathos.Crypto
