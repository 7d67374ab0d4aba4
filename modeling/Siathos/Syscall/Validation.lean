import Siathos.Lib.Buffer
import Siathos.Syscall.Kernel

/-!
# What the kernel accepts of a caller's pointers (`syscall.c`)

`user_ptr_ok` looks at the regions of the caller, and `user_str` asks it for each byte of a string.
-/

open Lib Siathos.Proc

namespace Siathos.Syscall

/-- The loop of `user_str`, from `src[i]` on, with room for `n` bytes in `dst`. -/
def userStrLoop (p : Process) (mem : U64 → UInt8) (src : U64) : Nat → Nat → Buf → Buf × Bool
  | 0, _, dst => (dst, false)
  | n + 1, i, dst =>
    if !userPtrOk p src 1 then (dst, false)
    else if mem src = 0 then (dst.write i [0], true)
    else if n = 0 then (dst, false)
    else userStrLoop p mem (src + 1) n (i + 1) (dst.write i [mem src])

/-- `user_str`, with the buffer that it fills. -/
def userStrInto (p : Process) (mem : U64 → UInt8) (src : U64) (dstMax : Nat) (dst : Buf) : Buf × Bool :=
  if src = 0 then (dst, false) else userStrLoop p mem src dstMax 0 dst

/-! ## Ranges -/

/-- The bytes lie in one region. -/
def Inside (umap : List Region) (addr len : Nat) : Prop :=
  ∃ r ∈ umap, r.size ≠ 0 ∧ r.base.toNat ≤ addr ∧ addr + len ≤ r.base.toNat + r.size.toNat

theorem userPtrOk_iff {p : Process} (huser : p.isUser = true) {addr len : U64} (haddr : addr ≠ 0) (hlen : len ≠ 0) :
    userPtrOk p addr len = true ↔ addr.toNat + len.toNat < 2 ^ 64 ∧ Inside p.umap addr.toNat len.toNat := by
  have hpos : 0 < len.toNat := by bv_omega
  have hwrap : addr + len < addr ↔ 2 ^ 64 ≤ addr.toNat + len.toNat := by
    rw [BitVec.lt_def, BitVec.toNat_add]
    omega
  unfold userPtrOk
  rw [if_neg haddr, if_neg hlen]
  split
  · next hover =>
    have hover' := hwrap.mp hover
    exact iff_of_false (by simp) fun h => absurd h.1 (by omega)
  · next hroom =>
    have hroom' : ¬2 ^ 64 ≤ addr.toNat + len.toNat := fun h => hroom (hwrap.mpr h)
    have hregion : ∀ r : Region, (r.size ≠ 0 ∧ addr ≥ r.base ∧ addr - r.base < r.size ∧ addr - r.base + len ≤ r.size) ↔
        (r.size ≠ 0 ∧ r.base.toNat ≤ addr.toNat ∧ addr.toNat + len.toNat ≤ r.base.toNat + r.size.toNat) := by
      intro r
      refine and_congr_right fun _ => ?_
      rw [ge_iff_le, BitVec.le_def, BitVec.lt_def, BitVec.le_def]
      refine and_congr_right fun hbase => ?_
      rw [BitVec.toNat_add, BitVec.toNat_sub_of_le (BitVec.le_def.mpr hbase)]
      omega
    simp only [huser, Bool.not_true, Bool.false_eq_true, if_false, List.any_eq_true, Bool.and_eq_true,
      decide_eq_true_eq, and_assoc, hregion, Inside]
    exact ⟨fun h => ⟨by omega, h⟩, fun h => h.2⟩

/-- The byte lies in a region. -/
def Mapped (umap : List Region) (a : Nat) : Prop := ∃ r ∈ umap, r.Holds a

/-- No region reaches the end of the address space. -/
def Unwrapped (umap : List Region) : Prop := ∀ r ∈ umap, r.base.toNat + r.size.toNat < 2 ^ 64

theorem userPtrOk_byte {p : Process} (huser : p.isUser = true) {addr : U64} (haddr : addr ≠ 0) :
    userPtrOk p addr 1 = true ↔ addr.toNat + 1 < 2 ^ 64 ∧ Mapped p.umap addr.toNat := by
  rw [userPtrOk_iff huser haddr (by decide)]
  refine and_congr_right fun _ => ⟨?_, ?_⟩
  · rintro ⟨r, hr, -, hbase, hend⟩
    exact ⟨r, hr, hbase, hend⟩
  · rintro ⟨r, hr, hbase, hend⟩
    refine ⟨r, hr, ?_, hbase, hend⟩
    rintro hsize
    rw [hsize] at hend
    simp at hend
    omega

theorem Mapped.below {umap : List Region} (hregions : Unwrapped umap) {a : Nat} (ha : Mapped umap a) :
    a + 1 < 2 ^ 64 := by
  obtain ⟨r, hr, -, hend⟩ := ha
  have hlast := hregions r hr
  omega

/-! ## Strings -/

/-- A string of `k` bytes and its NUL, all of them mapped. -/
structure StringAt (p : Process) (mem : U64 → UInt8) (src : U64) (k : Nat) : Prop where
  mapped : ∀ i ≤ k, Mapped p.umap (src.toNat + i)
  ends : mem (src + BitVec.ofNat 64 k) = 0
  first : ∀ i < k, mem (src + BitVec.ofNat 64 i) ≠ 0

section

variable {p : Process} {mem : U64 → UInt8} {src : U64}

theorem stringAt_zero : StringAt p mem src 0 ↔ Mapped p.umap src.toNat ∧ mem src = 0 := by
  constructor
  · rintro ⟨hmapped, hends, -⟩
    exact ⟨by simpa using hmapped 0 (Nat.le_refl 0), by simpa using hends⟩
  · rintro ⟨hmapped, hends⟩
    refine ⟨fun i hi => ?_, by simpa using hends, fun i hi => absurd hi (Nat.not_lt_zero i)⟩
    rw [Nat.le_zero.mp hi]
    exact hmapped

theorem stringAt_succ {k : Nat} (hnext : (src + 1).toNat = src.toNat + 1) : StringAt p mem src (k + 1) ↔
    Mapped p.umap src.toNat ∧ mem src ≠ 0 ∧ StringAt p mem (src + 1) k := by
  have hstep : ∀ i, src + BitVec.ofNat 64 (i + 1) = src + 1 + BitVec.ofNat 64 i := by
    intro i
    rw [BitVec.ofNat_add]
    ac_rfl
  constructor
  · rintro ⟨hmapped, hends, hfirst⟩
    refine ⟨by simpa using hmapped 0 (Nat.zero_le _), by simpa using hfirst 0 (Nat.zero_lt_succ k), ?_, ?_, ?_⟩
    · intro i hi
      have hmap := hmapped (i + 1) (Nat.succ_le_succ hi)
      rw [hnext]
      rwa [Nat.add_comm i 1, ← Nat.add_assoc] at hmap
    · rwa [← hstep]
    · intro i hi
      rw [← hstep]
      exact hfirst (i + 1) (Nat.succ_lt_succ hi)
  · rintro ⟨hmapped, hbyte, hrest⟩
    refine ⟨fun i hi => ?_, by rw [hstep]; exact hrest.ends, fun i hi => ?_⟩
    · obtain _ | i := i
      · exact hmapped
      · have hmap := hrest.mapped i (Nat.le_of_succ_le_succ hi)
        rw [hnext] at hmap
        rwa [Nat.add_comm i 1, ← Nat.add_assoc]
    · obtain _ | i := i
      · simpa using hbyte
      · rw [hstep]
        exact hrest.first i (Nat.lt_of_succ_lt_succ hi)

theorem StringAt.unique {k l : Nat} (hk : StringAt p mem src k) (hl : StringAt p mem src l) : k = l := by
  rcases Nat.lt_trichotomy k l with h | h | h
  · exact absurd hk.ends (hl.first k h)
  · exact h
  · exact absurd hl.ends (hk.first l h)

theorem userStrLoop_behind (n i : Nat) (dst : Buf) {j : Nat} (hj : i + n ≤ j) :
    (userStrLoop p mem src n i dst).1 j = dst j := by
  induction n generalizing src i dst with
  | zero => rfl
  | succ n ih =>
    unfold userStrLoop
    split
    · rfl
    split
    · exact Buf.write_after (by rw [List.length_singleton]; omega) dst
    split
    · rfl
    · rw [ih (i + 1) (dst.write i [mem src]) (by omega)]
      exact Buf.write_after (by rw [List.length_singleton]; omega) dst

theorem userStrLoop_before (n i : Nat) (dst : Buf) {j : Nat} (hj : j < i) :
    (userStrLoop p mem src n i dst).1 j = dst j := by
  induction n generalizing src i dst with
  | zero => rfl
  | succ n ih =>
    unfold userStrLoop
    split
    · rfl
    split
    · exact Buf.write_before hj [0] dst
    split
    · rfl
    · rw [ih (i + 1) (dst.write i [mem src]) (Nat.lt_succ_of_lt hj)]
      exact Buf.write_before hj [mem src] dst

theorem bytesAt_cons (mem : U64 → UInt8) (src : U64) (k : Nat) :
    bytesAt mem src (k + 1) = mem src :: bytesAt mem (src + 1) k := by
  simp only [bytesAt, List.range_succ_eq_map, List.map_cons, List.map_map]
  congr 1
  · simp
  · refine List.map_congr_left fun i _ => ?_
    simp only [Function.comp_apply, Nat.succ_eq_add_one, Nat.add_comm i 1, BitVec.ofNat_add, BitVec.add_assoc]
    rfl

theorem toNat_next {a : U64} (h : a.toNat + 1 < 2 ^ 64) : (a + 1).toNat = a.toNat + 1 ∧ a + 1 ≠ 0 := by
  have hnext : (a + 1).toNat = a.toNat + 1 := by
    rw [BitVec.toNat_add, show (1 : U64).toNat = 1 from rfl]
    omega
  refine ⟨hnext, fun hzero => ?_⟩
  rw [hzero] at hnext
  exact absurd hnext (by simp)

theorem userStrLoop_copies (huser : p.isUser = true) (hsrc : src ≠ 0) {n k : Nat} (hk : k < n)
    (hstring : StringAt p mem src k) (hend : src.toNat + k + 1 < 2 ^ 64) (i : Nat) (dst : Buf) :
    (userStrLoop p mem src n i dst).2 = true ∧
      ((userStrLoop p mem src n i dst).1.drop i).bytes (k + 1) = bytesAt mem src k ++ [0] := by
  induction n generalizing src k i dst with
  | zero => exact absurd hk (Nat.not_lt_zero k)
  | succ n ih =>
    have hmapped : Mapped p.umap src.toNat := hstring.mapped 0 (Nat.zero_le k)
    have hptr := (userPtrOk_byte huser hsrc).mpr ⟨by omega, hmapped⟩
    unfold userStrLoop
    rw [hptr]
    simp only [Bool.not_true, Bool.false_eq_true, if_false]
    rcases k with _ | k
    · rw [if_pos (stringAt_zero.mp hstring).2]
      exact ⟨rfl, dst.bytes_drop_write i [0]⟩
    · obtain ⟨hnext, hsrc'⟩ := toNat_next (a := src) (by omega)
      obtain ⟨-, hbyte, hrest⟩ := (stringAt_succ hnext).mp hstring
      obtain ⟨hok, hbytes⟩ := ih hsrc' (by omega) hrest (by omega) (i + 1) (dst.write i [mem src])
      have hhead : (userStrLoop p mem (src + 1) n (i + 1) (dst.write i [mem src])).1 i = mem src := by
        rw [userStrLoop_before n (i + 1) _ (Nat.lt_succ_self i)]
        simp [Buf.write]
      rw [if_neg hbyte, if_neg (by omega)]
      refine ⟨hok, ?_⟩
      rw [Buf.bytes_cons, Buf.drop_drop, bytesAt_cons, List.cons_append, ← hbytes]
      exact congrArg (· :: _) hhead

theorem userStrLoop_accepts (huser : p.isUser = true) (hsrc : src ≠ 0) {n i : Nat} {dst : Buf}
    (hok : (userStrLoop p mem src n i dst).2 = true) : ∃ k < n, StringAt p mem src k := by
  induction n generalizing src i dst with
  | zero => exact absurd hok Bool.false_ne_true
  | succ n ih =>
    unfold userStrLoop at hok
    by_cases hptr : userPtrOk p src 1 = true
    swap
    · rw [if_pos (by simpa using hptr)] at hok
      exact absurd hok Bool.false_ne_true
    obtain ⟨hbelow, hmapped⟩ := (userPtrOk_byte huser hsrc).mp hptr
    rw [if_neg (by simpa using hptr)] at hok
    by_cases hend : mem src = 0
    · exact ⟨0, Nat.zero_lt_succ n, stringAt_zero.mpr ⟨hmapped, hend⟩⟩
    rw [if_neg hend] at hok
    by_cases hn : n = 0
    · rw [if_pos hn] at hok
      exact absurd hok Bool.false_ne_true
    rw [if_neg hn] at hok
    obtain ⟨hnext, hsrc'⟩ := toNat_next hbelow
    obtain ⟨k, hk, hrest⟩ := ih hsrc' hok
    exact ⟨k + 1, Nat.succ_lt_succ hk, (stringAt_succ hnext).mpr ⟨hmapped, hend, hrest⟩⟩

end

/-- The loop finds the strings that `userStrFrom` finds. -/
theorem userStrLoop_found (p : Process) (mem : U64 → UInt8) (src : U64) (n i : Nat) (dst : Buf) :
    (userStrLoop p mem src n i dst).2 = (userStrFrom p mem src n).2.isSome := by
  induction n generalizing src i dst with
  | zero => rfl
  | succ n ih =>
    unfold userStrLoop userStrFrom
    split
    · rfl
    split
    · rfl
    split
    · rfl
    · rw [ih]
      simp

/-- What is accepted is what the process may touch, to the byte, and only the named room is written. -/
theorem validation_exact (p : Process) (huser : p.isUser = true) (hregions : Unwrapped p.umap) :
    (∀ addr len : U64, addr ≠ 0 → len ≠ 0 → (userPtrOk p addr len = true ↔
      addr.toNat + len.toNat < 2 ^ 64 ∧ Inside p.umap addr.toNat len.toNat)) ∧
    ∀ (mem : U64 → UInt8) (src : U64) (m : Nat) (dst : Buf), src ≠ 0 →
      ((userStrInto p mem src m dst).2 = true ↔ ∃ k < m, StringAt p mem src k) ∧
      (∀ k < m, StringAt p mem src k → (userStrInto p mem src m dst).1.bytes (k + 1) = bytesAt mem src k ++ [0]) ∧
      ∀ i ≥ m, (userStrInto p mem src m dst).1 i = dst i := by
  refine ⟨fun addr len haddr hlen => userPtrOk_iff huser haddr hlen, fun mem src m dst hsrc => ?_⟩
  have hcopies : ∀ k < m, StringAt p mem src k → (userStrLoop p mem src m 0 dst).2 = true ∧
      (userStrLoop p mem src m 0 dst).1.bytes (k + 1) = bytesAt mem src k ++ [0] := by
    intro k hk hstring
    have hcopied := userStrLoop_copies huser hsrc hk hstring ((hstring.mapped k (Nat.le_refl k)).below hregions) 0 dst
    rwa [Buf.drop_zero] at hcopied
  rw [userStrInto, if_neg hsrc]
  refine ⟨⟨userStrLoop_accepts huser hsrc, ?_⟩, fun k hk hstring => (hcopies k hk hstring).2,
    fun i hi => userStrLoop_behind m 0 dst (by omega)⟩
  rintro ⟨k, hk, hstring⟩
  exact (hcopies k hk hstring).1

/-- A process with three bytes, "hi" and a NUL. -/
def threeBytes : Process := { emptySlot with isUser := true, umap := [⟨0x1000, 3⟩] }

def hiAt : U64 → UInt8 := fun a => if a = 0x1000 then 0x68 else if a = 0x1001 then 0x69 else 0

theorem validation_exact_hi : (userPtrOk threeBytes 0x1001 2 = true ∧ ¬userPtrOk threeBytes 0x1001 3 = true) ∧
    (userStrInto threeBytes hiAt 0x1000 3 fun _ => 7).1.bytes 3 = [0x68, 0x69, 0] ∧
    (userStrInto threeBytes hiAt 0x1000 3 fun _ => 7).1 3 = 7 := by
  obtain ⟨hptr, hstr⟩ := validation_exact threeBytes rfl (by simp [threeBytes, Unwrapped])
  obtain ⟨-, hbytes, hbehind⟩ := hstr hiAt 0x1000 3 (fun _ => 7) (by decide)
  have hstring : StringAt threeBytes hiAt 0x1000 2 := by
    refine ⟨fun i hi => ⟨⟨0x1000, 3⟩, by simp [threeBytes], ?_⟩, by decide, by decide⟩
    simp [Region.Holds]
    omega
  refine ⟨⟨(hptr 0x1001 2 (by decide) (by decide)).mpr ?_, fun hthree => ?_⟩, hbytes 2 (by decide) hstring,
    hbehind 3 (Nat.le_refl 3)⟩
  · simp [threeBytes, Inside]
  · have hrange := (hptr 0x1001 3 (by decide) (by decide)).mp hthree
    simp [threeBytes, Inside] at hrange

end Siathos.Syscall
