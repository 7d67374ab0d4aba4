import Siathos.Paging.Pages

/-!
# The first page tables (`thaisboot/main.c`)

`efi_main` maps the first 4 GB at their own addresses, and the kernel from `0xffffffff80000000` on. The processor walks
these tables until `paging_new_address_space` makes others, which share their entries.
-/

open Lib Siathos.Paging

namespace Siathos.Boot

/-! ## The processor -/

/-- Bits 63 to 47 are equal. -/
def canonical (v : BitVec 64) : Bool := v.toNat < 2 ^ 47 || 2 ^ 64 - 2 ^ 47 ≤ v.toNat

/-- An address in memory, and what may be done there. -/
structure Reach where
  phys : Nat
  writable : Bool
  user : Bool
  deriving DecidableEq, Repr

/-- The address that the entry of a page of `2 ^ bits` bytes gives for `v`. -/
def inPage (bits : Nat) (w v : BitVec 64) : Nat :=
  (w &&& pteAddr).toNat / 2 ^ bits * 2 ^ bits + v.toNat % 2 ^ bits

/-- The walk of the processor, with pages of 1 GB, 2 MB and 4 KB. Nothing where it faults. -/
def translate (tables : Nat → Nat → BitVec 64) (pml4 : Nat) (v : BitVec 64) : Option Reach :=
  let e4 := tables pml4 (idxL4 v)
  if !canonical v || !present e4 || large e4 then none
  else
    let e3 := tables (pfn e4) (idxL3 v)
    if !present e3 then none
    else if large e3 then some ⟨inPage 30 e3 v, writable e4 && writable e3, user e4 && user e3⟩
    else
      let e2 := tables (pfn e3) (idxL2 v)
      if !present e2 then none
      else if large e2 then
        some ⟨inPage 21 e2 v, writable e4 && writable e3 && writable e2, user e4 && user e3 && user e2⟩
      else
        let e1 := tables (pfn e2) (idxL1 v)
        if !present e1 then none
        else some ⟨inPage 12 e1 v, writable e4 && writable e3 && writable e2 && writable e1,
          user e4 && user e3 && user e2 && user e1⟩

/-! ## The tables -/

/-- The pages that `AllocatePages` gave for the tables. -/
structure Pages where
  pml4 : Nat
  pdptId : Nat
  pdId0 : Nat
  pdId1 : Nat
  pdId2 : Nat
  pdId3 : Nat
  pdptHh : Nat
  pdHh : Nat
  deriving DecidableEq, Repr

def Pages.list (p : Pages) : List Nat := [p.pml4, p.pdptId, p.pdId0, p.pdId1, p.pdId2, p.pdId3, p.pdptHh, p.pdHh]

/-- The entries from 0 to `n - 1`, one after the other. -/
def fillTable (t : Nat) (w : Nat → BitVec 64) : Nat → (Nat → Nat → BitVec 64) → Nat → Nat → BitVec 64
  | 0, m => m
  | n + 1, m => Radix.write (fillTable t w n m) t n (w n)

/-- The entry of a page of 2 MB. -/
def leafEntry (base : BitVec 64) : BitVec 64 := base ||| 0x83

/-- An entry of `pd_id0` to `pd_id3`. -/
def identityEntry (i : Nat) : BitVec 64 := leafEntry (BitVec.ofNat 64 i <<< 21)

def kernelEntry (kphys : BitVec 64) (i : Nat) : BitVec 64 := leafEntry (kphys + BitVec.ofNat 64 i * 0x200000)

def tableEntry (page : Nat) : BitVec 64 := pageAddr page ||| 0x03

/-- The entries of `pd_hh` that are written. -/
def kernelPages (img2mb : BitVec 64) : Nat := min (img2mb + 1).toNat 512

def buildTables (p : Pages) (kphys img2mb : BitVec 64) (m : Nat → Nat → BitVec 64) : Nat → Nat → BitVec 64 :=
  let m := p.list.foldl (fun m t => Radix.zero m t 0) m
  let m := fillTable p.pdId0 identityEntry 512 m
  let m := fillTable p.pdId1 (fun i => identityEntry (512 + i)) 512 m
  let m := fillTable p.pdId2 (fun i => identityEntry (1024 + i)) 512 m
  let m := fillTable p.pdId3 (fun i => identityEntry (1536 + i)) 512 m
  let m := fillTable p.pdHh (kernelEntry kphys) (kernelPages img2mb) m
  let m := Radix.write m p.pdptId 0 (tableEntry p.pdId0)
  let m := Radix.write m p.pdptId 1 (tableEntry p.pdId1)
  let m := Radix.write m p.pdptId 2 (tableEntry p.pdId2)
  let m := Radix.write m p.pdptId 3 (tableEntry p.pdId3)
  let m := Radix.write m p.pdptHh 0x1FE (tableEntry p.pdHh)
  let m := Radix.write m p.pml4 0 (tableEntry p.pdptId)
  Radix.write m p.pml4 0x1FF (tableEntry p.pdptHh)

/-! ## What is in them -/

theorem fillTable_at (t : Nat) (w : Nat → BitVec 64) (n : Nat) (m : Nat → Nat → BitVec 64) (t' i : Nat) :
    fillTable t w n m t' i = if t' = t ∧ i < n then w i else m t' i := by
  induction n with
  | zero => simp [fillTable]
  | succ n ih =>
    rw [fillTable]
    by_cases h : t' = t ∧ i = n
    · obtain ⟨rfl, rfl⟩ := h
      rw [Radix.write_same, if_pos ⟨rfl, Nat.lt_succ_self i⟩]
    · rw [Radix.write_other (by tauto), ih]
      refine if_congr (and_congr_right fun ht => ?_) rfl rfl
      have hne : i ≠ n := fun hi => h ⟨ht, hi⟩
      omega

theorem zeros_at (l : List Nat) (m : Nat → Nat → BitVec 64) (t i : Nat) :
    l.foldl (fun m t => Radix.zero m t 0) m t i = if t ∈ l then 0 else m t i := by
  induction l generalizing m with
  | nil => simp
  | cons c l ih =>
    rw [List.foldl_cons, ih]
    by_cases ht : t = c <;> simp [Radix.zero, ht]

section

variable {p : Pages} (h : p.list.Nodup) (kphys img2mb : BitVec 64) (m : Nat → Nat → BitVec 64) (i : Nat)
include h

theorem pml4_at : buildTables p kphys img2mb m p.pml4 i =
    if i = 0x1FF then tableEntry p.pdptHh else if i = 0 then tableEntry p.pdptId else 0 := by
  have hzero := zeros_at p.list m p.pml4 i
  simp only [Pages.list, List.nodup_cons, List.mem_cons, not_or] at h hzero
  simp only [buildTables, Radix.write, fillTable_at, Pages.list]
  grind

theorem pdptId_at : buildTables p kphys img2mb m p.pdptId i =
    if i = 0 then tableEntry p.pdId0 else if i = 1 then tableEntry p.pdId1 else if i = 2 then tableEntry p.pdId2
    else if i = 3 then tableEntry p.pdId3 else 0 := by
  have hzero := zeros_at p.list m p.pdptId i
  simp only [Pages.list, List.nodup_cons, List.mem_cons, not_or] at h hzero
  simp only [buildTables, Radix.write, fillTable_at, Pages.list]
  grind

theorem pdptHh_at : buildTables p kphys img2mb m p.pdptHh i = if i = 0x1FE then tableEntry p.pdHh else 0 := by
  have hzero := zeros_at p.list m p.pdptHh i
  simp only [Pages.list, List.nodup_cons, List.mem_cons, not_or] at h hzero
  simp only [buildTables, Radix.write, fillTable_at, Pages.list]
  grind

/-- The page directory of one of the first 4 GB. -/
def Pages.pdId (p : Pages) : Nat → Nat
  | 0 => p.pdId0
  | 1 => p.pdId1
  | 2 => p.pdId2
  | _ => p.pdId3

theorem pdId_at {n : Nat} (hn : n < 4) (hi : i < 512) :
    buildTables p kphys img2mb m p.pdptId n = tableEntry (p.pdId n) ∧
      buildTables p kphys img2mb m (p.pdId n) i = identityEntry (512 * n + i) := by
  rw [pdptId_at h]
  simp only [Pages.list, List.nodup_cons, List.mem_cons, not_or] at h
  simp only [buildTables, Radix.write, fillTable_at, Pages.list]
  obtain rfl | rfl | rfl | rfl : n = 0 ∨ n = 1 ∨ n = 2 ∨ n = 3 := by omega
  · grind [Pages.pdId]
  · grind [Pages.pdId]
  · grind [Pages.pdId]
  · grind [Pages.pdId]

theorem pdHh_at : buildTables p kphys img2mb m p.pdHh i =
    if i < kernelPages img2mb then kernelEntry kphys i else 0 := by
  have hzero := zeros_at p.list m p.pdHh i
  simp only [Pages.list, List.nodup_cons, List.mem_cons, not_or] at h hzero
  simp only [buildTables, Radix.write, fillTable_at, Pages.list]
  grind

end

/-! ## Where the walk ends -/

theorem tableEntry_eq {page : Nat} (h : page < 2 ^ 40) : tableEntry page = entry (pageAddr page) 0x03 := by
  rw [tableEntry, entry, pageAddr_and h]

theorem pfn_tableEntry {page : Nat} (h : page < 2 ^ 40) : pfn (tableEntry page) = page := by
  rw [tableEntry_eq h, pfn_entry h (by decide)]

theorem tableEntry_bits {page : Nat} (h : page < 2 ^ 40) : present (tableEntry page) = true ∧
    large (tableEntry page) = false ∧ writable (tableEntry page) = true ∧ user (tableEntry page) = false := by
  simp only [tableEntry_eq h, present_entry, large_entry, writable_entry, user_entry]
  decide

theorem leaf_bits (base : BitVec 64) (h : base.toNat % 2 ^ 21 = 0) : present (leafEntry base) = true ∧
    large (leafEntry base) = true ∧ writable (leafEntry base) = true ∧ user (leafEntry base) = false := by
  have hlow : base[2] = false := by
    rw [BitVec.getElem_eq_testBit_toNat, Nat.testBit_eq_decide_div_mod_eq, decide_eq_false_iff_not]
    omega
  unfold leafEntry
  refine ⟨?_, ?_, ?_, ?_⟩
  · simp [present]
  · simp [large]
  · simp [writable]
  · simp [user, hlow]

theorem inPage_leaf {base : BitVec 64} (h : base.toNat % 2 ^ 21 = 0) (hlt : base.toNat < 2 ^ 52) (v : BitVec 64) :
    inPage 21 (leafEntry base) v = base.toNat + v.toNat % 2 ^ 21 := by
  have hpage : base = pageAddr (base.toNat / 4096) := by
    apply BitVec.eq_of_toNat_eq
    rw [pageAddr, BitVec.toNat_ofNat]
    omega
  have haddr : leafEntry base &&& pteAddr = base := by
    have hflags : (0x83 : BitVec 64) &&& pteAddr = 0#64 := by decide
    rw [leafEntry, BitVec.and_or_distrib_right, hflags, BitVec.or_zero, hpage, pageAddr_and (by omega)]
  rw [inPage, haddr]
  omega

theorem translate_leaf {tables : Nat → Nat → BitVec 64} {pml4 t3 t2 : Nat} {base v : BitVec 64}
    (hv : canonical v = true)
    (ht3 : t3 < 2 ^ 40) (ht2 : t2 < 2 ^ 40) (h : base.toNat % 2 ^ 21 = 0) (hlt : base.toNat < 2 ^ 52)
    (h4 : tables pml4 (idxL4 v) = tableEntry t3) (h3 : tables t3 (idxL3 v) = tableEntry t2)
    (h2 : tables t2 (idxL2 v) = leafEntry base) :
    translate tables pml4 v = some ⟨base.toNat + v.toNat % 2 ^ 21, true, false⟩ := by
  obtain ⟨hp4, hl4, hw4, hu4⟩ := tableEntry_bits ht3
  obtain ⟨hp3, hl3, hw3, hu3⟩ := tableEntry_bits ht2
  obtain ⟨hp2, hl2, hw2, hu2⟩ := leaf_bits base h
  simp [translate, h4, pfn_tableEntry ht3, h3, pfn_tableEntry ht2, h2, hv, hp4, hl4, hw4, hu4, hp3, hl3, hw3, hu3,
    hp2, hl2, hw2, hu2, inPage_leaf h hlt]

theorem translate_empty {tables : Nat → Nat → BitVec 64} {pml4 t3 : Nat} {v : BitVec 64} (ht3 : t3 < 2 ^ 40)
    (h4 : tables pml4 (idxL4 v) = tableEntry t3)
    (h3 : tables t3 (idxL3 v) = 0 ∨ ∃ t2 < 2 ^ 40, tables t3 (idxL3 v) = tableEntry t2 ∧ tables t2 (idxL2 v) = 0) :
    translate tables pml4 v = none := by
  unfold translate
  dsimp only
  rw [h4, pfn_tableEntry ht3]
  rcases h3 with h3 | ⟨t2, ht2, h3, h2⟩
  · rw [h3, present_zero]
    simp
  · rw [h3, pfn_tableEntry ht2, h2, (tableEntry_bits ht2).2.1, present_zero]
    simp

theorem toNat_identityEntry {k : Nat} (h : k < 2048) :
    (BitVec.ofNat 64 k <<< 21 : BitVec 64).toNat = k * 2 ^ 21 := by
  rw [BitVec.toNat_shiftLeft, BitVec.toNat_ofNat, Nat.shiftLeft_eq]
  omega

theorem toNat_kernelEntry {kphys : BitVec 64} {i : Nat} (h : kphys.toNat + i * 2 ^ 21 < 2 ^ 52) :
    (kphys + BitVec.ofNat 64 i * 0x200000).toNat = kphys.toNat + i * 2 ^ 21 := by
  rw [BitVec.toNat_add, BitVec.toNat_mul, BitVec.toNat_ofNat]
  change (kphys.toNat + i % 2 ^ 64 * 2 ^ 21 % 2 ^ 64) % 2 ^ 64 = _
  omega

/-! ## The map of the first tables -/

/-- Where the kernel is linked, which is `hhdm_offset` too. -/
def kernelVirt : Nat := 0xffffffff80000000

/-- The address that the first tables are meant to give. -/
def mapped (kphys img2mb v : BitVec 64) : Option Nat :=
  if v.toNat < 2 ^ 32 then some v.toNat
  else if kernelVirt ≤ v.toNat ∧ v.toNat < kernelVirt + kernelPages img2mb * 2 ^ 21 then
    some (kphys.toNat + (v.toNat - kernelVirt))
  else none

structure Pages.Placed (p : Pages) : Prop where
  nodup : p.list.Nodup
  bound : ∀ t ∈ p.list, t < 2 ^ 40

theorem Pages.Placed.pdId_lt {p : Pages} (h : p.Placed) (n : Nat) : p.pdId n < 2 ^ 40 := by
  unfold Pages.pdId
  split <;> exact h.bound _ (by simp [Pages.list])

/-- The kernel's memory is at a multiple of 2 MB, as `efi_main` rounds it. -/
structure Fits (kphys img2mb : BitVec 64) : Prop where
  aligned : kphys.toNat % 2 ^ 21 = 0
  bound : kphys.toNat + kernelPages img2mb * 2 ^ 21 ≤ 2 ^ 52

section

variable {p : Pages} {kphys img2mb : BitVec 64} (hp : p.Placed) (m : Nat → Nat → BitVec 64) {v : BitVec 64}
include hp

theorem walk_identity (hv : v.toNat < 2 ^ 32) :
    translate (buildTables p kphys img2mb m) p.pml4 v = some ⟨v.toNat, true, false⟩ := by
  have hcanonical : canonical v = true := by
    simp only [canonical, Bool.or_eq_true, decide_eq_true_eq]
    omega
  have h4 : idxL4 v = 0 := by
    rw [idxL4, idx_eq]
    omega
  have h3 : idxL3 v = v.toNat / 2 ^ 30 := by
    rw [idxL3, idx_eq]
    omega
  have h2 : 512 * (v.toNat / 2 ^ 30) + idxL2 v = v.toNat / 2 ^ 21 := by
    rw [idxL2, idx_eq]
    omega
  obtain ⟨hentry, hleaf⟩ := pdId_at hp.nodup kphys img2mb m (idxL2 v) (n := v.toNat / 2 ^ 30) (by omega) (idxL2_lt v)
  rw [← h3] at hentry
  rw [h2, ← h3] at hleaf
  have hfirst : buildTables p kphys img2mb m p.pml4 (idxL4 v) = tableEntry p.pdptId := by
    rw [h4, pml4_at hp.nodup, if_neg (by decide), if_pos rfl]
  have hbase := toNat_identityEntry (k := v.toNat / 2 ^ 21) (by omega)
  rw [translate_leaf hcanonical (hp.bound p.pdptId (by simp [Pages.list])) (hp.pdId_lt _) (by omega) (by omega) hfirst
    hentry hleaf, hbase, Nat.div_add_mod']

theorem walk_kernel (hk : Fits kphys img2mb) (hv : kernelVirt ≤ v.toNat)
    (hend : v.toNat < kernelVirt + kernelPages img2mb * 2 ^ 21) :
    translate (buildTables p kphys img2mb m) p.pml4 v =
      some ⟨kphys.toNat + (v.toNat - kernelVirt), true, false⟩ := by
  obtain ⟨haligned, hbound⟩ := hk
  have hpages : kernelPages img2mb ≤ 512 := Nat.min_le_right _ _
  have hlt := v.isLt
  unfold kernelVirt at *
  have hcanonical : canonical v = true := by
    simp only [canonical, Bool.or_eq_true, decide_eq_true_eq]
    omega
  have h4 : idxL4 v = 0x1FF := by
    rw [idxL4, idx_eq]
    omega
  have h3 : idxL3 v = 0x1FE := by
    rw [idxL3, idx_eq]
    omega
  have h2 : idxL2 v = (v.toNat - 0xffffffff80000000) / 2 ^ 21 := by
    rw [idxL2, idx_eq]
    omega
  have hbase : (kphys + BitVec.ofNat 64 (idxL2 v) * 0x200000).toNat = kphys.toNat + idxL2 v * 2 ^ 21 :=
    toNat_kernelEntry (by omega)
  have hfirst : buildTables p kphys img2mb m p.pml4 (idxL4 v) = tableEntry p.pdptHh := by
    rw [h4, pml4_at hp.nodup, if_pos rfl]
  have hsecond : buildTables p kphys img2mb m p.pdptHh (idxL3 v) = tableEntry p.pdHh := by
    rw [h3, pdptHh_at hp.nodup, if_pos rfl]
  have hleaf : buildTables p kphys img2mb m p.pdHh (idxL2 v) = kernelEntry kphys (idxL2 v) := by
    rw [pdHh_at hp.nodup, if_pos (by omega)]
  have haddr : kphys.toNat + idxL2 v * 2 ^ 21 + v.toNat % 2 ^ 21 = kphys.toNat + (v.toNat - 0xffffffff80000000) := by
    omega
  rw [translate_leaf hcanonical (hp.bound p.pdptHh (by simp [Pages.list])) (hp.bound p.pdHh (by simp [Pages.list]))
    (by omega) (by omega) hfirst hsecond hleaf, hbase, haddr]

theorem walk_none (hlow : 2 ^ 32 ≤ v.toNat)
    (hhigh : ¬ (kernelVirt ≤ v.toNat ∧ v.toNat < kernelVirt + kernelPages img2mb * 2 ^ 21)) :
    translate (buildTables p kphys img2mb m) p.pml4 v = none := by
  have hlt := v.isLt
  unfold kernelVirt at hhigh
  by_cases hv : canonical v = true
  · simp only [canonical, Bool.or_eq_true, decide_eq_true_eq] at hv
    have h4 : idxL4 v = v.toNat / 2 ^ 39 % 512 := by rw [idxL4, idx_eq]
    have h3 : idxL3 v = v.toNat / 2 ^ 30 % 512 := by rw [idxL3, idx_eq]
    have h2 : idxL2 v = v.toNat / 2 ^ 21 % 512 := by rw [idxL2, idx_eq]
    have hentry := pml4_at hp.nodup kphys img2mb m (idxL4 v)
    by_cases hkernel : idxL4 v = 0x1FF
    · rw [if_pos hkernel] at hentry
      refine translate_empty (hp.bound p.pdptHh (by simp [Pages.list])) hentry ?_
      rw [pdptHh_at hp.nodup]
      by_cases hlast : idxL3 v = 0x1FE
      · refine .inr ⟨p.pdHh, hp.bound p.pdHh (by simp [Pages.list]), if_pos hlast, ?_⟩
        rw [pdHh_at hp.nodup, if_neg (by omega)]
      · exact .inl (if_neg hlast)
    · rw [if_neg hkernel] at hentry
      by_cases hfirst : idxL4 v = 0
      · rw [if_pos hfirst] at hentry
        refine translate_empty (hp.bound p.pdptId (by simp [Pages.list])) hentry (.inl ?_)
        rw [pdptId_at hp.nodup, if_neg (by omega), if_neg (by omega), if_neg (by omega), if_neg (by omega)]
      · rw [if_neg hfirst] at hentry
        simp only [translate, hentry, present_zero]
        simp
  · simp [translate, hv]

/-- The walk over the first tables ends where it is meant to, and never for ring 3. -/
theorem translate_built (hk : Fits kphys img2mb) :
    translate (buildTables p kphys img2mb m) p.pml4 v =
      (mapped kphys img2mb v).map fun phys => ⟨phys, true, false⟩ := by
  unfold mapped
  split_ifs with hlow hhigh
  · exact walk_identity hp m hlow
  · exact walk_kernel hp m hk hhigh.1 hhigh.2
  · exact walk_none hp m (Nat.le_of_not_lt hlow) hhigh

end

def lowPages : Pages := ⟨16, 17, 18, 19, 20, 21, 22, 23⟩

theorem lowPages_placed : lowPages.Placed := ⟨by decide, by decide⟩

theorem translate_built_low : translate (buildTables lowPages 0x200000 3 fun _ _ => 0) 16 0xffffffff80001234 =
    (mapped 0x200000 3 0xffffffff80001234).map fun phys => ⟨phys, true, false⟩ :=
  translate_built lowPages_placed _ ⟨by decide, by decide⟩

end Siathos.Boot
