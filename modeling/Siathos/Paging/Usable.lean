import Siathos.Paging.Ledger

/-!
# What `pmm_init` makes free

The runs of the memory map are rounded, and four reservations follow. A page is free where some run
has it and no reservation takes it back.
-/

open Lib

namespace Siathos.Frames

/-! ## Memory, byte by byte -/

def InPage (idx x : Nat) : Prop := idx * 4096 ≤ x ∧ x < (idx + 1) * 4096

/-- The page and the `size` bytes at `base` share a byte. -/
def Meets (base size idx : Nat) : Prop := ∃ x, InPage idx x ∧ base ≤ x ∧ x < base + size

theorem meets_iff {base size idx : Nat} :
    Meets base size idx ↔ 0 < size ∧ base < (idx + 1) * 4096 ∧ idx * 4096 < base + size := by
  constructor
  · rintro ⟨x, hx, hbase, hend⟩
    unfold InPage at hx
    omega
  · rintro ⟨hsize, hbase, hend⟩
    refine ⟨max base (idx * 4096), ?_, ?_, ?_⟩
    · unfold InPage
      omega
    · omega
    · omega

def MemmapEntry.Holds (e : MemmapEntry) (x : Nat) : Prop :=
  e.base.toNat ≤ x ∧ x < e.base.toNat + e.length.toNat

def Usable (memmap : List MemmapEntry) (x : Nat) : Prop := ∃ e ∈ memmap, e.type = 1 ∧ e.Holds x

def Memory.Free (s : Memory) (idx : Nat) : Prop := idx < s.total ∧ s.bitmap.bit idx = false

/-- What a free page must be, with lines of `pitch` bytes in the framebuffer. -/
structure Proper (addr : BitVec 64) (bi : BootInfo) (pitch : BitVec 64) (idx : Nat) : Prop where
  usable : ∀ x, InPage idx x → Usable bi.memmap x
  others : ∀ e ∈ bi.memmap, e.type ≠ 1 → ¬ Meets e.base.toNat e.length.toNat idx
  kernel : ¬ Meets bi.kernelPhys.toNat bi.kernelSize.toNat idx
  framebuffer : ¬ Meets bi.fbAddr.toNat (pitch.toNat * bi.fbHeight.toNat) idx
  bootInfo : ¬ Meets addr.toNat sizeofBootInfo.toNat idx
  low : ¬ Meets 0 (lowUsed bi.memmap).toNat idx

/-! ## The pages of an entry -/

/-- `first`, in `pmm_init`. -/
def MemmapEntry.first (e : MemmapEntry) : Nat := (e.base + 0xFFF).toNat / 4096

def MemmapEntry.Runs (e : MemmapEntry) (idx : Nat) : Prop :=
  e.first ≤ idx ∧ idx < e.first + e.length.toNat / 4096

instance (e : MemmapEntry) (idx : Nat) : Decidable (e.Runs idx) :=
  inferInstanceAs (Decidable (_ ∧ _))

/-- The last page of a run, where the base is rounded up by more than the length is rounded down.
Where the rounding wraps, the run starts at page 0. -/
def MemmapEntry.Juts (e : MemmapEntry) (idx : Nat) : Prop :=
  e.Runs idx ∧ (e.base.toNat + 0xFFF < 2 ^ 64 →
    idx + 1 = e.first + e.length.toNat / 4096 ∧ e.length.toNat % 4096 < (4096 - e.base.toNat % 4096) % 4096)

theorem MemmapEntry.holds_of_runs {e : MemmapEntry} {idx : Nat} (h : e.Runs idx) (hjuts : ¬ e.Juts idx) {x : Nat}
    (hx : InPage idx x) : e.Holds x := by
  unfold MemmapEntry.Juts at hjuts
  simp only [h, true_and, Classical.not_imp] at hjuts
  obtain ⟨hsum, hlast⟩ := hjuts
  have hfirst : (e.base + 0xFFF).toNat = e.base.toNat + 0xFFF := by
    rw [BitVec.toNat_add]
    exact Nat.mod_eq_of_lt hsum
  unfold MemmapEntry.Runs at h
  unfold MemmapEntry.first at h hlast
  unfold InPage at hx
  unfold MemmapEntry.Holds
  rw [hfirst] at h hlast
  omega

theorem clearPages_bit (total n i : Nat) (m : Bitmap) (j : Nat) :
    (clearPages total n i m).bit j = (m.bit j && !decide (i ≤ j ∧ j < i + n ∧ j < total)) := by
  induction n generalizing i m with
  | zero =>
    have hempty : ¬ (i ≤ j ∧ j < i + 0 ∧ j < total) := by omega
    rw [clearPages, decide_eq_false hempty, Bool.not_false, Bool.and_true]
  | succ n ih =>
    unfold clearPages
    split_ifs with hi
    · rw [ih, Bitmap.bit_clear, Bool.and_assoc, ← Bool.not_or, ← Bool.decide_or]
      congr 3
      simp only [eq_iff_iff]
      omega
    · have hempty : ¬ (i ≤ j ∧ j < i + (n + 1) ∧ j < total) := by omega
      rw [decide_eq_false hempty, Bool.not_false, Bool.and_true]

theorem clearEntry_bit (total : Nat) (m : Bitmap) (e : MemmapEntry) {j : Nat} (hj : j < total) :
    (clearEntry total m e).bit j = (m.bit j && !decide (e.type = 1 ∧ e.Runs j)) := by
  unfold clearEntry
  split_ifs with htype
  · have hother : ¬ (e.type = 1 ∧ e.Runs j) := fun h => htype h.1
    rw [decide_eq_false hother, Bool.not_false, Bool.and_true]
  · have hone : e.type = 1 := not_not.mp htype
    have hfirst : (e.base + 0xFFF &&& pageMask).toNat / 4096 = e.first := by
      unfold pageMask MemmapEntry.first
      rw [Paging.toNat_pageFloor]
      omega
    rw [clearPages_bit, hfirst]
    simp [MemmapEntry.Runs, hone, hj]

theorem clearEntries_bit (total : Nat) (memmap : List MemmapEntry) (m : Bitmap) {j : Nat} (hj : j < total) :
    (memmap.foldl (clearEntry total) m).bit j = false ↔
      m.bit j = false ∨ ∃ e ∈ memmap, e.type = 1 ∧ e.Runs j := by
  induction memmap generalizing m with
  | nil => simp
  | cons e memmap ih =>
    rw [List.foldl_cons, ih, clearEntry_bit total m e hj]
    simp only [Bool.and_eq_false_iff, Bool.not_eq_false', decide_eq_true_eq, List.exists_mem_cons_iff, or_assoc]

/-! ## The reservations -/

/-- A page that `pmm_reserve` takes. The end is computed in 64 bits. -/
def Reserves (base size : BitVec 64) (idx : Nat) : Prop :=
  size ≠ 0 ∧ base.toNat / 4096 ≤ idx ∧ idx < (base + size + 0xFFF).toNat / 4096

instance (base size : BitVec 64) (idx : Nat) : Decidable (Reserves base size idx) :=
  inferInstanceAs (Decidable (_ ∧ _))

theorem pmmReserve_bit (s : Memory) (base size : BitVec 64) {j : Nat} (hj : j < s.total) :
    (pmmReserve s base size).bitmap.bit j = false ↔ s.bitmap.bit j = false ∧ ¬ Reserves base size j := by
  unfold pmmReserve Reserves pageMask
  split_ifs with hsize
  · simp [hsize]
  · dsimp only
    rw [(reservePages_bit _ _ s j).1, Paging.toNat_pageFloor, Paging.toNat_pageFloor]
    simp only [Bool.or_eq_false_iff, decide_eq_false_iff_not, ne_eq, hsize, not_false_eq_true, true_and]
    refine and_congr Iff.rfl (not_congr ?_)
    omega

def KernelReserved (bi : BootInfo) : Prop := bi.kernelPhys ≠ 0 ∧ bi.kernelSize ≠ 0

def FbReserved (bi : BootInfo) : Prop := bi.fbAddr ≠ 0 ∧ bi.fbWidth ≠ 0 ∧ bi.fbHeight ≠ 0

instance (bi : BootInfo) : Decidable (KernelReserved bi) := inferInstanceAs (Decidable (_ ∧ _))

instance (bi : BootInfo) : Decidable (FbReserved bi) := inferInstanceAs (Decidable (_ ∧ _))

def fbBytes (bi : BootInfo) : BitVec 64 := bi.fbWidth * bi.fbHeight * (bi.fbBpp / 8)

/-- A page that stays in use whatever the entries say: reserved, or behind the bitmap. -/
def Spared (addr : BitVec 64) (bi : BootInfo) (idx : Nat) : Prop :=
  pagesTotal bi.memmap ≤ idx ∨ (KernelReserved bi ∧ Reserves bi.kernelPhys bi.kernelSize idx) ∨
    (FbReserved bi ∧ Reserves bi.fbAddr (fbBytes bi) idx) ∨ Reserves addr sizeofBootInfo idx ∨
    Reserves 0 (lowUsed bi.memmap) idx

theorem bit_when {c : Prop} [Decidable c] (s : Memory) (base size : BitVec 64) {j : Nat} (hj : j < s.total) :
    (if c then pmmReserve s base size else s).bitmap.bit j = false ↔
      s.bitmap.bit j = false ∧ ¬ (c ∧ Reserves base size j) := by
  split_ifs with hc
  · rw [pmmReserve_bit s base size hj]
    simp [hc]
  · simp [hc]

theorem total_when {c : Prop} [Decidable c] (s : Memory) (base size : BitVec 64) :
    (if c then pmmReserve s base size else s).total = s.total := by
  split_ifs
  · exact pmmReserve_total s base size
  · rfl

def Boots (addr : BitVec 64) (bi : BootInfo) : Prop := addr ≠ 0 ∧ bi.magic = thaisBootMagic

theorem pmmInit_boots {addr : BitVec 64} {bi : BootInfo} {s : Memory} (h : pmmInit addr bi = some s) :
    Boots addr bi := by
  by_cases hbad : addr = 0 ∨ bi.magic ≠ thaisBootMagic
  · rw [pmmInit, if_pos hbad] at h
    cases h
  · rwa [not_or, not_not] at hbad

theorem pmmInit_free {addr : BitVec 64} {bi : BootInfo} (h : Boots addr bi) :
    ∃ s, pmmInit addr bi = some s ∧
      ∀ idx, s.Free idx ↔ (∃ e ∈ bi.memmap, e.type = 1 ∧ e.Runs idx) ∧ ¬ Spared addr bi idx := by
  have hgood : ¬ (addr = 0 ∨ bi.magic ≠ thaisBootMagic) := by
    rw [not_or, not_not]
    exact h
  unfold pmmInit
  rw [if_neg hgood]
  refine ⟨_, rfl, fun idx => ?_⟩
  unfold Memory.Free Spared
  simp only [pmmReserve_total, total_when]
  by_cases hidx : idx < pagesTotal bi.memmap
  · have hmap := clearEntries_bit (pagesTotal bi.memmap) bi.memmap (fun _ => BitVec.allOnes 64) hidx
    have hones : Bitmap.bit (fun _ => BitVec.allOnes 64) idx = true := by
      rw [Bitmap.bit_eq, BitVec.getLsbD_allOnes]
      exact decide_eq_true (Bitmap.place_lt idx)
    rw [pmmReserve_bit, pmmReserve_bit, bit_when, bit_when, hmap, hones]
    · simp only [hidx, true_and, Nat.not_le.mpr hidx, false_or, not_or, and_assoc, KernelReserved, FbReserved, fbBytes,
        Bool.true_eq_false]
    all_goals simpa only [pmmReserve_total, total_when] using hidx
  · simp [hidx, Nat.le_of_not_lt hidx]

/-! ## Where the free pages are proper -/

/-- The first page behind the pages that `pmm_reserve` takes, or 0 where it takes none. -/
def reservedEnd (base size : BitVec 64) : Nat := if size = 0 then 0 else (base + size + 0xFFF).toNat / 4096

theorem reserves_of_meets {base size : BitVec 64} {len idx : Nat} (hmeets : Meets base.toNat len idx)
    (hend : idx < reservedEnd base size) : Reserves base size idx := by
  unfold reservedEnd at hend
  split_ifs at hend with hsize
  · omega
  · obtain ⟨hlen, hbase, hbyte⟩ := meets_iff.mp hmeets
    refine ⟨hsize, ?_, hend⟩
    omega

theorem reservedEnd_le {base size : BitVec 64} {len idx : Nat} (hsum : base.toNat + size.toNat + 0xFFF < 2 ^ 64)
    (hlen : len ≤ size.toNat) (hmeets : Meets base.toNat len idx) : idx < reservedEnd base size := by
  obtain ⟨hpos, hbase, hbyte⟩ := meets_iff.mp hmeets
  have hend : (base + size + 0xFFF).toNat = base.toNat + size.toNat + 0xFFF := by
    rw [BitVec.toNat_add, BitVec.toNat_add]
    show ((base.toNat + size.toNat) % 2 ^ 64 + 0xFFF) % 2 ^ 64 = _
    omega
  have hsize : size ≠ 0 := by
    rintro rfl
    exact absurd hlen (by simp; omega)
  rw [reservedEnd, if_neg hsize, hend]
  omega

/-- The pages from `fin` on that meet the bytes are spared, or in no run. -/
def Sheltered (addr : BitVec 64) (bi : BootInfo) (base len fin : Nat) : Prop :=
  ∀ e ∈ bi.memmap, e.type = 1 → ∀ idx, e.Runs idx → fin ≤ idx → Meets base len idx → Spared addr bi idx

/-- What keeps the runs of the entries from harm. -/
structure Unharmed (addr : BitVec 64) (bi : BootInfo) (pitch : BitVec 64) : Prop where
  edges : ∀ e ∈ bi.memmap, e.type = 1 → ∀ idx, e.Juts idx →
    Spared addr bi idx ∨ ∀ x, InPage idx x → ¬ e.Holds x → Usable bi.memmap x
  others : ∀ r ∈ bi.memmap, r.type ≠ 1 → Sheltered addr bi r.base.toNat r.length.toNat 0
  kernel : Sheltered addr bi bi.kernelPhys.toNat bi.kernelSize.toNat
    (if KernelReserved bi then reservedEnd bi.kernelPhys bi.kernelSize else 0)
  framebuffer : Sheltered addr bi bi.fbAddr.toNat (pitch.toNat * bi.fbHeight.toNat)
    (if FbReserved bi then reservedEnd bi.fbAddr (fbBytes bi) else 0)
  bootInfo : Sheltered addr bi addr.toNat sizeofBootInfo.toNat (reservedEnd addr sizeofBootInfo)

theorem Sheltered.avoids {addr : BitVec 64} {bi : BootInfo} {base size : BitVec 64} {len : Nat} {c : Prop} [Decidable c]
    (h : Sheltered addr bi base.toNat len (if c then reservedEnd base size else 0))
    (hspared : ∀ idx, c → Reserves base size idx → Spared addr bi idx) {e : MemmapEntry} (he : e ∈ bi.memmap)
    (htype : e.type = 1) {idx : Nat} (hruns : e.Runs idx) (hfree : ¬ Spared addr bi idx) :
    ¬ Meets base.toNat len idx := by
  intro hmeets
  refine hfree (h e he htype idx hruns ?_ hmeets)
  split_ifs with hc
  · rw [← Nat.not_lt]
    exact fun hend => hfree (hspared idx hc (reserves_of_meets hmeets hend))
  · exact Nat.zero_le idx

theorem Unharmed.proper {addr : BitVec 64} {bi : BootInfo} {pitch : BitVec 64} (h : Unharmed addr bi pitch)
    {e : MemmapEntry} (he : e ∈ bi.memmap) (htype : e.type = 1) {idx : Nat} (hruns : e.Runs idx)
    (hfree : ¬ Spared addr bi idx) : Proper addr bi pitch idx where
  usable := by
    intro x hx
    by_cases hin : e.Holds x
    · exact ⟨e, he, htype, hin⟩
    · have hjuts : e.Juts idx := by
        by_contra hjuts
        exact hin (MemmapEntry.holds_of_runs hruns hjuts hx)
      exact (h.edges e he htype idx hjuts).resolve_left hfree x hx hin
  others := fun r hr hother hmeets => hfree (h.others r hr hother e he htype idx hruns (Nat.zero_le idx) hmeets)
  kernel := h.kernel.avoids (fun _ hc hres => .inr (.inl ⟨hc, hres⟩)) he htype hruns hfree
  framebuffer := h.framebuffer.avoids (fun _ hc hres => .inr (.inr (.inl ⟨hc, hres⟩))) he htype hruns hfree
  bootInfo := by
    have hinfo : Sheltered addr bi addr.toNat sizeofBootInfo.toNat
        (if True then reservedEnd addr sizeofBootInfo else 0) := h.bootInfo
    exact hinfo.avoids (fun _ _ hres => .inr (.inr (.inr (.inl hres)))) he htype hruns hfree
  low := by
    intro hmeets
    obtain ⟨hpos, hle⟩ := lowUsed_bounds bi.memmap
    have hzero : (0 : BitVec 64).toNat = 0 := rfl
    have hsum : (0 : BitVec 64).toNat + (lowUsed bi.memmap).toNat + 0xFFF < 2 ^ 64 := by omega
    have hend := reservedEnd_le hsum (Nat.le_refl _) hmeets
    exact hfree (.inr (.inr (.inr (.inr (reserves_of_meets hmeets hend)))))

theorem Unharmed.of_proper {addr : BitVec 64} {bi : BootInfo} {pitch : BitVec 64}
    (h : ∀ e ∈ bi.memmap, e.type = 1 → ∀ idx, e.Runs idx → ¬ Spared addr bi idx → Proper addr bi pitch idx) :
    Unharmed addr bi pitch where
  edges := by
    intro e he htype idx hjuts
    by_cases hspared : Spared addr bi idx
    · exact .inl hspared
    · exact .inr fun x hx _ => (h e he htype idx hjuts.1 hspared).usable x hx
  others := fun r hr hother e he htype idx hruns _ hmeets => by
    by_contra hspared
    exact (h e he htype idx hruns hspared).others r hr hother hmeets
  kernel := fun e he htype idx hruns _ hmeets => by
    by_contra hspared
    exact (h e he htype idx hruns hspared).kernel hmeets
  framebuffer := fun e he htype idx hruns _ hmeets => by
    by_contra hspared
    exact (h e he htype idx hruns hspared).framebuffer hmeets
  bootInfo := fun e he htype idx hruns _ hmeets => by
    by_contra hspared
    exact (h e he htype idx hruns hspared).bootInfo hmeets

theorem frees_usable_iff (addr : BitVec 64) (bi : BootInfo) (pitch : BitVec 64) :
    (∀ s, pmmInit addr bi = some s → ∀ idx, s.Free idx → Proper addr bi pitch idx) ↔
      (Boots addr bi → Unharmed addr bi pitch) := by
  constructor
  · intro hall hboots
    obtain ⟨s, hinit, hfree⟩ := pmmInit_free hboots
    refine Unharmed.of_proper fun e he htype idx hruns hspared => ?_
    exact hall s hinit idx ((hfree idx).mpr ⟨⟨e, he, htype, hruns⟩, hspared⟩)
  · intro hunharmed s hinit idx hidx
    have hboots := pmmInit_boots hinit
    obtain ⟨s', hinit', hfree⟩ := pmmInit_free hboots
    obtain rfl : s = s' := Option.some.inj (hinit.symm.trans hinit')
    obtain ⟨⟨e, he, htype, hruns⟩, hspared⟩ := (hfree idx).mp hidx
    exact (hunharmed hboots).proper he htype hruns hspared

/-- One usable region, of which a page is in use by the firmware, and a framebuffer whose lines are
padded. -/
def jaggedBoot : BootInfo :=
  ⟨thaisBootMagic, 0x4000, 32, 16, 32, [⟨0x1800, 0x5000, 1⟩, ⟨0x3000, 0x1000, 2⟩], 0, 0⟩

def jaggedMemory : Memory := (pmmInit 0x8000 jaggedBoot).getD ⟨fun _ => 0, 0, 0⟩

/-- Page 3 is the firmware's, page 5 has the second half of the framebuffer, and page 6 ends behind
the region. -/
theorem jagged_improper :
    pmmInit 0x8000 jaggedBoot = some jaggedMemory ∧
      (jaggedMemory.Free 3 ∧ ¬ Proper 0x8000 jaggedBoot 512 3) ∧
      (jaggedMemory.Free 5 ∧ ¬ Proper 0x8000 jaggedBoot 512 5) ∧
      (jaggedMemory.Free 6 ∧ ¬ Proper 0x8000 jaggedBoot 512 6) := by
  refine ⟨rfl, ⟨⟨by decide, by decide +kernel⟩, fun h => ?_⟩, ⟨⟨by decide, by decide +kernel⟩, fun h => ?_⟩,
    ⟨⟨by decide, by decide +kernel⟩, fun h => ?_⟩⟩
  · exact h.others ⟨0x3000, 0x1000, 2⟩ (by decide) (by decide) (meets_iff.mpr (by decide))
  · exact h.framebuffer (meets_iff.mpr (by decide))
  · obtain ⟨e, he, htype, hholds⟩ := h.usable 0x6FFF ⟨by decide, by decide⟩
    rcases List.mem_pair.mp he with rfl | rfl
    · exact absurd hholds.2 (by decide)
    · exact absurd htype (by decide)

/-! ## A tidy map -/

/-- A memory map of whole pages with no region of another type inside a usable one, and
reservations that cover what they are for. -/
structure Tidy (addr : BitVec 64) (bi : BootInfo) (pitch : BitVec 64) : Prop where
  aligned : ∀ e ∈ bi.memmap, e.type = 1 → e.base.toNat % 4096 = 0
  apart : ∀ e ∈ bi.memmap, e.type = 1 → ∀ r ∈ bi.memmap, r.type ≠ 1 → ∀ x, e.Holds x → ¬ r.Holds x
  kernel : KernelReserved bi ∧ bi.kernelPhys.toNat + bi.kernelSize.toNat + 0xFFF < 2 ^ 64
  framebuffer : FbReserved bi ∧ bi.fbAddr.toNat + (fbBytes bi).toNat + 0xFFF < 2 ^ 64 ∧
    pitch.toNat * bi.fbHeight.toNat ≤ (fbBytes bi).toNat
  bootInfo : addr.toNat + sizeofBootInfo.toNat + 0xFFF < 2 ^ 64

theorem MemmapEntry.not_juts {e : MemmapEntry} (h : e.base.toNat % 4096 = 0) (idx : Nat) : ¬ e.Juts idx := by
  rintro ⟨-, hlast⟩
  have hlt := e.base.isLt
  have hround := hlast (by omega)
  omega

theorem Sheltered.of_covers {addr : BitVec 64} {bi : BootInfo} {base size : BitVec 64} {len : Nat}
    (hsum : base.toNat + size.toNat + 0xFFF < 2 ^ 64) (hlen : len ≤ size.toNat) :
    Sheltered addr bi base.toNat len (reservedEnd base size) :=
  fun _ _ _ _ _ hfin hmeets => absurd (reservedEnd_le hsum hlen hmeets) (Nat.not_lt.mpr hfin)

theorem Tidy.unharmed {addr : BitVec 64} {bi : BootInfo} {pitch : BitVec 64} (h : Tidy addr bi pitch) :
    Unharmed addr bi pitch where
  edges := fun e he htype idx hjuts => absurd hjuts (MemmapEntry.not_juts (h.aligned e he htype) idx)
  others := by
    rintro r hr hother e he htype idx hruns - ⟨x, hx, hfrom, hto⟩
    have hin := MemmapEntry.holds_of_runs hruns (MemmapEntry.not_juts (h.aligned e he htype) idx) hx
    exact absurd ⟨hfrom, hto⟩ (h.apart e he htype r hr hother x hin)
  kernel := by
    rw [if_pos h.kernel.1]
    exact Sheltered.of_covers h.kernel.2 (Nat.le_refl _)
  framebuffer := by
    rw [if_pos h.framebuffer.1]
    exact Sheltered.of_covers h.framebuffer.2.1 h.framebuffer.2.2
  bootInfo := Sheltered.of_covers h.bootInfo (Nat.le_refl _)

end Siathos.Frames
