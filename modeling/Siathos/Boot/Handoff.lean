import Siathos.Boot.Kernel
import Siathos.Paging.Usable
import Siathos.Proc.Isolation

/-!
# From the loader to the kernel (`thaisboot/main.c`, `main.c`)

`efi_main` translates the memory map of the firmware, `pmm_init` frees what the map says is free, and `paging_init` goes
on with the tables of the loader. The state that results is the one that the runs of the processes start from.
-/

open Lib Siathos.Paging Siathos.Frames Siathos.Proc.Memory

namespace Siathos.Boot

/-! ## The memory map -/

/-- `EFI_MEMORY_DESCRIPTOR`, as far as it is read. -/
structure Descriptor where
  type : BitVec 32
  physicalStart : BitVec 64
  numberOfPages : BitVec 64
  deriving DecidableEq, Repr

def efiConventionalMemory : BitVec 32 := 7

def Descriptor.entry (d : Descriptor) : MemmapEntry where
  base := d.physicalStart
  length := d.numberOfPages <<< 12
  type := if d.type = efiConventionalMemory then 1 else 2

/-- `bi.memmap`. There is room for 256 entries. -/
def memmapOf (ds : List Descriptor) : List MemmapEntry := (ds.take 256).map Descriptor.entry

/-- What `gop->Mode` says. -/
structure Mode where
  frameBufferBase : BitVec 64
  horizontalResolution : BitVec 64
  verticalResolution : BitVec 64
  deriving DecidableEq, Repr

/-- `bi`. Without a framebuffer its fields are 0. -/
def bootInfo (gop : Option Mode) (ds : List Descriptor) (k : Loaded) : BootInfo where
  magic := thaisBootMagic
  fbAddr := (gop.map Mode.frameBufferBase).getD 0
  fbWidth := (gop.map Mode.horizontalResolution).getD 0
  fbHeight := (gop.map Mode.verticalResolution).getD 0
  fbBpp := if gop.isSome then 32 else 0
  memmap := memmapOf ds
  kernelPhys := k.kphys
  kernelSize := (k.extent.imgSize + 0xFFF) &&& ~~~0xFFF

/-! ## The kernel starts -/

/-- A chunk for the heap. -/
def growHeap (pmm : Pmm) : Pmm := (Paging.pmmAlloc pmm .heap 256).1

/-- The state before the first process, with `chunks` chunks of the heap. `blocks` are in use in them. -/
def started (t : Pages) (s : Memory) (tables : Nat → Nat → BitVec 64) (bytes : Nat → BitVec 8) (chunks : Nat)
    (blocks : List Nat) : Sys :=
  { freshSys s.total with
    vm := ⟨growHeap^[chunks] s.pmm, tables, bytes⟩
    blocks
    active := t.pml4 }

/-! ## What the firmware says -/

/-- The descriptor covers the byte. -/
def Descriptor.Holds (d : Descriptor) (x : Nat) : Prop :=
  d.physicalStart.toNat ≤ x ∧ x < d.physicalStart.toNat + d.numberOfPages.toNat * 4096

/-- Whole pages, described once. -/
structure Sane (ds : List Descriptor) : Prop where
  aligned : ∀ d ∈ ds, d.physicalStart.toNat % 4096 = 0
  once : ∀ d ∈ ds, ∀ d' ∈ ds, ∀ x, d.Holds x → d'.Holds x → d = d'

/-- The page is described as memory that is in use. -/
def Described (ds : List Descriptor) (f : Nat) : Prop :=
  ∃ d ∈ ds, d.type ≠ efiConventionalMemory ∧ d.Holds (f * 4096)

/-- A page that `pmm_init` frees is memory that nobody uses. -/
theorem free_conventional {ds : List Descriptor} (hs : Sane ds) {gop : Option Mode} {k : Loaded} {addr : BitVec 64}
    {s : Memory} (hinit : pmmInit addr (bootInfo gop ds k) = some s) {f : Nat} (hf : s.Free f) {x : Nat}
    (hx : InPage f x) : ∃ d ∈ ds, d.type = efiConventionalMemory ∧ d.Holds x := by
  obtain ⟨s', hinit', hfree⟩ := pmmInit_free (pmmInit_boots hinit)
  obtain rfl : s = s' := Option.some.inj (hinit.symm.trans hinit')
  obtain ⟨⟨e, he, htype, hruns⟩, -⟩ := (hfree f).mp hf
  obtain ⟨d, hd, rfl⟩ := List.mem_map.mp he
  have hmem := List.mem_of_mem_take hd
  have hholds := MemmapEntry.holds_of_runs hruns (MemmapEntry.not_juts (hs.aligned d hmem) f) hx
  refine ⟨d, hmem, ?_, hholds.1, ?_⟩
  · by_contra hother
    rw [Descriptor.entry, if_neg hother] at htype
    have htwo : (2 : BitVec 64) ≠ 1 := by decide
    exact htwo htype
  · have hend := hholds.2
    have hlen : d.entry.length.toNat ≤ d.numberOfPages.toNat * 4096 := by
      rw [Descriptor.entry, BitVec.toNat_shiftLeft, Nat.shiftLeft_eq]
      exact Nat.mod_le _ _
    change x < d.physicalStart.toNat + d.entry.length.toNat at hend
    omega

theorem described_used {ds : List Descriptor} (hs : Sane ds) {gop : Option Mode} {k : Loaded} {addr : BitVec 64}
    {s : Memory} (hinit : pmmInit addr (bootInfo gop ds k) = some s) {f : Nat} (hf : Described ds f) : ¬ s.Free f := by
  intro hfree
  obtain ⟨d, hd, hother, hholds⟩ := hf
  have hx : InPage f (f * 4096) := ⟨Nat.le_refl _, by omega⟩
  obtain ⟨d', hd', hconv, hholds'⟩ := free_conventional hs hinit hfree hx
  obtain rfl := hs.once d hd d' hd' _ hholds hholds'
  exact hother hconv

/-! ## What is in use -/

theorem clearEntry_behind (total : Nat) (m : Bitmap) (e : MemmapEntry) {j : Nat} (hj : total ≤ j) :
    (clearEntry total m e).bit j = m.bit j := by
  unfold clearEntry
  split
  · rfl
  · have hempty : ∀ i n, ¬ (i ≤ j ∧ j < i + n ∧ j < total) := by omega
    rw [clearPages_bit, decide_eq_false (hempty _ _), Bool.not_false, Bool.and_true]

theorem clearEntries_behind (total : Nat) (memmap : List MemmapEntry) (m : Bitmap) {j : Nat} (hj : total ≤ j) :
    (memmap.foldl (clearEntry total) m).bit j = m.bit j := by
  induction memmap generalizing m with
  | nil => rfl
  | cons e memmap ih => rw [List.foldl_cons, ih, clearEntry_behind total m e hj]

theorem pmmReserve_mono (s : Memory) (base size : BitVec 64) {j : Nat} (h : s.bitmap.bit j = true) :
    (pmmReserve s base size).bitmap.bit j = true := by
  unfold pmmReserve
  split
  · exact h
  · rw [(reservePages_bit _ _ s j).1, h, Bool.true_or]

theorem pmmInit_behind {addr : BitVec 64} {bi : BootInfo} {s : Memory} (h : pmmInit addr bi = some s) {j : Nat}
    (hj : s.total ≤ j) : s.bitmap.bit j = true := by
  have htotal : s.total = pagesTotal bi.memmap := by
    obtain ⟨s₁, hs₁, rfl⟩ := pmmInit_eq h
    exact (pmmReserve_total s₁ 0 _).trans hs₁
  rw [htotal] at hj
  have hmap : (bi.memmap.foldl (clearEntry (pagesTotal bi.memmap)) fun _ => BitVec.allOnes 64).bit j = true := by
    rw [clearEntries_behind _ _ _ hj, Bitmap.bit_eq, BitVec.getLsbD_allOnes]
    exact decide_eq_true (Bitmap.place_lt j)
  obtain ⟨haddr, hmagic⟩ := pmmInit_boots h
  unfold pmmInit at h
  rw [if_neg (not_or.mpr ⟨haddr, not_not.mpr hmagic⟩)] at h
  obtain rfl := Option.some.inj h
  dsimp only
  refine pmmReserve_mono _ _ _ (pmmReserve_mono _ _ _ ?_)
  split_ifs
  · exact pmmReserve_mono _ _ _ (pmmReserve_mono _ _ _ hmap)
  · exact pmmReserve_mono _ _ _ hmap
  · exact pmmReserve_mono _ _ _ hmap
  · exact hmap

theorem growHeap_mono {pmm : Pmm} {f : Nat} (h : pmm.used f = true) : (growHeap pmm).used f = true := by
  unfold growHeap Paging.pmmAlloc
  split
  · exact h
  · split
    · simp [h]
    · exact h

theorem growHeap_total (pmm : Pmm) : (growHeap pmm).total = pmm.total := by
  unfold growHeap Paging.pmmAlloc
  split
  · rfl
  · split <;> rfl

theorem growHeap_doubled (pmm : Pmm) : (growHeap pmm).doubled = pmm.doubled := by
  unfold growHeap Paging.pmmAlloc
  split
  · rfl
  · split <;> rfl

section

variable (t : Pages) (s : Memory) (tables : Nat → Nat → BitVec 64) (bytes : Nat → BitVec 8) (chunks : Nat)
  (blocks : List Nat)

theorem started_used {f : Nat} (h : s.bitmap.bit f = true) :
    (started t s tables bytes chunks blocks).vm.pmm.used f = true := by
  change (growHeap^[chunks] s.pmm).used f = true
  induction chunks with
  | zero => exact h
  | succ n ih =>
    rw [Function.iterate_succ_apply']
    exact growHeap_mono ih

theorem started_total : (started t s tables bytes chunks blocks).vm.pmm.total = s.total := by
  change (growHeap^[chunks] s.pmm).total = s.total
  induction chunks with
  | zero => rfl
  | succ n ih => rw [Function.iterate_succ_apply', growHeap_total, ih]

theorem started_doubled : (started t s tables bytes chunks blocks).vm.pmm.doubled = false := by
  change (growHeap^[chunks] s.pmm).doubled = false
  induction chunks with
  | zero => rfl
  | succ n ih => rw [Function.iterate_succ_apply', growHeap_doubled, ih]

end

/-! ## The tables of the kernel -/

theorem next_tableEntry {page : Nat} (h : page < 2 ^ 40) (d : Nat) : next d (tableEntry page) = some page := by
  have hmmio : mmio (3 : BitVec 64) = false := by decide
  rw [tableEntry_eq h, next, present_entry, large_entry, mmio_entry, pfn_entry h (by decide), hmmio]
  simp [present, large]

theorem next_leafEntry (base : BitVec 64) (d : Nat) : next d (leafEntry base) = none := by
  simp [next, leafEntry, large]

theorem built_entry {t : Pages} (h : t.list.Nodup) (kphys img2mb : BitVec 64) (m : Nat → Nat → BitVec 64) {f : Nat}
    (hf : f ∈ t.list) {i : Nat} (hi : i < 512) : buildTables t kphys img2mb m f i = 0 ∨
      (∃ base, buildTables t kphys img2mb m f i = leafEntry base) ∨
        ∃ x ∈ t.list, buildTables t kphys img2mb m f i = tableEntry x := by
  have hdirectory : ∀ n < 4, ∃ base, buildTables t kphys img2mb m (t.pdId n) i = leafEntry base :=
    fun n hn => ⟨_, (pdId_at h kphys img2mb m i hn hi).2⟩
  have hmem := hf
  simp only [Pages.list, List.mem_cons, List.not_mem_nil, or_false] at hmem
  rcases hmem with rfl | rfl | rfl | rfl | rfl | rfl | rfl | rfl
  · rw [pml4_at h]
    split_ifs
    · exact .inr (.inr ⟨t.pdptHh, by simp [Pages.list], rfl⟩)
    · exact .inr (.inr ⟨t.pdptId, by simp [Pages.list], rfl⟩)
    · exact .inl rfl
  · rw [pdptId_at h]
    split_ifs
    · exact .inr (.inr ⟨t.pdId0, by simp [Pages.list], rfl⟩)
    · exact .inr (.inr ⟨t.pdId1, by simp [Pages.list], rfl⟩)
    · exact .inr (.inr ⟨t.pdId2, by simp [Pages.list], rfl⟩)
    · exact .inr (.inr ⟨t.pdId3, by simp [Pages.list], rfl⟩)
    · exact .inl rfl
  · exact .inr (.inl (hdirectory 0 (by decide)))
  · exact .inr (.inl (hdirectory 1 (by decide)))
  · exact .inr (.inl (hdirectory 2 (by decide)))
  · exact .inr (.inl (hdirectory 3 (by decide)))
  · rw [pdptHh_at h]
    split_ifs
    · exact .inr (.inr ⟨t.pdHh, by simp [Pages.list], rfl⟩)
    · exact .inl rfl
  · rw [pdHh_at h]
    split_ifs
    · exact .inr (.inl ⟨_, rfl⟩)
    · exact .inl rfl

theorem built_follow {t : Pages} (ht : t.Placed) (kphys img2mb : BitVec 64) (m : Nat → Nat → BitVec 64)
    {path : List Nat}
    (hpath : ∀ i ∈ path, i < 512) {d f c : Nat} (hf : f ∈ t.list)
    (hc : Radix.follow next (buildTables t kphys img2mb m) d f path = some c) : c ∈ t.list := by
  induction path generalizing d f with
  | nil => exact Option.some.inj hc ▸ hf
  | cons i path ih =>
    rw [List.forall_mem_cons] at hpath
    obtain ⟨x, hx, hrest⟩ := Option.bind_eq_some_iff.mp hc
    refine ih hpath.2 ?_ hrest
    rcases built_entry ht.nodup kphys img2mb m hf hpath.1 with hzero | ⟨base, hleaf⟩ | ⟨y, hy, htable⟩
    · rw [hzero, next_absent present_zero] at hx
      cases hx
    · rw [hleaf, next_leafEntry] at hx
      cases hx
    · rw [htable, next_tableEntry (ht.bound y hy)] at hx
      exact Option.some.inj hx ▸ hy

section

variable {ds : List Descriptor} (hs : Sane ds) {gop : Option Mode} {k : Loaded} {t : Pages} (ht : t.Placed)
  (htables : ∀ f ∈ t.list, Described ds f) {addr : BitVec 64}
include hs htables

theorem tables_used {s : Memory} (hinit : pmmInit addr (bootInfo gop ds k) = some s) {f : Nat} (hf : f ∈ t.list) :
    s.bitmap.bit f = true := by
  by_cases hmanaged : f < s.total
  · have hnot := described_used hs hinit (htables f hf)
    rw [Memory.Free, not_and] at hnot
    simpa using hnot hmanaged
  · exact pmmInit_behind hinit (Nat.le_of_not_lt hmanaged)

include ht

theorem started_booted {s : Memory} (hinit : pmmInit addr (bootInfo gop ds k) = some s) (m : Nat → Nat → BitVec 64)
    (bytes : Nat → BitVec 8) (chunks : Nat) (blocks : List Nat) :
    let start := started t s (buildTables t k.kphys k.extent.img2mb m) bytes chunks blocks
    Booted t.pml4 (fun f => start.vm.pmm.used f = true) blocks start ∧ Reserved t.pml4 start.vm := by
  have hkept := Kept.boot hinit
  have htotal := hkept.bounded
  unfold pmmBitmapSize at htotal
  refine ⟨⟨⟨?_, ?_, ?_, ?_⟩, fun _ => Iff.rfl, fun _ => rfl, rfl, ⟨rfl, rfl⟩, ⟨?_, rfl, rfl⟩⟩, ?_⟩
  · rw [started_total]
    omega
  · exact started_used t s _ bytes chunks blocks hkept.nullPage
  · exact started_used t s _ bytes chunks blocks (tables_used hs htables hinit (by simp [Pages.list]))
  · have hentry := pml4_at ht.nodup k.kphys k.extent.img2mb m (idxL4 userVaddrBase)
    rw [if_neg (by decide), if_neg (by decide)] at hentry
    exact (congrArg present hentry).trans present_zero
  · exact started_doubled t s _ bytes chunks blocks
  · rintro f ⟨path, -, hlt, hfollow⟩
    have hmem := built_follow ht k.kphys k.extent.img2mb m hlt (by simp [Pages.list]) hfollow
    exact started_used t s _ bytes chunks blocks (tables_used hs htables hinit hmem)

/-- The runs of the processes begin with what the loader leaves behind. -/
theorem boot_hands_over (haddr : addr ≠ 0) (m : Nat → Nat → BitVec 64) (bytes : Nat → BitVec 8) :
    ∃ s, pmmInit addr (bootInfo gop ds k) = some s ∧
      (∀ f, s.Free f → ∀ x, InPage f x → ∃ d ∈ ds, d.type = efiConventionalMemory ∧ d.Holds x) ∧
      (∀ f < s.total, ∀ o < 4096,
        translate (buildTables t k.kphys k.extent.img2mb m) t.pml4 (BitVec.ofNat 64 (f * 4096 + o)) =
          some ⟨f * 4096 + o, true, false⟩) ∧
      ∀ chunks blocks,
        let start := started t s (buildTables t k.kphys k.extent.img2mb m) bytes chunks blocks
        Booted t.pml4 (fun f => start.vm.pmm.used f = true) blocks start ∧ Reserved t.pml4 start.vm := by
  obtain ⟨s, hinit, -⟩ := pmmInit_free (show Boots addr (bootInfo gop ds k) from ⟨haddr, rfl⟩)
  have htotal := (Kept.boot hinit).bounded
  unfold pmmBitmapSize at htotal
  refine ⟨s, hinit, fun f hf x hx => free_conventional hs hinit hf hx, fun f hf o ho => ?_,
    started_booted hs ht htables hinit m bytes⟩
  have hlow : (BitVec.ofNat 64 (f * 4096 + o)).toNat = f * 4096 + o := Nat.mod_eq_of_lt (by omega)
  rw [walk_identity ht m (by omega), hlow]

end

/-- The loader's pages, and 32 pages of memory. -/
def smallMap : List Descriptor := [⟨2, 0x10000, 8⟩, ⟨efiConventionalMemory, 0x20000, 0x20⟩]

theorem smallMap_sane : Sane smallMap := by
  refine ⟨by decide, ?_⟩
  intro d hd d' hd' x hx hx'
  simp only [smallMap, List.mem_cons, List.not_mem_nil, or_false] at hd hd'
  unfold Descriptor.Holds at hx hx'
  rcases hd with rfl | rfl <;> rcases hd' with rfl | rfl
  · rfl
  · exact absurd (hx'.1.trans_lt hx.2) (by decide)
  · exact absurd (hx.1.trans_lt hx'.2) (by decide)
  · rfl

def smallLoaded : Loaded := ⟨0xffffffff80000000, ⟨0xffffffff80000000, 0xffffffff80001008⟩, 0x200000, fun _ => 0⟩

theorem lowPages_described : ∀ f ∈ lowPages.list, Described smallMap f := by
  intro f hf
  refine ⟨⟨2, 0x10000, 8⟩, by simp [smallMap], by decide, ?_⟩
  simp only [Pages.list, lowPages, List.mem_cons, List.not_mem_nil, or_false] at hf
  rcases hf with rfl | rfl | rfl | rfl | rfl | rfl | rfl | rfl <;> exact ⟨by decide, by decide⟩

theorem boot_hands_over_small : ∃ s, pmmInit 0x18000 (bootInfo none smallMap smallLoaded) = some s ∧
    (∀ f, s.Free f → ∀ x, InPage f x → ∃ d ∈ smallMap, d.type = efiConventionalMemory ∧ d.Holds x) ∧
    (∀ f < s.total, ∀ o < 4096,
      translate (buildTables lowPages 0x200000 smallLoaded.extent.img2mb fun _ _ => 0) 16
        (BitVec.ofNat 64 (f * 4096 + o)) =
        some ⟨f * 4096 + o, true, false⟩) ∧
    ∀ chunks blocks,
      let start := started lowPages s (buildTables lowPages 0x200000 smallLoaded.extent.img2mb fun _ _ => 0)
        (fun _ => 0)
        chunks blocks
      Booted 16 (fun f => start.vm.pmm.used f = true) blocks start ∧ Reserved 16 start.vm :=
  boot_hands_over smallMap_sane lowPages_placed lowPages_described (by decide) _ _

/-! ## The kernel in every address space -/

theorem next_of_bits {d : Nat} (hd : d < 3) {w : BitVec 64} (hp : present w = true) (hl : ¬ large w = true) :
    next d w = some (pfn w) := by
  have hne : d ≠ 3 := by omega
  simp [next, hp, hl, hne]

theorem translate_congr {m m' : Vm} {root root' : Nat} {v : BitVec 64}
    (hfirst : m'.tables root' (idxL4 v) = m.tables root (idxL4 v))
    (h : ∀ f, Reaches m root f → ∀ i, m'.tables f i = m.tables f i) :
    translate m'.tables root' v = translate m.tables root v := by
  have h4lt := idxL4_lt v
  have h3lt := idxL3_lt v
  have h2lt := idxL2_lt v
  unfold translate
  dsimp only
  rw [hfirst]
  by_cases h4 : (!canonical v || !present (m.tables root (idxL4 v)) || large (m.tables root (idxL4 v))) = true
  · rw [if_pos h4, if_pos h4]
  rw [if_neg h4, if_neg h4]
  simp only [Bool.or_eq_true, Bool.not_eq_true', not_or, Bool.not_eq_false] at h4
  obtain ⟨⟨-, hp4⟩, hl4⟩ := h4
  have hnext4 := next_of_bits (d := 0) (by decide) hp4 hl4
  have hreach3 : Reaches m root (pfn (m.tables root (idxL4 v))) :=
    ⟨[idxL4 v], by simp, by simpa using h4lt, by simp [Radix.follow, hnext4]⟩
  rw [h _ hreach3]
  by_cases hp3 : present (m.tables (pfn (m.tables root (idxL4 v))) (idxL3 v)) = true
  swap
  · simp [hp3]
  by_cases hl3 : large (m.tables (pfn (m.tables root (idxL4 v))) (idxL3 v)) = true
  · simp [hl3]
  have hnext3 := next_of_bits (d := 1) (by decide) hp3 hl3
  have hreach2 : Reaches m root (pfn (m.tables (pfn (m.tables root (idxL4 v))) (idxL3 v))) :=
    ⟨[idxL4 v, idxL3 v], by simp, by simp [h4lt, h3lt], by simp [Radix.follow, hnext4, hnext3]⟩
  rw [h _ hreach2]
  by_cases hp2 : present (m.tables (pfn (m.tables (pfn (m.tables root (idxL4 v))) (idxL3 v))) (idxL2 v)) = true
  swap
  · simp [hp2]
  by_cases hl2 : large (m.tables (pfn (m.tables (pfn (m.tables root (idxL4 v))) (idxL3 v))) (idxL2 v)) = true
  · simp [hl2]
  have hnext2 := next_of_bits (d := 2) (by decide) hp2 hl2
  have hreach1 : Reaches m root (pfn (m.tables (pfn (m.tables (pfn (m.tables root (idxL4 v))) (idxL3 v))) (idxL2 v))) :=
    ⟨[idxL4 v, idxL3 v, idxL2 v], by simp, by simp [h4lt, h3lt, h2lt], by simp [Radix.follow, hnext4, hnext3, hnext2]⟩
  rw [h _ hreach1]

section

variable {kernel : Nat} {boot : Nat → Prop} {others : List Nat} {s₀ s : Sys} {ops : List Op}
  (hboot : Proc.Memory.Booted kernel boot others s₀) (hreserved : Reserved kernel s₀.vm)
  (hrun : Run (Guarded (Contained (kernelSlots kernel s₀.vm) kernel) (Step kernel)) s₀ ops s) {v : BitVec 64}
include hboot hreserved hrun

theorem kernel_kept {f : Nat} (hf : Reaches s₀.vm kernel f) (i : Nat) : s.vm.tables f i = s₀.vm.tables f i :=
  (spaces_run hboot hreserved hrun).kept f (hreserved f hf) i

theorem process_translates {i : Nat} (hi : (s.procs i).present = true)
    (hslot : kernelSlots kernel s₀.vm (idxL4 v) = true) :
    translate s.vm.tables (s.procs i).cr3 v = translate s₀.vm.tables kernel v := by
  obtain ⟨base, hrooted, -⟩ := (spaces_run hboot hreserved hrun).rooted
  refine translate_congr ?_ fun f hf => kernel_kept hboot hreserved hrun hf
  rw [hrooted.space.shared i _ (roots_some hi) _ (idxL4_lt v) hslot,
    kernel_kept hboot hreserved hrun ⟨[], by decide, by simp, rfl⟩]

theorem active_translates (hslot : kernelSlots kernel s₀.vm (idxL4 v) = true) :
    translate s.vm.tables s.active v = translate s₀.vm.tables kernel v := by
  obtain ⟨base, hrooted, -⟩ := (spaces_run hboot hreserved hrun).rooted
  cases hrunning : s.running with
  | false =>
    rw [hrooted.idle hrunning]
    refine translate_congr ?_ fun f hf => kernel_kept hboot hreserved hrun hf
    exact kernel_kept hboot hreserved hrun ⟨[], by decide, by simp, rfl⟩ _
  | true =>
    obtain ⟨⟨-, hpresent, -⟩, hcr3⟩ := hrooted.current hrunning
    rw [← hcr3, process_translates hboot hreserved hrun hpresent hslot]

end

theorem mapped_slot {t : Pages} (ht : t.Placed) {kphys img2mb v : BitVec 64} (m : Nat → Nat → BitVec 64) {x : Nat}
    (hv : mapped kphys img2mb v = some x) : present (buildTables t kphys img2mb m t.pml4 (idxL4 v)) = true := by
  have hlt := v.isLt
  have htable : ∀ c ∈ t.list, present (tableEntry c) = true := fun c hc => (tableEntry_bits (ht.bound c hc)).1
  rw [pml4_at ht.nodup, idxL4, idx_eq]
  unfold mapped kernelVirt at hv
  split_ifs at hv with hlow hhigh
  · rw [if_neg (by omega), if_pos (by omega)]
    exact htable _ (by simp [Pages.list])
  · rw [if_pos (by omega)]
    exact htable _ (by simp [Pages.list])

/-- Whatever the processes do, the kernel runs in an address space where its memory is where the loader has
mapped it. -/
theorem kernel_stays_mapped {ds : List Descriptor} (hs : Sane ds) {gop : Option Mode} {k : Loaded} {t : Pages}
    (ht : t.Placed) (htables : ∀ f ∈ t.list, Described ds f) {addr : BitVec 64} {mem : Memory}
    (hinit : pmmInit addr (bootInfo gop ds k) = some mem) (hfits : Fits k.kphys k.extent.img2mb)
    {m : Nat → Nat → BitVec 64} {start s : Sys} {bytes : Nat → BitVec 8} {chunks : Nat} {blocks : List Nat}
    {ops : List Op}
    (hstart : start = started t mem (buildTables t k.kphys k.extent.img2mb m) bytes chunks blocks)
    (hrun : Run (Guarded (Contained (kernelSlots t.pml4 start.vm) t.pml4) (Step t.pml4)) start ops s) {v : BitVec 64}
    {x : Nat} (hv : mapped k.kphys k.extent.img2mb v = some x) :
    translate s.vm.tables s.active v = some ⟨x, true, false⟩ := by
  subst hstart
  obtain ⟨hboot, hreserved⟩ := started_booted hs ht htables hinit m bytes chunks blocks
  rw [active_translates hboot hreserved hrun (mapped_slot ht m hv)]
  change translate (buildTables t k.kphys k.extent.img2mb m) t.pml4 v = _
  unfold mapped at hv
  split_ifs at hv with hlow hhigh
  · rw [walk_identity ht m hlow, Option.some.inj hv]
  · rw [walk_kernel ht m hfits hhigh.1 hhigh.2, Option.some.inj hv]

/-- A machine where the loader has just ended. -/
def smallMemory : Memory := (pmmInit 0x18000 (bootInfo none smallMap smallLoaded)).getD ⟨fun _ => 0, 0, 0⟩

def smallStart : Sys :=
  started lowPages smallMemory (buildTables lowPages 0x200000 smallLoaded.extent.img2mb fun _ _ => 0) (fun _ => 0) 0 []

theorem smallMemory_init : pmmInit 0x18000 (bootInfo none smallMap smallLoaded) = some smallMemory := by
  obtain ⟨mem, hinit, -⟩ := pmmInit_free (show Boots 0x18000 (bootInfo none smallMap smallLoaded) from ⟨by decide, rfl⟩)
  rw [smallMemory, hinit]
  rfl

/-- A process that runs. -/
def smallOps : List Op :=
  [.createUserRegions (some 0x100020) (fun _ => 0) [⟨0x200000000000, 0, 0, 0x1000, 1⟩] (fun _ => 0), .start 0]

def smallUser : Sys := smallOps.foldl (apply 16) smallStart

theorem smallUser_run :
    Run (Guarded (Contained (kernelSlots 16 smallStart.vm) 16) (Step 16)) smallStart smallOps smallUser := by
  refine Run.of_admits_guarded ⟨⟨fun _ => ⟨?_, ?_⟩, ?_⟩, ⟨trivial, ?_⟩, trivial⟩
  · unfold Own
    decide +kernel
  · decide +kernel
  · decide +kernel
  · decide +kernel

/-- The process gives way to another one. -/
def smallSwitch : List Op := [.createArgv (some 0x200020), .switch 1]

def smallSecond : Sys := smallSwitch.foldl (apply 16) smallUser

theorem smallSecond_run :
    Run (Guarded (Contained (kernelSlots 16 smallStart.vm) 16) (Step 16)) smallStart
      (smallOps ++ smallSwitch) smallSecond := by
  have hmade : Contained (kernelSlots 16 smallStart.vm) 16 smallUser (.createArgv (some 0x200020)) :=
    show Purpose.pml4 ∉ refusals smallUser (createArgv 16 (some 0x200020) smallUser).1 by decide +kernel
  exact smallUser_run.append
    (Run.of_admits_guarded ⟨⟨hmade, by decide +kernel⟩, ⟨trivial, by decide +kernel⟩, trivial⟩)

theorem smallFits : Fits smallLoaded.kphys smallLoaded.extent.img2mb := ⟨by decide, by decide +kernel⟩

theorem kernel_stays_mapped_small :
    translate smallSecond.vm.tables smallSecond.active 0xffffffff80001234 = some ⟨0x201234, true, false⟩ := by
  have hv : mapped smallLoaded.kphys smallLoaded.extent.img2mb 0xffffffff80001234 = some 0x201234 := by decide +kernel
  exact kernel_stays_mapped smallMap_sane lowPages_placed lowPages_described smallMemory_init smallFits rfl
    smallSecond_run hv

end Siathos.Boot
