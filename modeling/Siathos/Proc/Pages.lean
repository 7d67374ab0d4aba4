import Mathlib.Data.List.TakeWhile
import Siathos.Paging.Pages
import Siathos.Proc.Memory

/-!
# Mapping the pages of a process

What `paging_map_user` does, page after page, to the tree of one process. Each page is mapped, or a page for one of its
tables is refused and its frame stays outside of the tree.
-/

open Lib Siathos.Paging

namespace Siathos.Proc.Memory

/-- An entry with these flags names the memory that it is given. -/
structure Plain (flags : BitVec 64) : Prop where
  present : present flags = true
  large : large flags = false
  mmio : mmio flags = false
  addr : flags &&& pteAddr = 0#64

theorem plain_code : Plain 0x5 := ⟨by decide, by decide, by decide, by decide⟩

theorem plain_data : Plain (0x7 ||| nx) := ⟨by decide, by decide, by decide, by decide⟩

theorem plain_readOnly : Plain (0x1 ||| nx) := ⟨by decide, by decide, by decide, by decide⟩

theorem Ureg.plain (r : Ureg) : Plain r.pageFlags := by
  unfold Ureg.pageFlags
  split
  · exact plain_code
  · split
    · exact plain_data
    · exact plain_readOnly

theorem Plain.named {flags : BitVec 64} (h : Plain flags) (c : Nat) :
    Paging.next 3 (entry (pageAddr c) flags) = some (pfn (entry (pageAddr c) flags)) := by
  rw [Paging.next, present_entry, large_entry, mmio_entry, h.present, h.large, h.mmio]
  simp

theorem Plain.next {flags : BitVec 64} (h : Plain flags) {c : Nat} (hc : c < 2 ^ 40) (d : Nat) :
    Paging.next d (entry (pageAddr c) flags) = some c := by
  rw [Paging.next, present_entry, large_entry, mmio_entry, h.present, h.large, h.mmio, pfn_entry hc h.addr]
  simp

section

variable {slots : Nat → Bool} {kernel : Nat} {roots : Nat → Option Nat} {base : Nat → Prop} {m : Vm} {k r : Nat}

/-- The pages `got` of the `n` from `v` on are mapped to those from `f` on. -/
structure MapsPages (slots : Nat → Bool) (kernel : Nat) (roots : Nat → Option Nat) (base : Nat → Prop) (k : Nat)
    (v : BitVec 64) (f : Nat) (flags : BitVec 64) (n : Nat) (got : Nat → Prop) (m m' : Vm) : Prop where
  frames : Frames slots roots k m m'
  lt : ∀ i, got i → i < n
  mapped : ∀ i, got i → pte roots m' k (page v i) = entry (pageAddr (f + i)) flags
  rest : ∀ k' u, slots (idxL4 u) = false → (∀ i, got i → k' = k → vpn u ≠ vpn (page v i)) →
    pte roots m' k' u = pte roots m k' u
  refused : ∃ l, m'.pmm.refused = l ++ m.pmm.refused ∧ (∀ x ∈ l, x = .table) ∧ (l = [] ↔ ∀ i < n, got i)
  missed : ∀ i < n, ¬ got i → pte roots m' k (page v i) = 0 ∧ Full m'.pmm
  space : Space slots kernel roots
    (fun g => (base g ∨ ∃ i, got i ∧ next 3 (pte roots m k (page v i)) = some g) ∧ ∀ i, got i → g ≠ f + i) m'

/-- The frames from `f` on are in use and in no tree. -/
structure Granted (kernel : Nat) (base : Nat → Prop) (m : Vm) (f n : Nat) : Prop where
  base : ∀ i < n, base (f + i)
  other : ∀ i < n, f + i ≠ kernel ∧ f + i ≠ 0
  lt : ∀ i < n, f + i < m.pmm.total

theorem mapPages_succ (pml4 : Nat) (v : BitVec 64) (f : Nat) (flags : BitVec 64) (n : Nat) (m : Vm) :
    mapPages pml4 v f flags (n + 1) m =
      (mapUser pml4 (page v n) (pageAddr (f + n)) flags (mapPages pml4 v f flags n m)).1 := by
  rw [mapPages, List.range_succ, List.foldl_append]
  rfl

theorem MapsPages.none (h : Space slots kernel roots base m) {v flags : BitVec 64} {f : Nat} :
    MapsPages slots kernel roots base k v f flags 0 (fun _ => False) m m := by
  refine ⟨Frames.refl k m, fun i hi => hi.elim, fun i hi => hi.elim, fun _ _ _ _ => rfl, ⟨[], rfl, by simp, by simp⟩,
    by simp, h.base_congr fun g => ?_⟩
  simp

theorem full_mono {m' : Vm} (h : Full m.pmm) (htotal : m'.pmm.total = m.pmm.total)
    (hmono : ∀ f, m.pmm.used f = true → m'.pmm.used f = true) : Full m'.pmm :=
  fun f hf => hmono f (h f (htotal ▸ hf))

theorem MapsPages.refuse {m₁ m₂ : Vm} {v flags : BitVec 64} {f n : Nat} {got : Nat → Prop}
    (h : MapsPages slots kernel roots base k v f flags n got m m₁) (hslot : ∀ i < n, slots (idxL4 (page v i)) = false)
    (hext : Extends slots roots k m₁ m₂) (href : m₂.pmm.refused = .table :: m₁.pmm.refused)
    (hstarved : Starved roots k (page v n) m₂)
    (hspace : Space slots kernel roots
      (fun g => (base g ∨ ∃ i, got i ∧ next 3 (pte roots m k (page v i)) = some g) ∧ ∀ i, got i → g ≠ f + i) m₂) :
    MapsPages slots kernel roots base k v f flags (n + 1) got m m₂ := by
  obtain ⟨l, hl, htable, hall⟩ := h.refused
  refine ⟨h.frames.trans hext.toFrames, fun i hi => Nat.lt_succ_of_lt (h.lt i hi), fun i hi => ?_,
    fun k' u hu hno => ?_, ⟨.table :: l, ?_, ?_, ?_⟩, fun i hi hno => ?_, hspace⟩
  · rw [hext.pte k (hslot i (h.lt i hi))]
    exact h.mapped i hi
  · rw [hext.pte k' hu]
    exact h.rest k' u hu hno
  · rw [href, hl]
    rfl
  · simpa using htable
  · refine iff_of_false (by simp) fun hgot => ?_
    have := h.lt n (hgot n (by omega))
    omega
  · refine ⟨?_, hstarved.full⟩
    rcases Nat.lt_succ_iff_lt_or_eq.mp hi with hi | rfl
    · rw [hext.pte k (hslot i hi)]
      exact (h.missed i hi hno).1
    · exact hstarved.absent

theorem MapsPages.snoc {m₁ m₂ : Vm} {v flags : BitVec 64} {f n : Nat} {got : Nat → Prop}
    (h : MapsPages slots kernel roots base k v f flags n got m m₁) (hv : v &&& 0xFFF = 0) (hn : n < 2 ^ 36)
    (hslot : ∀ i < n + 1, slots (idxL4 (page v i)) = false)
    (hold : ∀ i < n, next 3 (pte roots m k (page v n)) ≠ some (f + i))
    (hmaps : Maps slots roots k (tablePath (page v n)) (idxL1 (page v n)) (entry (pageAddr (f + n)) flags) m₁ m₂)
    (href : m₂.pmm.refused = m₁.pmm.refused)
    (hspace : Space slots kernel roots
      (fun g => (((base g ∨ ∃ i, got i ∧ next 3 (pte roots m k (page v i)) = some g) ∧ ∀ i, got i → g ≠ f + i) ∨
        next 3 (pte roots m₁ k (page v n)) = some g) ∧ g ≠ f + n) m₂) :
    MapsPages slots kernel roots base k v f flags (n + 1) (fun i => got i ∨ i = n) m m₂ := by
  have hlast := hslot n (Nat.lt_succ_self n)
  have hnew : ∀ i, got i → vpn (page v n) ≠ vpn (page v i) := by
    intro i hi heq
    have := h.lt i hi
    have := vpn_page_inj hv (by omega) (by omega) heq
    omega
  obtain ⟨l, hl, htable, hall⟩ := h.refused
  refine ⟨h.frames.trans hmaps.toFrames, ?_, ?_, fun k' u hu hno => ?_, ⟨l, ?_, htable, ?_⟩, fun i hi hno => ?_,
    hspace.base_congr fun g => ?_⟩
  · rintro i (hi | rfl)
    · exact Nat.lt_succ_of_lt (h.lt i hi)
    · exact Nat.lt_succ_self i
  · rintro i (hi | rfl)
    · rw [hmaps.pte k (hslot i (Nat.lt_succ_of_lt (h.lt i hi))), if_neg]
      · exact h.mapped i hi
      · rintro ⟨-, heq⟩
        exact hnew i hi heq.symm
    · rw [hmaps.pte k hlast, if_pos ⟨rfl, rfl⟩]
  · rw [hmaps.pte k' hu, if_neg]
    · exact h.rest k' u hu fun i hi => hno i (.inl hi)
    · rintro ⟨hk, heq⟩
      exact hno n (.inr rfl) hk heq
  · rw [href, hl]
  · rw [hall]
    constructor
    · intro hgot i hi
      rcases Nat.lt_succ_iff_lt_or_eq.mp hi with hi | rfl
      · exact .inl (hgot i hi)
      · exact .inr rfl
    · intro hgot i hi
      exact (hgot i (by omega)).resolve_right (by omega)
  · rw [not_or] at hno
    have hlt : i < n := by omega
    obtain ⟨habsent, hfull⟩ := h.missed i hlt hno.1
    refine ⟨?_, full_mono hfull hmaps.total hmaps.mono⟩
    rw [hmaps.pte k (hslot i hi), if_neg, habsent]
    rintro ⟨-, heq⟩
    have := vpn_page_inj hv (by omega) (by omega) heq
    omega
  · rw [h.rest k _ hlast fun i hi _ => hnew i hi]
    constructor
    · rintro ⟨hb | ⟨i, hi | rfl, hi'⟩, hne⟩
      · exact ⟨.inl ⟨.inl hb, fun i hi => hne i (.inl hi)⟩, hne n (.inr rfl)⟩
      · exact ⟨.inl ⟨.inr ⟨i, hi, hi'⟩, fun i hi => hne i (.inl hi)⟩, hne n (.inr rfl)⟩
      · exact ⟨.inr hi', hne i (.inr rfl)⟩
    · rintro ⟨⟨hb, hne⟩ | hfrom, hn'⟩
      · refine ⟨hb.imp_right fun ⟨i, hi, hi'⟩ => ⟨i, .inl hi, hi'⟩, ?_⟩
        rintro i (hi | rfl)
        · exact hne i hi
        · exact hn'
      · refine ⟨.inr ⟨n, .inr rfl, hfrom⟩, ?_⟩
        rintro i (hi | rfl)
        · rintro rfl
          exact hold i (h.lt i hi) hfrom
        · exact hn'

theorem mapPages_spec (h : Space slots kernel roots base m) (hr : roots k = some r) {v : BitVec 64}
    (hv : v &&& 0xFFF = 0)
    {f n : Nat} {flags : BitVec 64} (hflags : Plain flags) (hslot : ∀ i < n, slots (idxL4 (page v i)) = false)
    (hg : Granted kernel base m f n) :
    ∃ got, MapsPages slots kernel roots base k v f flags n got m (mapPages r v f flags n m) := by
  induction n with
  | zero => exact ⟨fun _ => False, MapsPages.none h⟩
  | succ n ih =>
    obtain ⟨got, ih⟩ := ih (fun i hi => hslot i (by omega))
      ⟨fun i hi => hg.base i (by omega), fun i hi => hg.other i (by omega), fun i hi => hg.lt i (by omega)⟩
    rw [mapPages_succ]
    generalize mapPages r v f flags n m = m₁ at ih ⊢
    have hn := hslot n (by omega)
    have htotal := h.total
    have hlt := hg.lt n (by omega)
    have hc : f + n < m₁.pmm.total := by rwa [ih.frames.total]
    have hsame : ∀ i, got i → f + n ≠ f + i := by
      intro i hi
      have := ih.lt i hi
      omega
    have hother := hg.other n (by omega)
    rcases mapUser_page ih.space hr hn (page_aligned hv n) (hflags.next (ih.space.small hc) 3)
      ⟨.inl (hg.base n (by omega)), hsame⟩ hother.1 hother.2 hc with
      ⟨m₂, heq, hspace, hext, href, hstarved⟩ | ⟨m₂, heq, hspace, hmaps, href⟩
    · rw [heq]
      exact ⟨got, ih.refuse (fun i hi => hslot i (Nat.lt_succ_of_lt hi)) hext href hstarved hspace⟩
    · rw [heq]
      refine ⟨fun i => got i ∨ i = n, ih.snoc hv (by omega) hslot (fun i hi hfrom => ?_) hmaps href hspace⟩
      -- what the page named before is in the tree, and not yet granted
      exact h.apart _ (hg.base i (Nat.lt_succ_of_lt hi)) k _ (own_tablePath hn) ((seat_page roots m k _).trans hfrom)

/-! ## Regions -/

theorem Space.bytes (h : Space slots kernel roots base m) {m' : Vm} (hp : m'.pmm = m.pmm) (ht : m'.tables = m.tables) :
    Space slots kernel roots base m' := by
  obtain ⟨pmm, tables, bytes⟩ := m
  obtain ⟨pmm', tables', bytes'⟩ := m'
  obtain rfl : pmm' = pmm := hp
  obtain rfl : tables' = tables := ht
  exact ⟨h.total, h.null, h.used, h.apart, h.unshared, h.inRange, h.kernelHeld, h.kernelSlots, h.shared, h.inner⟩

/-- The pages that `pmm_alloc` gives may be mapped. -/
theorem granted_of_takes {pmm' : Pmm} {f n : Nat} (h : Space slots kernel roots base m) (ht : Takes m.pmm pmm' f n) :
    Granted kernel (fun j => base j ∨ (f ≤ j ∧ j < f + n)) { m with pmm := pmm' } f n where
  base i hi := .inr ⟨by omega, by omega⟩
  other i hi := by
    have hfree := (ht.free (f + i) (by omega) (by omega)).1
    constructor
    · intro heq
      rw [heq, (h.used kernel).mpr (.inl h.kernelHeld)] at hfree
      cases hfree
    · intro heq
      rw [heq, (h.used 0).mpr (.inl h.null)] at hfree
      cases hfree
  lt i hi := by
    change f + i < pmm'.total
    rw [ht.total]
    exact (ht.free (f + i) (by omega) (by omega)).2

/-- The number of its pages. -/
def pagesOf (g : Region) : Nat := g.size.toNat / 0x1000

def Has (g : Region) (u : BitVec 64) : Prop := ∃ i < pagesOf g, vpn u = vpn (page g.base i)

def Covers (umap : List Region) (u : BitVec 64) : Prop := ∃ g ∈ umap, Has g u

/-- No page belongs to two regions. -/
def Disjoint (umap : List Region) : Prop := umap.Pairwise fun g g' => ∀ u, Has g u → ¬ Has g' u

/-- The regions lie in slots of the PML4 that the kernel does not use. -/
def Own (slots : Nat → Bool) (umap : List Region) : Prop :=
  ∀ g ∈ umap, ∀ i < pagesOf g, slots (idxL4 (page g.base i)) = false

/-- The `n` pages from `v` on. -/
def region (v : BitVec 64) (n : Nat) : Region := ⟨v, BitVec.ofNat 64 (n * 0x1000)⟩

theorem pagesOf_region {n : Nat} (h : n < 2 ^ 52) (v : BitVec 64) : pagesOf (region v n) = n := by
  rw [pagesOf, region, BitVec.toNat_ofNat]
  omega

theorem covers_append {umap umap' : List Region} {u : BitVec 64} :
    Covers (umap ++ umap') u ↔ Covers umap u ∨ Covers umap' u := by
  simp only [Covers, List.mem_append, or_and_right, exists_or]

theorem covers_single {g : Region} {u : BitVec 64} : Covers [g] u ↔ Has g u := by simp [Covers]

theorem covers_region {v u : BitVec 64} {n : Nat} (h : n < 2 ^ 52) :
    Covers [region v n] u ↔ ∃ i < n, vpn u = vpn (page v i) := by
  rw [covers_single, Has, pagesOf_region h]
  rfl

theorem disjoint_append {umap umap' : List Region} : Disjoint (umap ++ umap') ↔
    Disjoint umap ∧ Disjoint umap' ∧ ∀ u, Covers umap u → ¬ Covers umap' u := by
  rw [Disjoint, List.pairwise_append]
  refine and_congr_right fun _ => and_congr_right fun _ => ⟨?_, fun h g hg g' hg' u hu hu' => ?_⟩
  · rintro h u ⟨g, hg, hu⟩ ⟨g', hg', hu'⟩
    exact h g hg g' hg' u hu hu'
  · exact h u ⟨g, hg, hu⟩ ⟨g', hg', hu'⟩

theorem own_append {umap umap' : List Region} : Own slots (umap ++ umap') ↔ Own slots umap ∧ Own slots umap' :=
  List.forall_mem_append

/-- The entry names a page of memory, with flags of these. -/
def Names (Flags : BitVec 64 → Prop) (w : BitVec 64) : Prop := ∃ c flags, Flags flags ∧ w = entry (pageAddr c) flags

theorem Names.mono {Flags Flags' : BitVec 64 → Prop} {w : BitVec 64} (h : Names Flags w)
    (hsub : ∀ flags, Flags flags → Flags' flags) : Names Flags' w := by
  obtain ⟨c, flags, hflags, heq⟩ := h
  exact ⟨c, flags, hsub flags hflags, heq⟩

theorem covers_slot {umap : List Region} (hown : Own slots umap) {u : BitVec 64} (h : Covers umap u) :
    slots (idxL4 u) = false := by
  obtain ⟨g, hg, i, hi, hsame⟩ := h
  rw [idxL4_eq, hsame, ← idxL4_eq]
  exact hown g hg i hi

/-- What mapping the regions of `umap` for the tree `k` does. `l` tells which requests were refused, and `Flags`
with what flags pages are mapped. -/
structure Loads (slots : Nat → Bool) (kernel : Nat) (roots : Nat → Option Nat) (k : Nat) (base base' : Nat → Prop)
    (l : List Purpose) (umap : List Region) (Flags : BitVec 64 → Prop) (m m' : Vm) : Prop where
  frames : Frames slots roots k m m'
  space : Space slots kernel roots base' m'
  mono : ∀ f, base f → base' f
  refused : m'.pmm.refused = l ++ m.pmm.refused
  rest : ∀ k' u, slots (idxL4 u) = false → (k' = k → ¬ Covers umap u) → pte roots m' k' u = pte roots m k' u
  plain : ∀ flags, Flags flags → Plain flags
  entries : ∀ u, slots (idxL4 u) = false → pte roots m' k u = pte roots m k u ∨ Names Flags (pte roots m' k u)
  mapped : .table ∉ l → ∀ u, slots (idxL4 u) = false → Covers umap u → Names Flags (pte roots m' k u)
  clean : .table ∉ l → Disjoint umap →
    (∀ u, slots (idxL4 u) = false → Covers umap u → next 3 (pte roots m k u) = none) → ∀ f, base' f ↔ base f
  lost : .table ∈ l → ∃ f, base' f ∧ ¬ base f
  missed : .table ∈ l → ∃ u, slots (idxL4 u) = false ∧ Covers umap u ∧ pte roots m' k u = 0
  full : .table ∈ l → Full m'.pmm
  taken : ∀ u, Covers umap u → ¬ Full m.pmm
  replaced : .table ∉ l → ∀ u, slots (idxL4 u) = false → Covers umap u → ∀ c, next 3 (pte roots m k u) = some c →
    base' c ∧ ¬ base c
  twice : .table ∉ l → Own slots umap → ¬ Disjoint umap → ∃ f, base' f ∧ ¬ base f

theorem Loads.refl (h : Space slots kernel roots base m) :
    Loads slots kernel roots k base base [] [] (fun _ => False) m m :=
  ⟨Frames.refl k m, h, fun _ h => h, rfl, fun _ _ _ _ => rfl, fun _ h => h.elim, fun _ _ => .inl rfl,
    fun _ _ _ h => by simp [Covers] at h, fun _ _ _ _ => Iff.rfl, by simp, by simp, by simp,
      fun _ h => by simp [Covers] at h,
    fun _ _ _ h => by simp [Covers] at h, fun _ _ h => absurd List.Pairwise.nil h⟩

theorem Loads.trans {base' base'' : Nat → Prop} {l l' : List Purpose} {umap umap' : List Region}
    {Flags Flags' : BitVec 64 → Prop} {m' m'' : Vm} (h : Loads slots kernel roots k base base' l umap Flags m m')
    (h' : Loads slots kernel roots k base' base'' l' umap' Flags' m' m'') :
    Loads slots kernel roots k base base'' (l' ++ l) (umap ++ umap')
      (fun flags => Flags flags ∨ Flags' flags) m m'' where
  frames := h.frames.trans h'.frames
  space := h'.space
  mono f hf := h'.mono f (h.mono f hf)
  refused := by rw [h'.refused, h.refused, List.append_assoc]
  rest k' u hu hno := by
    rw [h'.rest k' u hu fun hk ht => hno hk (covers_append.mpr (.inr ht)),
      h.rest k' u hu fun hk ht => hno hk (covers_append.mpr (.inl ht))]
  plain flags hflags := hflags.elim (h.plain flags) (h'.plain flags)
  entries u hu := by
    rcases h'.entries u hu with heq | hnames
    · rw [heq]
      exact (h.entries u hu).imp id fun hnames => hnames.mono fun _ => .inl
    · exact .inr (hnames.mono fun _ => .inr)
  mapped hl u hu ht := by
    rw [List.mem_append, not_or] at hl
    by_cases ht' : Covers umap' u
    · exact (h'.mapped hl.1 u hu ht').mono fun _ => .inr
    · rw [h'.rest k u hu fun _ => ht']
      exact (h.mapped hl.2 u hu ((covers_append.mp ht).resolve_right ht')).mono fun _ => .inl
  clean hl hd hvacant f := by
    rw [List.mem_append, not_or] at hl
    obtain ⟨hd₁, hd₂, hcross⟩ := disjoint_append.mp hd
    rw [h'.clean hl.1 hd₂ (fun u hu ht => ?_),
      h.clean hl.2 hd₁ fun u hu ht => hvacant u hu (covers_append.mpr (.inl ht))]
    rw [h.rest k u hu fun _ ht' => hcross u ht' ht]
    exact hvacant u hu (covers_append.mpr (.inr ht))
  lost hl := by
    rcases List.mem_append.mp hl with hl | hl
    · obtain ⟨f, hf, hno⟩ := h'.lost hl
      exact ⟨f, hf, fun hb => hno (h.mono f hb)⟩
    · obtain ⟨f, hf, hno⟩ := h.lost hl
      exact ⟨f, h'.mono f hf, hno⟩
  missed hl := by
    rcases List.mem_append.mp hl with hl | hl
    · obtain ⟨u, hu, ht, heq⟩ := h'.missed hl
      exact ⟨u, hu, covers_append.mpr (.inr ht), heq⟩
    · -- after a table was refused nothing more is taken
      obtain ⟨u, hu, ht, heq⟩ := h.missed hl
      exact ⟨u, hu, covers_append.mpr (.inl ht), (h'.rest k u hu fun _ ht' => h'.taken u ht' (h.full hl)).trans heq⟩
  full hl := by
    rcases List.mem_append.mp hl with hl | hl
    · exact h'.full hl
    · exact full_mono (h.full hl) h'.frames.total h'.frames.mono
  taken u ht hfull := by
    rcases covers_append.mp ht with ht | ht
    · exact h.taken u ht hfull
    · exact h'.taken u ht (full_mono hfull h.frames.total h.frames.mono)
  replaced hl u hu ht c hc := by
    rw [List.mem_append, not_or] at hl
    by_cases ht₁ : Covers umap u
    · obtain ⟨hb, hno⟩ := h.replaced hl.2 u hu ht₁ c hc
      exact ⟨h'.mono c hb, hno⟩
    · rw [← h.rest k u hu fun _ => ht₁] at hc
      obtain ⟨hb, hno⟩ := h'.replaced hl.1 u hu ((covers_append.mp ht).resolve_left ht₁) c hc
      exact ⟨hb, fun hbase => hno (h.mono c hbase)⟩
  twice hl hown hd := by
    rw [List.mem_append, not_or] at hl
    rw [own_append] at hown
    rw [disjoint_append] at hd
    by_cases hd₁ : Disjoint umap
    · by_cases hd₂ : Disjoint umap'
      · -- a page of both: the second mapping replaces the frame of the first
        obtain ⟨u, ht₁, ht₂⟩ : ∃ u, Covers umap u ∧ Covers umap' u := by
          by_contra hno
          exact hd ⟨hd₁, hd₂, fun u ht₁ ht₂ => hno ⟨u, ht₁, ht₂⟩⟩
        have hu := covers_slot hown.1 ht₁
        obtain ⟨c, flags, hflags, heq⟩ := h.mapped hl.2 u hu ht₁
        have hnext := (h.plain flags hflags).named c
        rw [← heq] at hnext
        obtain ⟨hb, hno⟩ := h'.replaced hl.1 u hu ht₂ _ hnext
        exact ⟨_, hb, fun hbase => hno (h.mono _ hbase)⟩
      · obtain ⟨f, hf, hno⟩ := h'.twice hl.1 hown.2 hd₂
        exact ⟨f, hf, fun hbase => hno (h.mono f hbase)⟩
    · obtain ⟨f, hf, hno⟩ := h.twice hl.2 hown.1 hd₁
      exact ⟨f, h'.mono f hf, hno⟩

theorem Loads.present {base' : Nat → Prop} {l : List Purpose} {umap : List Region} {Flags : BitVec 64 → Prop} {m' : Vm}
    (h : Loads slots kernel roots k base base' l umap Flags m m') (hl : .table ∉ l) {u : BitVec 64}
    (hu : slots (idxL4 u) = false) (ht : Covers umap u) : present (pte roots m' k u) = true := by
  obtain ⟨c, flags, hflags, heq⟩ := h.mapped hl u hu ht
  rw [heq, present_entry]
  exact (h.plain flags hflags).present

theorem mapPages_loads (h : Space slots kernel roots base m) (hr : roots k = some r) {v : BitVec 64}
    (hv : v &&& 0xFFF = 0) {f n : Nat} {flags : BitVec 64} (hflags : Plain flags)
    (hown : Own slots [region v n]) {b : Vm} (ht : Takes m.pmm b.pmm f n) (hn : n ≠ 0) (htables : b.tables = m.tables) :
    ∃ base' l, Loads slots kernel roots k base base' l [region v n] (fun x => x = flags) m (mapPages r v f flags n b) ∧
      ∀ x ∈ l, x = .table := by
  have htotal := h.total
  have hlast := (ht.free (f + (n - 1)) (by omega) (by omega)).2
  have hslot : ∀ i < n, slots (idxL4 (page v i)) = false := by
    intro i hi
    refine hown (region v n) List.mem_cons_self i ?_
    rwa [pagesOf_region (by omega)]
  have hcovers : ∀ {u}, Covers [region v n] u ↔ ∃ i < n, vpn u = vpn (page v i) := covers_region (by omega)
  have hspace : Space slots kernel roots (fun j => base j ∨ (f ≤ j ∧ j < f + n)) b := by
    exact Space.bytes (h.alloc ht) rfl htables
  have hg : Granted kernel (fun j => base j ∨ (f ≤ j ∧ j < f + n)) b f n := by
    obtain ⟨pmm, tables, bytes⟩ := b
    obtain ⟨hb, ho, hlt⟩ := granted_of_takes h ht
    exact ⟨hb, ho, hlt⟩
  have hpte : ∀ k' u, pte roots b k' u = pte roots m k' u := by
    intro k' u
    rw [pte, pte, leafAt, leafAt, seat, htables]
  have hframes : Frames slots roots k m b := by
    refine ⟨ht.total, ht.doubled, fun g hg => (ht.used g).mpr (.inl hg), fun _ _ _ _ => by rw [htables],
      fun p g _ _ hs => .inl ?_⟩
    rw [seat, htables] at hs
    exact hs
  have hfresh : ∀ i, i < n → ¬ base (f + i) := by
    intro i hi hb
    have hfree := (ht.free (f + i) (by omega) (by omega)).1
    rw [(h.used _).mpr (.inl hb)] at hfree
    cases hfree
  obtain ⟨got, hm⟩ := mapPages_spec hspace hr hv hflags hslot hg
  obtain ⟨l, hl, htable, hall⟩ := hm.refused
  have hlnil : .table ∉ l → l = [] := fun hno => List.eq_nil_iff_forall_not_mem.mpr fun x hx => hno (htable x hx ▸ hx)
  have hmiss : .table ∈ l → ∃ i < n, ¬ got i := by
    intro hmem
    by_contra hgot
    rw [hall.mpr fun i hi => by_contra fun hno => hgot ⟨i, hi, hno⟩] at hmem
    cases hmem
  refine ⟨_, l, ⟨hframes.trans hm.frames, hm.space, fun g hb => ⟨.inl (.inl hb), fun i hi heq => ?_⟩, ?_,
    fun k' u hu hno => ?_, fun x hx => hx ▸ hflags, fun u hu => ?_, fun hno u hu hu' => ?_, fun hno _ hvacant g => ?_,
    fun hmem => ?_, fun hmem => ?_, fun hmem => ?_, fun u _ hfull => ?_, fun hno u hu hu' c hc => ?_,
    fun _ _ hd => absurd (List.pairwise_singleton _ _) hd⟩, htable⟩
  · exact hfresh i (hm.lt i hi) (heq ▸ hb)
  · rw [hl, ht.refused]
  · rw [hm.rest k' u hu fun i hi hk heq => hno hk (hcovers.mpr ⟨i, hm.lt i hi, heq⟩), hpte]
  · by_cases hgot : ∃ i, got i ∧ vpn u = vpn (page v i)
    · obtain ⟨i, hi, heq⟩ := hgot
      rw [pte_congr heq, hm.mapped i hi]
      exact .inr ⟨f + i, flags, rfl, rfl⟩
    · rw [hm.rest k u hu fun i hi _ heq => hgot ⟨i, hi, heq⟩, hpte]
      exact .inl rfl
  · obtain ⟨i, hi, heq⟩ := hcovers.mp hu'
    rw [pte_congr heq, hm.mapped i (hall.mp (hlnil hno) i hi)]
    exact ⟨f + i, flags, rfl, rfl⟩
  · have hgot := hall.mp (hlnil hno)
    constructor
    · rintro ⟨(hb | hf) | ⟨i, hi, hold⟩, hne⟩
      · exact hb
      · exact absurd (by omega) (hne (g - f) (hgot (g - f) (by omega)))
      · rw [hpte, hvacant _ (hslot i (hm.lt i hi)) (hcovers.mpr ⟨i, hm.lt i hi, rfl⟩)] at hold
        cases hold
    · intro hb
      exact ⟨.inl (.inl hb), fun i hi heq => hfresh i (hm.lt i hi) (heq ▸ hb)⟩
  · -- the frame of a page that is not mapped
    obtain ⟨i, hi, hno⟩ := hmiss hmem
    refine ⟨f + i, ⟨.inl (.inr ⟨by omega, by omega⟩), fun j hj heq => ?_⟩, hfresh i hi⟩
    obtain rfl : i = j := by omega
    exact hno hj
  · obtain ⟨i, hi, hno⟩ := hmiss hmem
    exact ⟨page v i, hslot i hi, hcovers.mpr ⟨i, hi, rfl⟩, (hm.missed i hi hno).1⟩
  · obtain ⟨i, hi, hno⟩ := hmiss hmem
    exact (hm.missed i hi hno).2
  · obtain ⟨hfree, hlt⟩ := ht.free f (Nat.le_refl f) (by omega)
    rw [hfull f hlt] at hfree
    cases hfree
  · obtain ⟨i, hi, heq⟩ := hcovers.mp hu'
    rw [pte_congr heq] at hc
    have hseat := (seat_page roots m k (page v i)).trans hc
    have hused := h.seated_used (own_tablePath (hslot i hi)) hseat
    refine ⟨⟨.inr ⟨i, hall.mp (hlnil hno) i hi, by rwa [hpte]⟩, fun j hj => ?_⟩, fun hb =>
      h.apart c hb k _ (own_tablePath (hslot i hi)) hseat⟩
    rintro rfl
    have hj' := hm.lt j hj
    have hfree := (ht.free (f + j) (by omega) (by omega)).1
    rw [hused] at hfree
    cases hfree

theorem pmmAlloc_refused (h : Space slots kernel roots base m) {pmm : Pmm} {why : Purpose} {n : Nat} (hn : n ≠ 0)
    (hwhy : .table ≠ why) (heq : pmmAlloc m.pmm why n = (pmm, 0)) :
    Loads slots kernel roots k base base [why] [] (fun _ => False) m { m with pmm } := by
  have hnull : m.pmm.used 0 = true := (h.used 0).mpr (.inl h.null)
  obtain rfl := pmmAlloc_null hnull hn heq
  have hno : .table ∉ [why] := fun hmem => hwhy (List.mem_singleton.mp hmem)
  exact ⟨⟨rfl, rfl, fun _ hf => hf, fun _ _ _ _ => rfl, fun _ _ _ _ hs => .inl hs⟩, h.refuse _, fun _ h => h, rfl,
    fun _ _ _ _ => rfl, fun _ h => h.elim, fun _ _ => .inl rfl, fun _ _ _ h => by simp [Covers] at h,
    fun _ _ _ _ => Iff.rfl, fun hmem => absurd hmem hno, fun hmem => absurd hmem hno, fun hmem => absurd hmem hno,
    fun _ h => by simp [Covers] at h, fun _ _ _ h => by simp [Covers] at h, fun _ _ hd => absurd List.Pairwise.nil hd⟩

/-! ## Segments and stack -/

theorem Ureg.base_aligned (r : Ureg) : r.base &&& 0xFFF = 0 := by
  rw [Ureg.base, BitVec.and_assoc]
  have hmask : (~~~0xFFF &&& 0xFFF : BitVec 64) = 0#64 := by decide
  exact (congrArg (_ &&& ·) hmask).trans BitVec.and_zero

theorem Ureg.pages_ne_zero (r : Ureg) : r.pages ≠ 0 := by
  unfold Ureg.pages
  dsimp only
  split
  · decide
  · rename_i hne
    intro hzero
    exact hne (BitVec.eq_of_toNat_eq hzero)

def Ureg.region (r : Ureg) : Region := Memory.region r.base r.pages

/-- Without this the loop over the segments ends: the address is not below `USER_VADDR_BASE`, and there are as
many pages. -/
def Loadable (total : Nat) (g : Ureg) : Prop := ¬ g.base < userVaddrBase ∧ g.pages ≤ total

instance (total : Nat) (g : Ureg) : Decidable (Loadable total g) := inferInstanceAs (Decidable (_ ∧ _))

/-- The segments that are loaded, unless memory runs out before. -/
def loadable (total : Nat) (regs : List Ureg) : List Ureg := regs.takeWhile fun g => decide (Loadable total g)

theorem loadable_cons {total : Nat} {g : Ureg} (h : Loadable total g) (regs : List Ureg) :
    loadable total (g :: regs) = g :: loadable total regs := by
  rw [loadable, List.takeWhile_cons_of_pos (by simpa using h)]
  rfl

theorem loadable_of_takes {pmm pmm' : Pmm} {f : Nat} {g : Ureg} (hbase : ¬ g.base < userVaddrBase)
    (ht : Takes pmm pmm' f g.pages) : Loadable pmm.total g := by
  have hpos := g.pages_ne_zero
  have hlast := (ht.free (f + (g.pages - 1)) (by omega) (by omega)).2
  exact ⟨hbase, by omega⟩

/-- The segments that are given frames and loaded, up to the first that is not. -/
def given (pm : Nat) (img : Nat → BitVec 8) : List Ureg → Vm → List Ureg
  | [], _ => []
  | r :: rest, m =>
    if r.base < userVaddrBase then []
    else
      let (pmm, phys) := pmmAlloc m.pmm .segment r.pages
      if phys = 0 then []
      else
        let m := fill { m with pmm } (phys * 0x1000) (r.pages * 0x1000) fun _ => 0
        let m := fill m (phys * 0x1000 + r.off.toNat) r.fileSz.toNat fun a => img (r.src.toNat + a)
        r :: given pm img rest (mapPages pm r.base phys r.pageFlags r.pages m)

theorem pmmAlloc_total (pmm : Pmm) (why : Purpose) (n : Nat) : (pmmAlloc pmm why n).1.total = pmm.total := by
  unfold pmmAlloc
  split
  · rfl
  · split <;> rfl

theorem ensureTables_rest (t : Nat) (path : List Nat) (m : Vm) :
    (ensureTables t path m).1.pmm.total = m.pmm.total ∧ (ensureTables t path m).1.bytes = m.bytes := by
  have htable : ∀ (t i : Nat) (m : Vm),
      (ensureTable true t i m).1.pmm.total = m.pmm.total ∧ (ensureTable true t i m).1.bytes = m.bytes := by
    intro t i m
    have hsame := pmmAlloc_total m.pmm .table 1
    unfold ensureTable
    dsimp only
    split
    · split <;> exact ⟨rfl, rfl⟩
    · split
      · next halloc =>
        rw [halloc] at hsame
        exact ⟨hsame, rfl⟩
      · next halloc =>
        rw [halloc] at hsame
        exact ⟨hsame, rfl⟩
  induction path generalizing t m with
  | nil => exact ⟨rfl, rfl⟩
  | cons i path ih =>
    obtain ⟨htotal, hbytes⟩ := htable t i m
    unfold ensureTables
    split
    · next heq =>
      rw [heq] at htotal hbytes
      exact ⟨htotal, hbytes⟩
    · next heq =>
      rw [heq] at htotal hbytes
      exact ⟨(ih _ _).1.trans htotal, (ih _ _).2.trans hbytes⟩

/-- Mapping pages leaves the size of the memory and its bytes. -/
theorem mapPages_rest (pml4 : Nat) (v : BitVec 64) (f : Nat) (flags : BitVec 64) (n : Nat) (m : Vm) :
    (mapPages pml4 v f flags n m).pmm.total = m.pmm.total ∧ (mapPages pml4 v f flags n m).bytes = m.bytes := by
  induction n with
  | zero => exact ⟨rfl, rfl⟩
  | succ n ih =>
    rw [mapPages_succ, mapUser]
    split
    · exact ih
    · obtain ⟨htotal, hbytes⟩ := ensureTables_rest pml4 [idxL4 (page v n), idxL3 (page v n), idxL2 (page v n)]
        (mapPages pml4 v f flags n m)
      split
      · next heq =>
        rw [heq] at htotal hbytes
        exact ⟨htotal.trans ih.1, hbytes.trans ih.2⟩
      · next heq =>
        rw [heq] at htotal hbytes
        exact ⟨htotal.trans ih.1, hbytes.trans ih.2⟩

theorem given_loadable (pm : Nat) (img : Nat → BitVec 8) (regs : List Ureg) (m : Vm) :
    given pm img regs m <+: loadable m.pmm.total regs := by
  induction regs generalizing m with
  | nil => exact List.nil_prefix
  | cons g regs ih =>
    unfold given
    split
    · exact List.nil_prefix
    · next hbase =>
      have htotal := pmmAlloc_total m.pmm .segment g.pages
      cases halloc : pmmAlloc m.pmm .segment g.pages with
      | mk pmm phys =>
        rw [halloc] at htotal
        dsimp only
        split
        · exact List.nil_prefix
        · next hphys =>
          rw [loadable_cons (loadable_of_takes hbase (pmmAlloc_takes halloc hphys)), List.cons_prefix_cons]
          refine ⟨rfl, ?_⟩
          have hrest := ih (mapPages pm g.base phys g.pageFlags g.pages (fill (fill { m with pmm } (phys * 0x1000)
            (g.pages * 0x1000) fun _ => 0) (phys * 0x1000 + g.off.toNat) g.fileSz.toNat fun a => img (g.src.toNat + a)))
          rw [(mapPages_rest _ _ _ _ _ _).1] at hrest
          exact htotal ▸ hrest

theorem fill_congr {m : Vm} {dst len : Nat} {v v' : Nat → BitVec 8} (h : ∀ a < len, v a = v' a) :
    fill m dst len v = fill m dst len v' := by
  unfold fill
  congr 1
  funext a
  split
  · exact h _ (by omega)
  · rfl

theorem loadRegions_congr (pm : Nat) {img img' : Nat → BitVec 8} (regs : List Ureg) (code : List Region) (m : Vm)
    (h : ∀ g ∈ given pm img regs m, ∀ a < g.fileSz.toNat, img (g.src.toNat + a) = img' (g.src.toNat + a)) :
    loadRegions pm img regs code m = loadRegions pm img' regs code m := by
  induction regs generalizing code m with
  | nil => rfl
  | cons g regs ih =>
    unfold given at h
    unfold loadRegions
    split
    · rfl
    · next hbase =>
      rw [if_neg hbase] at h
      dsimp only at h ⊢
      split
      · rfl
      · next hphys =>
        rw [if_neg hphys, List.forall_mem_cons] at h
        rw [← fill_congr h.1]
        exact ih _ _ h.2

theorem given_own (pm : Nat) (img : Nat → BitVec 8) {regs : List Ureg} (hown : Own slots (regs.map Ureg.region))
    (m : Vm) :
    Own slots ((given pm img regs m).map Ureg.region) := by
  intro g hg
  obtain ⟨r, hr, rfl⟩ := List.mem_map.mp hg
  have hregs := (List.takeWhile_sublist _).subset ((given_loadable pm img regs m).subset hr)
  exact hown _ (List.mem_map_of_mem hregs)

theorem loadRegions_loads (h : Space slots kernel roots base m) (hr : roots k = some r) (img : Nat → BitVec 8)
    {regs : List Ureg} (hown : Own slots ((given r img regs m).map Ureg.region)) (code : List Region) :
    ∃ m' res base' l, loadRegions r img regs code m = (m', res) ∧ given r img regs m <+: regs ∧
      Loads slots kernel roots k base base' l ((given r img regs m).map Ureg.region)
        (fun x => ∃ g ∈ given r img regs m, x = g.pageFlags) m m' ∧
      (res = .ok (code ++ regs.map Ureg.region) ∧ given r img regs m = regs ∧ (∀ x ∈ l, x = .table) ∧
          (∀ g ∈ regs, Loadable m.pmm.total g) ∨
        ∃ e, res = .error e ∧ e < 0 ∧ (∀ x ∈ l, x = .table ∨ x = .segment) ∧
          (.segment ∈ l ∨ ∃ g ∈ regs, g.base < userVaddrBase)) := by
  have hnil : ∀ (flags : BitVec 64), (∃ g ∈ ([] : List Ureg), flags = g.pageFlags) ↔ False := by simp
  induction regs generalizing m base code with
  | nil =>
    refine ⟨m, .ok code, base, [], rfl, List.nil_prefix, ?_, .inl ⟨by simp, rfl, by simp, by simp⟩⟩
    simp only [given, hnil]
    exact Loads.refl h
  | cons g regs ih =>
    unfold loadRegions
    unfold given at hown ⊢
    by_cases hbase : g.base < userVaddrBase
    · rw [if_pos hbase, if_pos hbase]
      refine ⟨m, _, base, [], rfl, List.nil_prefix, ?_,
        .inr ⟨-10, rfl, by decide, by simp, .inr ⟨g, List.mem_cons_self, hbase⟩⟩⟩
      simp only [hnil]
      exact Loads.refl h
    · rw [if_neg hbase] at hown
      rw [if_neg hbase, if_neg hbase]
      cases halloc : pmmAlloc m.pmm .segment g.pages with
      | mk pmm phys =>
        rw [halloc] at hown
        dsimp only at hown ⊢
        by_cases hphys : phys = 0
        · subst hphys
          refine ⟨{ m with pmm }, _, base, [.segment], rfl, List.nil_prefix, ?_,
            .inr ⟨-11, rfl, by decide, by simp, .inl (by simp)⟩⟩
          simp only [if_true, hnil]
          exact pmmAlloc_refused h g.pages_ne_zero (by decide) halloc
        · have htakes := pmmAlloc_takes halloc hphys
          have hloadable := loadable_of_takes hbase htakes
          rw [if_neg hphys, List.map_cons, ← List.singleton_append, own_append] at hown
          obtain ⟨base', l, hloads, htable⟩ := mapPages_loads (b := fill (fill { m with pmm } (phys * 0x1000)
            (g.pages * 0x1000) fun _ => 0) (phys * 0x1000 + g.off.toNat) g.fileSz.toNat fun a => img (g.src.toNat + a))
            h hr g.base_aligned g.plain hown.1 htakes g.pages_ne_zero rfl
          rw [← hloads.frames.total] at hloadable ⊢
          obtain ⟨m', res, base'', l', heq, hpre, hloads', hres⟩ := ih hloads.space hown.2 (code ++ [g.region])
          rw [if_neg hphys, if_neg hphys]
          generalize given r img regs _ = done at hpre hloads' hres ⊢
          have hflags : ∀ (flags : BitVec 64), (∃ g' ∈ g :: done, flags = g'.pageFlags) ↔
              flags = g.pageFlags ∨ ∃ g' ∈ done, flags = g'.pageFlags := by simp
          refine ⟨m', res, base'', l' ++ l, heq, List.cons_prefix_cons.mpr ⟨rfl, hpre⟩, ?_, ?_⟩
          · simp only [hflags]
            exact hloads.trans hloads'
          · have htables : ∀ x ∈ l, x = .table ∨ x = .segment := fun x hx => .inl (htable x hx)
            rcases hres with ⟨rfl, rfl, htable', hbases⟩ | ⟨e, he, hneg, hwhy, hcause⟩
            · refine .inl ⟨by simp, rfl, fun x hx => (List.mem_append.mp hx).elim (htable' x) (htable x), ?_⟩
              exact List.forall_mem_cons.mpr ⟨hloadable, hbases⟩
            · refine .inr ⟨e, he, hneg, fun x hx => (List.mem_append.mp hx).elim (hwhy x) (htables x), ?_⟩
              rcases hcause with hmem | ⟨g', hg', hlow⟩
              · exact .inl (List.mem_append_left _ hmem)
              · exact .inr ⟨g', List.mem_cons_of_mem _ hg', hlow⟩

theorem maxEnd_aligned (code : List Region) : (maxEnd code + 0x10000) &&& 0xFFF = 0 := by
  have hmax : maxEnd code &&& 0xFFF = 0 := by
    rw [maxEnd, BitVec.and_assoc]
    have hmask : (~~~0xFFF &&& 0xFFF : BitVec 64) = 0#64 := by decide
    exact (congrArg (_ &&& ·) hmask).trans BitVec.and_zero
  rw [aligned_iff] at hmax ⊢
  rw [BitVec.toNat_add, show (0x10000 : BitVec 64).toNat = 65536 from rfl]
  omega

/-- Where `proc_enter_user` puts the user stack. -/
def userStack (code : List Region) : Region := region (maxEnd code + 0x10000) userStackPages

/-- `proc_enter_user` maps the user stack, or is refused the frames for it. -/
theorem enterUser_loads (h : Space slots kernel roots base m) (hr : roots k = some r) {code : List Region}
    (hown : Own slots [userStack code]) (zone : Nat → BitVec 8) (p : Pcb) :
    (∃ m', enterUser r code zone p m = (m', none) ∧
      Loads slots kernel roots k base base [.userStack] [] (fun _ => False) m m') ∨
    (∃ m' base' l, enterUser r code zone p m =
        (m', some { p with isUser := true, umap := code ++ [userStack code], umapHeap := none }) ∧
      Loads slots kernel roots k base base' l [userStack code] (fun x => x = 0x7 ||| nx) m m' ∧
      ∀ x ∈ l, x = .table) := by
  unfold enterUser
  dsimp only
  cases halloc : pmmAlloc m.pmm .userStack userStackPages with
  | mk pmm f =>
    by_cases hf : f = 0
    · subst hf
      exact .inl ⟨{ m with pmm }, rfl, pmmAlloc_refused h (by decide) (by decide) halloc⟩
    · right
      have htakes := pmmAlloc_takes halloc hf
      obtain ⟨base', l, hloads, htable⟩ := mapPages_loads (b := { m with pmm }) h hr (maxEnd_aligned code)
        plain_data hown htakes (by decide) rfl
      refine ⟨fill (mapPages r (maxEnd code + 0x10000) f (0x7 ||| nx) userStackPages { m with pmm }) ((f + 15) * 0x1000)
        0x1000 zone, base', l, ?_, ?_, htable⟩
      · rw [if_neg hf]
        rfl
      · have hframes := hloads.frames
        exact { hloads with
          frames := ⟨hframes.total, hframes.doubled, hframes.mono, hframes.words, hframes.fresh⟩
          space := Space.bytes hloads.space rfl rfl }

end

end Siathos.Proc.Memory
