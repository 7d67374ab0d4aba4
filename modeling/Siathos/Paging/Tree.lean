import Mathlib.Algebra.Group.Nat.Defs
import Siathos.Paging.Model

/-!
# The trees of page tables

Each address space is a radix tree below its PML4, apart from the slots that it shares with the kernel. The
invariant `Space` says that the trees do not meet, and who holds each page in use.
-/

open Lib

namespace Siathos.Paging

/-! ## Entries -/

theorem pageAddr_and {f : Nat} (h : f < 2 ^ 40) : pageAddr f &&& pteAddr = pageAddr f := by
  apply BitVec.eq_of_toNat_eq
  have hmask : pteAddr.toNat = (2 ^ 40 - 1) <<< 12 := by decide
  have haddr : (pageAddr f).toNat = f <<< 12 := by
    rw [pageAddr, BitVec.toNat_ofNat, Nat.shiftLeft_eq]
    omega
  rw [BitVec.toNat_and, hmask, haddr, ← Nat.shiftLeft_and_distrib, Nat.and_two_pow_sub_one_eq_mod, Nat.mod_eq_of_lt h]

theorem pageAddr_aligned (f : Nat) : pageAddr f &&& 0xFFF = 0 := by
  apply BitVec.eq_of_toNat_eq
  rw [BitVec.toNat_and, pageAddr, BitVec.toNat_ofNat]
  change f * 4096 % 2 ^ 64 &&& (2 ^ 12 - 1) = 0
  rw [Nat.and_two_pow_sub_one_eq_mod]
  omega

theorem pfn_entry {f : Nat} {flags : BitVec 64} (h : f < 2 ^ 40) (hflags : flags &&& pteAddr = 0#64) :
    pfn (entry (pageAddr f) flags) = f := by
  have haddr : (pageAddr f).toNat = f * 4096 := by
    rw [pageAddr, BitVec.toNat_ofNat]
    omega
  rw [pfn, entry, pageAddr_and h, BitVec.and_or_distrib_right, hflags, pageAddr_and h, BitVec.or_zero, haddr]
  omega

@[simp] theorem present_entry (phys flags : BitVec 64) : present (entry phys flags) = present flags := by
  simp [present, entry, pteAddr]

@[simp] theorem large_entry (phys flags : BitVec 64) : large (entry phys flags) = large flags := by
  simp [large, entry, pteAddr]

@[simp] theorem mmio_entry (phys flags : BitVec 64) : mmio (entry phys flags) = mmio flags := by
  simp [mmio, entry, pteAddr]

@[simp] theorem user_entry (phys flags : BitVec 64) : user (entry phys flags) = user flags := by
  simp [user, entry, pteAddr]

@[simp] theorem writable_entry (phys flags : BitVec 64) : writable (entry phys flags) = writable flags := by
  simp [writable, entry, pteAddr]

@[simp] theorem noExec_entry (phys flags : BitVec 64) : noExec (entry phys flags) = noExec flags := by
  simp [noExec, entry, pteAddr]

@[simp] theorem present_zero : present 0 = false := by decide

theorem idxL4_lt (v : BitVec 64) : idxL4 v < 512 := by
  unfold idxL4
  rw [BitVec.toNat_and]
  exact Nat.lt_succ_of_le Nat.and_le_right

theorem idxL3_lt (v : BitVec 64) : idxL3 v < 512 := by
  unfold idxL3
  rw [BitVec.toNat_and]
  exact Nat.lt_succ_of_le Nat.and_le_right

theorem idxL2_lt (v : BitVec 64) : idxL2 v < 512 := by
  unfold idxL2
  rw [BitVec.toNat_and]
  exact Nat.lt_succ_of_le Nat.and_le_right

theorem idxL1_lt (v : BitVec 64) : idxL1 v < 512 := by
  unfold idxL1
  rw [BitVec.toNat_and]
  exact Nat.lt_succ_of_le Nat.and_le_right

theorem toNat_pageFloor (v : BitVec 64) : (v &&& ~~~0xFFF).toNat = v.toNat / 4096 * 4096 := by
  have hmask : (~~~0xFFF : BitVec 64).toNat = (2 ^ 52 - 1) <<< 12 := by decide
  have hshift : v.toNat / 4096 * 4096 = (v.toNat >>> 12) <<< 12 := by
    rw [Nat.shiftLeft_eq, Nat.shiftRight_eq_div_pow]
  rw [BitVec.toNat_and, hmask, hshift]
  refine Nat.eq_of_testBit_eq fun i => ?_
  rw [Nat.testBit_and, Nat.testBit_shiftLeft, Nat.testBit_shiftLeft, Nat.testBit_shiftRight,
    Nat.testBit_two_pow_sub_one]
  by_cases hi : 12 ≤ i
  · rw [Nat.add_sub_cancel' hi]
    by_cases hlt : i - 12 < 52
    · simp [hi, hlt]
    · have hhigh : v.toNat.testBit i = false :=
        Nat.testBit_lt_two_pow (Nat.lt_of_lt_of_le v.isLt (Nat.pow_le_pow_right (by decide) (by omega)))
      simp [hhigh]
  · simp [hi]

/-! ## The PMM -/

/-- The pages from `f` on were free and are taken. -/
structure Takes (pmm pmm' : Pmm) (f pages : Nat) : Prop where
  free : ∀ j, f ≤ j → j < f + pages → pmm.used j = false ∧ j < pmm.total
  used : ∀ j, pmm'.used j = true ↔ pmm.used j = true ∨ (f ≤ j ∧ j < f + pages)
  total : pmm'.total = pmm.total
  refused : pmm'.refused = pmm.refused
  doubled : pmm'.doubled = pmm.doubled

theorem fits_iff {pmm : Pmm} {pages i : Nat} :
    pmm.fits pages i = true ↔ i + pages ≤ pmm.total ∧ ∀ b < pages, pmm.used (i + b) = false := by
  simp [Pmm.fits]

theorem pmmAlloc_takes {pmm pmm' : Pmm} {why : Purpose} {pages f : Nat} (h : pmmAlloc pmm why pages = (pmm', f))
    (hf : f ≠ 0) : Takes pmm pmm' f pages := by
  unfold pmmAlloc at h
  split at h
  · cases h
    exact absurd rfl hf
  · split at h
    · rename_i i hfind
      cases h
      have hfits := fits_iff.mp (List.find?_some hfind)
      refine ⟨fun j hj hj' => ?_, fun j => ?_, rfl, rfl, rfl⟩
      · have := hfits.2 (j - f) (by omega)
        rw [Nat.add_sub_cancel' hj] at this
        exact ⟨this, by omega⟩
      · simp
    · cases h
      exact absurd rfl hf

theorem pmmAlloc_null {pmm pmm' : Pmm} {why : Purpose} {pages : Nat} (hnull : pmm.used 0 = true)
    (hpages : pages ≠ 0) (h : pmmAlloc pmm why pages = (pmm', 0)) : pmm' =
    { pmm with refused := why :: pmm.refused } := by
  unfold pmmAlloc at h
  rw [if_neg hpages] at h
  split at h
  · rename_i i hfind
    obtain ⟨-, rfl⟩ := Prod.mk.inj h
    have hfits := fits_iff.mp (List.find?_some hfind)
    have := hfits.2 0 (by omega)
    rw [Nat.add_zero, hnull] at this
    cases this
  · exact (Prod.mk.inj h).1.symm

/-- No page is free. -/
def Full (pmm : Pmm) : Prop := ∀ f < pmm.total, pmm.used f = true

theorem pmmAlloc_grows {pmm : Pmm} (hnull : pmm.used 0 = true) (why : Purpose) {pages : Nat}
    (hpages : pages ≠ 0) :
    ((∀ i, pmm.fits pages i = false) ∧ (pmmAlloc pmm why pages).2 = 0 ∧
      (pmmAlloc pmm why pages).1 = { pmm with refused := why :: pmm.refused }) ∨
    (pmm.fits pages (pmmAlloc pmm why pages).2 = true ∧ (pmmAlloc pmm why pages).2 ≠ 0 ∧
      Takes pmm (pmmAlloc pmm why pages).1 (pmmAlloc pmm why pages).2 pages) := by
  by_cases hzero : (pmmAlloc pmm why pages).2 = 0
  · have heq := pmmAlloc_null hnull hpages (Prod.ext rfl hzero)
    refine Or.inl ⟨fun i => ?_, hzero, heq⟩
    by_contra hfits
    rw [Bool.not_eq_false] at hfits
    have hi := fits_iff.mp hfits
    unfold pmmAlloc at hzero heq
    rw [if_neg hpages] at hzero heq
    cases hfind : (List.range pmm.total).find? (pmm.fits pages) with
    | none =>
      have := List.find?_eq_none.mp hfind i (List.mem_range.mpr (by omega))
      exact this hfits
    | some f =>
      rw [hfind] at heq
      have := congrArg (fun p => p.refused.length) heq
      simp at this
  · have htakes : Takes pmm (pmmAlloc pmm why pages).1 (pmmAlloc pmm why pages).2 pages :=
      pmmAlloc_takes rfl hzero
    refine Or.inr ⟨fits_iff.mpr ⟨?_, fun b hb => ?_⟩, hzero, htakes⟩
    · have := (htakes.free ((pmmAlloc pmm why pages).2 + (pages - 1)) (by omega) (by omega)).2
      omega
    · exact (htakes.free _ (by omega) (by omega)).1

theorem pmmAlloc_full {pmm pmm' : Pmm} {why : Purpose} (hnull : pmm.used 0 = true)
    (h : pmmAlloc pmm why 1 = (pmm', 0)) : Full pmm := by
  rcases pmmAlloc_grows hnull why Nat.one_ne_zero with ⟨hnone, -, -⟩ | ⟨-, hne, -⟩
  · intro f hf
    by_contra hfree
    have hfits := hnone f
    rw [fits_iff.mpr ⟨hf, fun b hb => ?_⟩] at hfits
    · cases hfits
    · rw [Nat.lt_one_iff.mp hb]
      simpa using hfree
  · exact absurd (congrArg Prod.snd h) hne

theorem pmmFree_page {pmm : Pmm} {page : Nat} (h : page ≠ 0) (ht : page < pmm.total) (j : Nat) :
    (pmmFree pmm page 1).used j = (pmm.used j && !decide (j = page)) := by
  unfold pmmFree
  rw [if_neg (by simpa using h)]
  dsimp only
  congr 3
  simp only [eq_iff_iff]
  omega

theorem pmmFree_doubled {pmm : Pmm} {page : Nat} (h : page ≠ 0) (hused : pmm.used page = true) :
    (pmmFree pmm page 1).doubled = pmm.doubled := by
  unfold pmmFree
  rw [if_neg (by simpa using h)]
  simp [hused]

@[simp] theorem pmmFree_total (pmm : Pmm) (page pages : Nat) : (pmmFree pmm page pages).total = pmm.total := by
  unfold pmmFree
  split <;> rfl

/-! ## Trees -/

/-- Where an entry leads. An entry of the last level that is marked `PTE_AVAIL_MMIO` names no memory. -/
def next (d : Nat) (w : BitVec 64) : Option Nat :=
  if present w && !large w && !(decide (d = 3) && mmio w) then some (pfn w) else none

theorem next_absent {d : Nat} {w : BitVec 64} (h : present w = false) : next d w = none := by
  simp [next, h]

theorem next_table {c : Nat} (h : c < 2 ^ 40) (d : Nat) : next d (entry (pageAddr c) 7) = some c := by
  have hbits : present (7 : BitVec 64) = true ∧ large (7 : BitVec 64) = false ∧ mmio (7 : BitVec 64) = false := by
    decide
  rw [next, present_entry, large_entry, mmio_entry, hbits.1, hbits.2.1, hbits.2.2, pfn_entry h (by decide)]
  simp

/-- The paths that are a process's own. The kernel's PML4 has entries in the `slots`. -/
def own (slots : Nat → Bool) : Radix.Paths where
  Ok p := p.length ≤ 4 ∧ (∀ i ∈ p, i < 512) ∧ ∀ i ∈ p.head?, slots i = false
  init p i := by
    rintro ⟨hlen, hlt, hslot⟩
    refine ⟨?_, fun j hj => hlt j (List.mem_append_left _ hj), fun j hj => hslot j ?_⟩
    · rw [List.length_append] at hlen
      omega
    · cases p with
      | nil => cases hj
      | cons k p => exact hj

abbrev seat (roots : Nat → Option Nat) (m : Vm) : Nat → List Nat → Option Nat := Radix.seat next roots m.tables

theorem seat_nil (roots : Nat → Option Nat) (m : Vm) (k : Nat) : seat roots m k [] = roots k := by
  simp [seat, Radix.seat, Radix.follow]

theorem seat_snoc (roots : Nat → Option Nat) (m : Vm) (k : Nat) (p : List Nat) (i : Nat) :
    seat roots m k (p ++ [i]) = (seat roots m k p).bind fun t => next p.length (m.tables t i) :=
  Radix.seat_snoc next roots m.tables k p i

theorem own_nil (slots : Nat → Bool) : (own slots).Ok [] := ⟨Nat.zero_le _, by simp, by simp⟩

/-- `roots` gives the PML4 of each process, and `base` the pages in use that are in no tree. -/
structure Space (slots : Nat → Bool) (kernel : Nat) (roots : Nat → Option Nat) (base : Nat → Prop) (m : Vm) : Prop where
  total : m.pmm.total ≤ 2 ^ 36
  null : base 0
  used : ∀ f, m.pmm.used f = true ↔ base f ∨ ∃ k p, (own slots).Ok p ∧ seat roots m k p = some f
  apart : ∀ f, base f → Radix.Unseated next roots (own slots) m.tables f
  unshared : Radix.Unshared next roots (own slots) m.tables
  inRange : ∀ k p f, (own slots).Ok p → seat roots m k p = some f → f < m.pmm.total
  kernelHeld : base kernel
  kernelSlots : ∀ i < 512, present (m.tables kernel i) = slots i
  shared : ∀ k r, roots k = some r → ∀ i < 512, slots i = true → m.tables r i = m.tables kernel i
  inner : ∀ k p t i, (own slots).Ok (p ++ [i]) → p.length < 3 → seat roots m k p = some t →
    present (m.tables t i) = true → ∃ c < m.pmm.total, m.tables t i = entry (pageAddr c) 7

section

variable {slots : Nat → Bool} {kernel : Nat} {roots : Nat → Option Nat} {base : Nat → Prop} {m : Vm}

theorem Space.seated_used (h : Space slots kernel roots base m) {k : Nat} {p : List Nat} {f : Nat}
    (hp : (own slots).Ok p) (hf : seat roots m k p = some f) : m.pmm.used f = true :=
  (h.used f).mpr (.inr ⟨k, p, hp, hf⟩)

theorem Space.seated_ne_zero (h : Space slots kernel roots base m) {k : Nat} {p : List Nat} {f : Nat}
    (hp : (own slots).Ok p) (hf : seat roots m k p = some f) : f ≠ 0 := by
  rintro rfl
  exact h.apart 0 h.null k p hp hf

theorem Space.unused_unseated (h : Space slots kernel roots base m) {f : Nat} (hf : m.pmm.used f = false) :
    Radix.Unseated next roots (own slots) m.tables f := by
  intro k p hp hs
  rw [h.seated_used hp hs] at hf
  cases hf

theorem Space.small (h : Space slots kernel roots base m) {f : Nat} (hf : f < m.pmm.total) : f < 2 ^ 40 := by
  have := h.total
  omega

theorem Space.base_congr {base' : Nat → Prop} (h : Space slots kernel roots base m) (heq : ∀ f, base' f ↔ base f) :
    Space slots kernel roots base' m := by
  obtain rfl : base' = base := funext fun f => propext (heq f)
  exact h

/-- Pages that `pmm_alloc` gives are in no tree yet. -/
theorem Space.alloc (h : Space slots kernel roots base m) {pmm' : Pmm} {f pages : Nat} (ht : Takes m.pmm pmm' f pages) :
    Space slots kernel roots (fun j => base j ∨ (f ≤ j ∧ j < f + pages)) { m with pmm := pmm' } where
  total := by
    rw [ht.total]
    exact h.total
  null := .inl h.null
  used j := by
    change pmm'.used j = true ↔ _
    rw [ht.used, h.used, or_right_comm]
  apart j hj := by
    rcases hj with hj | ⟨hle, hlt⟩
    · exact h.apart j hj
    · exact h.unused_unseated (ht.free j hle hlt).1
  unshared := h.unshared
  inRange k p j hp hj := by
    rw [ht.total]
    exact h.inRange k p j hp hj
  kernelHeld := .inl h.kernelHeld
  kernelSlots := h.kernelSlots
  shared := h.shared
  inner k p t i hp hlen hs hw := by
    rw [ht.total]
    exact h.inner k p t i hp hlen hs hw

theorem Space.refuse (h : Space slots kernel roots base m) (l : List Purpose) :
    Space slots kernel roots base { m with pmm := { m.pmm with refused := l } } :=
  ⟨h.total, h.null, h.used, h.apart, h.unshared, h.inRange, h.kernelHeld, h.kernelSlots, h.shared, h.inner⟩

/-! ## A table more -/

/-- The entry `i` of the table `q`. -/
def leafAt (roots : Nat → Option Nat) (m : Vm) (k : Nat) (q : List Nat) (i : Nat) : BitVec 64 :=
  (seat roots m k q).elim 0 fun t => m.tables t i

/-- Only tables of the tree `k`, and pages that were free, have changed. -/
structure Frames (slots : Nat → Bool) (roots : Nat → Option Nat) (k : Nat) (m m' : Vm) : Prop where
  total : m'.pmm.total = m.pmm.total
  doubled : m'.pmm.doubled = m.pmm.doubled
  mono : ∀ f, m.pmm.used f = true → m'.pmm.used f = true
  words : ∀ f i, m.pmm.used f = true → (∀ p, (own slots).Ok p → p.length ≤ 3 → seat roots m k p ≠ some f) →
    m'.tables f i = m.tables f i
  fresh : ∀ p f, (own slots).Ok p → p.length ≤ 3 → seat roots m' k p = some f →
    seat roots m k p = some f ∨ m.pmm.used f = false

/-- The trees have not lost anything, and no page has been mapped. -/
structure Extends (slots : Nat → Bool) (roots : Nat → Option Nat) (k : Nat) (m m' : Vm) : Prop
    extends Frames slots roots k m m' where
  old : ∀ k' q f, (own slots).Ok q → seat roots m k' q = some f → seat roots m' k' q = some f
  leaf : ∀ k' q i, (own slots).Ok (q ++ [i]) → q.length = 3 → leafAt roots m' k' q i = leafAt roots m k' q i

theorem Frames.refl (k : Nat) (m : Vm) : Frames slots roots k m m :=
  ⟨rfl, rfl, fun _ h => h, fun _ _ _ _ => rfl, fun _ _ _ _ h => .inl h⟩

theorem Frames.trans {k : Nat} {m m' m'' : Vm} (h : Frames slots roots k m m') (h' : Frames slots roots k m' m'') :
    Frames slots roots k m m'' where
  total := h'.total.trans h.total
  doubled := h'.doubled.trans h.doubled
  mono f hf := h'.mono f (h.mono f hf)
  words f i hf hno := by
    rw [h'.words f i (h.mono f hf) ?_, h.words f i hf hno]
    intro p hp hlen hs
    rcases h.fresh p f hp hlen hs with hs | hfree
    · exact hno p hp hlen hs
    · rw [hf] at hfree
      cases hfree
  fresh p f hp hlen hs := by
    rcases h'.fresh p f hp hlen hs with hs | hfree
    · exact h.fresh p f hp hlen hs
    · cases hf : m.pmm.used f with
      | false => exact .inr rfl
      | true =>
        rw [h.mono f hf] at hfree
        cases hfree

theorem Extends.refl (k : Nat) (m : Vm) : Extends slots roots k m m :=
  ⟨Frames.refl k m, fun _ _ _ _ h => h, fun _ _ _ _ _ => rfl⟩

theorem Extends.trans {k : Nat} {m m' m'' : Vm} (h : Extends slots roots k m m') (h' : Extends slots roots k m' m'') :
    Extends slots roots k m m'' where
  toFrames := h.toFrames.trans h'.toFrames
  old k' q f hq hs := h'.old k' q f hq (h.old k' q f hq hs)
  leaf k' q i hq hlen := (h'.leaf k' q i hq hlen).trans (h.leaf k' q i hq hlen)

theorem Extends.take {k : Nat} {pmm' : Pmm} (ht : pmm'.total = m.pmm.total) (hd : pmm'.doubled = m.pmm.doubled)
    (hmono : ∀ f, m.pmm.used f = true → pmm'.used f = true) : Extends slots roots k m { m with pmm := pmm' } :=
  ⟨⟨ht, hd, hmono, fun _ _ _ _ => rfl, fun _ _ _ _ h => .inl h⟩, fun _ _ _ _ h => h, fun _ _ _ _ _ => rfl⟩

/-- A table `c`, which was in no tree, is cleared and becomes the child `i` of `t`. -/
def hook (m : Vm) (t i c : Nat) : Vm :=
  { m with tables := Radix.write (Radix.zero m.tables c 0) t i (entry (pageAddr c) 7) }

section

variable {k t i c : Nat} {p : List Nat}

theorem Space.seat_hook (h : Space slots kernel roots base m) (hc : base c) (hlt : c < m.pmm.total)
    (hp : (own slots).Ok (p ++ [i])) (ht : seat roots m k p = some t)
    (habs : present (m.tables t i) = false) (k' : Nat) {q : List Nat} (hq : (own slots).Ok q) :
    seat roots (hook m t i c) k' q = if k' = k ∧ q = p ++ [i] then some c else seat roots m k' q := by
  have hzero : ∀ (k : Nat) (p : List Nat), (own slots).Ok p →
      Radix.seat next roots (Radix.zero m.tables c 0) k p = Radix.seat next roots m.tables k p :=
    fun k p hp => Radix.seat_zero next roots (h.apart c hc) k hp
  have hne : t ≠ c := by
    rintro rfl
    exact h.apart t hc k p ((own slots).init p i hp) ht
  have hcleared : ∀ j, Radix.zero m.tables c 0 c j = 0 := fun j => if_pos rfl
  have hkept : Radix.zero m.tables c 0 t i = m.tables t i := if_neg hne
  have hgrow := Radix.seat_grow next roots (w := entry (pageAddr c) 7) (h.unshared.congr next roots hzero) hp
    ((hzero k p ((own slots).init p i hp)).trans ht) (by rw [hkept]; exact next_absent habs)
      (next_table (h.small hlt) _)
    ((h.apart c hc).congr next roots hzero) (fun j _ => by rw [hcleared]; exact next_absent present_zero) k' hq
  rw [hzero k' q hq] at hgrow
  exact hgrow

theorem hook_tables_other {t' j : Nat} (hc : t' ≠ c) (hw : t' ≠ t ∨ j ≠ i) :
    (hook m t i c).tables t' j = m.tables t' j := by
  unfold hook
  dsimp only
  rw [Radix.write_other hw]
  exact if_neg hc

theorem hook_tables_child {j : Nat} (hne : t ≠ c) : (hook m t i c).tables c j = 0 := by
  unfold hook
  dsimp only
  rw [Radix.write_other (.inl hne.symm)]
  exact if_pos rfl

theorem Space.extends_hook (h : Space slots kernel roots base m) (hc : base c) (hlt : c < m.pmm.total)
    (hp : (own slots).Ok (p ++ [i])) (hlen : p.length < 3) (ht : seat roots m k p = some t)
    (habs : present (m.tables t i) = false) {m₀ : Vm} (h₀ : Extends slots roots k m₀ m)
    (hfree : m₀.pmm.used c = false) :
    Extends slots roots k m₀ (hook m t i c) := by
  have hseat := fun (k' : Nat) {q : List Nat} => h.seat_hook hc hlt hp ht habs k' (q := q)
  have hp' := (own slots).init p i hp
  have hne : t ≠ c := by
    rintro rfl
    exact h.apart t hc k p hp' ht
  have hold : ∀ k' q f, (own slots).Ok q → seat roots m k' q = some f →
    seat roots (Paging.hook m t i c) k' q = some f := by
    intro k' q f hq hs
    rw [hseat k' hq]
    split
    · rename_i heq
      obtain ⟨rfl, rfl⟩ := heq
      rw [seat_snoc, ht, Option.bind_some, next_absent habs] at hs
      cases hs
    · exact hs
  refine ⟨⟨h₀.total, h₀.doubled, h₀.mono, fun f j hf hno => ?_, fun q f hq hlen' hs => ?_⟩,
    fun k' q f hq hs => hold k' q f hq (h₀.old k' q f hq hs), fun k' q j hq hlen' => ?_⟩
  · rw [hook_tables_other, h₀.words f j hf hno]
    · rintro rfl
      rw [hf] at hfree
      cases hfree
    · refine .inl ?_
      rintro rfl
      rcases h₀.fresh p f hp' (by omega) ht with hs | hf'
      · exact hno p hp' (by omega) hs
      · rw [hf] at hf'
        cases hf'
  · rw [hseat k hq] at hs
    split at hs
    · obtain rfl := Option.some.inj hs
      exact .inr hfree
    · exact h₀.fresh q f hq hlen' hs
  · rw [← h₀.leaf k' q j hq hlen']
    have hq' := (own slots).init q j hq
    unfold leafAt
    rw [hseat k' hq']
    split
    · -- a new table of the last level is empty
      rename_i heq
      obtain ⟨rfl, rfl⟩ := heq
      rw [seat_snoc, ht, Option.bind_some, next_absent habs]
      exact hook_tables_child hne
    · cases hs : seat roots m k' q with
      | none => rfl
      | some t' =>
        refine hook_tables_other ?_ (.inl ?_)
        · rintro rfl
          exact h.apart t' hc k' q hq' hs
        · rintro rfl
          obtain ⟨rfl, rfl⟩ := h.unshared k' q k p t' hq' hp' hs ht
          omega

theorem Space.hook (h : Space slots kernel roots base m) (hc : base c) (hk : c ≠ kernel) (hnull : c ≠ 0)
    (hlt : c < m.pmm.total) (hp : (own slots).Ok (p ++ [i])) (hlen : p.length < 3) (ht : seat roots m k p = some t)
    (habs : present (m.tables t i) = false) :
    Space slots kernel roots (fun f => base f ∧ f ≠ c) (hook m t i c) := by
  have hseat := fun (k' : Nat) {q : List Nat} => h.seat_hook hc hlt hp ht habs k' (q := q)
  have hp' := (own slots).init p i hp
  have hne : t ≠ c := by
    rintro rfl
    exact h.apart t hc k p hp' ht
  have htk : t ≠ kernel := by
    rintro rfl
    exact h.apart t h.kernelHeld k p hp' ht
  have hkernel : ∀ j, (Paging.hook m t i c).tables kernel j = m.tables kernel j :=
    fun j => hook_tables_other hk.symm (.inl htk.symm)
  refine ⟨h.total, ⟨h.null, hnull.symm⟩, fun f => ?_, fun f hf k' q hq hs => ?_,
    h.unshared.grow next roots (h.apart c hc) fun k' q hq => hseat k' hq, fun k' q f hq hs => ?_,
    ⟨h.kernelHeld, hk.symm⟩,
    fun j hj => ?_, fun k' r hr j hj hslot => ?_, fun k' q t' j hq hlen' hs hw => ?_⟩
  · rw [show (Paging.hook m t i c).pmm = m.pmm from rfl, h.used]
    constructor
    · rintro (hf | ⟨k', q, hq, hs⟩)
      · by_cases hfc : f = c
        · exact .inr ⟨k, p ++ [i], hp, by rw [hseat k hp, if_pos ⟨rfl, rfl⟩, hfc]⟩
        · exact .inl ⟨hf, hfc⟩
      · refine .inr ⟨k', q, hq, ?_⟩
        rw [hseat k' hq]
        split
        · rename_i heq
          obtain ⟨rfl, rfl⟩ := heq
          rw [seat_snoc, ht, Option.bind_some, next_absent habs] at hs
          cases hs
        · exact hs
    · rintro (hf | ⟨k', q, hq, hs⟩)
      · exact .inl hf.1
      · rw [hseat k' hq] at hs
        split at hs
        · obtain rfl := Option.some.inj hs
          exact .inl hc
        · exact .inr ⟨k', q, hq, hs⟩
  · have hs : seat roots (Paging.hook m t i c) k' q = some f := hs
    rw [hseat k' hq] at hs
    split at hs
    · exact hf.2 (Option.some.inj hs).symm
    · exact h.apart f hf.1 k' q hq hs
  · rw [hseat k' hq] at hs
    split at hs
    · obtain rfl := Option.some.inj hs
      exact hlt
    · exact h.inRange k' q f hq hs
  · rw [hkernel]
    exact h.kernelSlots j hj
  · have hs : seat roots m k' [] = some r := (seat_nil roots m k').trans hr
    have hok := own_nil slots
    have hrc : r ≠ c := by
      rintro rfl
      exact h.apart r hc k' [] hok hs
    rw [hkernel, hook_tables_other hrc]
    · exact h.shared k' r hr j hj hslot
    · -- the entry written is the process's own
      by_contra hno
      obtain ⟨rfl, rfl⟩ : r = t ∧ j = i := by simpa [not_or] using hno
      obtain ⟨rfl, rfl⟩ := h.unshared k' [] k p r hok hp' hs ht
      have := hp.2.2 j (by simp)
      rw [hslot] at this
      cases this
  · rw [hseat k' ((own slots).init q j hq)] at hs
    split at hs
    · obtain rfl := Option.some.inj hs
      rw [hook_tables_child hne, present_zero] at hw
      cases hw
    · have hc' : t' ≠ c := by
        rintro rfl
        exact h.apart t' hc k' q ((own slots).init q j hq) hs
      by_cases hw' : t' ≠ t ∨ j ≠ i
      · rw [hook_tables_other hc' hw'] at hw ⊢
        exact h.inner k' q t' j hq hlen' hs hw
      · obtain ⟨rfl, rfl⟩ : t' = t ∧ j = i := by simpa [not_or] using hw'
        exact ⟨c, hlt, Radix.write_same _ _ _ _⟩

/-- `paging_ensure_table` finds or makes the child, or is refused a page. -/
theorem ensureTable_spec (h : Space slots kernel roots base m) (hp : (own slots).Ok (p ++ [i])) (hlen : p.length < 3)
    (ht : seat roots m k p = some t) :
    (∃ m' c, ensureTable true t i m = (m', c) ∧ c ≠ 0 ∧ seat roots m' k (p ++ [i]) = some c ∧
      Space slots kernel roots base m' ∧ Extends slots roots k m m' ∧ m'.pmm.refused = m.pmm.refused) ∨
    ensureTable true t i m = ({ m with pmm := { m.pmm with refused := .table :: m.pmm.refused } }, 0) ∧
      seat roots m k (p ++ [i]) = none ∧ Full m.pmm := by
  unfold ensureTable
  dsimp only
  by_cases hw : present (m.tables t i) = true
  · obtain ⟨c, hc, heq⟩ := h.inner k p t i hp hlen ht hw
    have hlt := h.small hc
    have hs : seat roots m k (p ++ [i]) = some c := by rw [seat_snoc, ht, Option.bind_some, heq, next_table hlt]
    left
    rw [if_pos hw, heq, large_entry, if_neg (by decide), pfn_entry hlt (by decide)]
    exact ⟨m, c, rfl, h.seated_ne_zero hp hs, hs, h, Extends.refl k m, rfl⟩
  · have habs : present (m.tables t i) = false := by simpa using hw
    rw [if_neg hw]
    cases halloc : pmmAlloc m.pmm .table 1 with
    | mk pmm c =>
      by_cases hc : c = 0
      · subst hc
        right
        have hnull : m.pmm.used 0 = true := (h.used 0).mpr (.inl h.null)
        have hfull := pmmAlloc_full hnull halloc
        obtain rfl := pmmAlloc_null hnull (by decide) halloc
        refine ⟨rfl, ?_, hfull⟩
        rw [seat_snoc, ht, Option.bind_some]
        exact next_absent habs
      · left
        have htakes := pmmAlloc_takes halloc hc
        obtain ⟨hfree, hlt⟩ := htakes.free c (Nat.le_refl c) (by omega)
        have hspace := h.alloc htakes
        have hbase : ∀ j, (base j ∨ c ≤ j ∧ j < c + 1) ∧ j ≠ c ↔ base j := by
          intro j
          have hcb : ¬ base c := by
            intro hb
            rw [(h.used c).mpr (.inl hb)] at hfree
            cases hfree
          constructor
          · rintro ⟨hb | hj, hne⟩
            · exact hb
            · omega
          · intro hb
            refine ⟨.inl hb, ?_⟩
            rintro rfl
            exact hcb hb
        have hck : c ≠ kernel := by
          rintro rfl
          rw [(h.used c).mpr (.inl h.kernelHeld)] at hfree
          cases hfree
        have hlt' : c < pmm.total := by
          rw [htakes.total]
          exact hlt
        have hext : Extends slots roots k m { m with pmm } :=
          Extends.take htakes.total htakes.doubled fun f hf => (htakes.used f).mpr (.inl hf)
        refine ⟨hook { m with pmm } t i c, c, ?_, hc, ?_, ?_, ?_, htakes.refused⟩
        · cases c with
          | zero => exact absurd rfl hc
          | succ c => rfl
        · rw [hspace.seat_hook (.inr ⟨Nat.le_refl c, by omega⟩) hlt' hp ht habs k hp, if_pos ⟨rfl, rfl⟩]
        · exact (hspace.hook (.inr ⟨Nat.le_refl c, by omega⟩) hck hc hlt' hp hlen ht habs).base_congr fun j =>
            (hbase j).symm
        · exact hspace.extends_hook (.inr ⟨Nat.le_refl c, by omega⟩) hlt' hp hlen ht habs hext hfree

theorem ensureTables_spec {path : List Nat} (h : Space slots kernel roots base m) (hp : (own slots).Ok (p ++ path))
    (hlen : (p ++ path).length ≤ 3) (ht : seat roots m k p = some t) :
    ∃ m' c, ensureTables t path m = (m', c) ∧ Space slots kernel roots base m' ∧ Extends slots roots k m m' ∧
      (c ≠ 0 ∧ seat roots m' k (p ++ path) = some c ∧ m'.pmm.refused = m.pmm.refused ∨
        c = 0 ∧ m'.pmm.refused = .table :: m.pmm.refused ∧ seat roots m' k (p ++ path) = none ∧ Full m'.pmm) := by
  induction path generalizing t p m with
  | nil =>
    refine ⟨m, t, rfl, h, Extends.refl k m, .inl ⟨?_, ?_, rfl⟩⟩
    · exact h.seated_ne_zero ((List.append_nil p).symm ▸ hp) ht
    · rwa [List.append_nil]
  | cons i path ih =>
    have happ : p ++ i :: path = p ++ [i] ++ path := by simp
    rw [happ] at hp hlen ⊢
    have hpi : (own slots).Ok (p ++ [i]) := by
      clear ih happ
      induction path using List.reverseRecOn with
      | nil => rwa [List.append_nil] at hp
      | append_singleton path j ih =>
        rw [← List.append_assoc] at hp hlen
        exact ih ((own slots).init _ j hp) (by rw [List.length_append] at hlen; omega)
    have hlen' : p.length < 3 := by
      simp only [List.length_append, List.length_singleton] at hlen
      omega
    unfold ensureTables
    rcases ensureTable_spec h hpi hlen' ht with ⟨m', c, heq, hc, hs, hspace, hext, href⟩ | ⟨heq, hnone, hfull⟩
    · rw [heq]
      obtain ⟨m'', c', heq', hspace', hext', hres⟩ := ih hspace hp hlen hs
      refine ⟨m'', c', ?_, hspace', hext.trans hext', ?_⟩
      · cases c with
        | zero => exact absurd rfl hc
        | succ c => exact heq'
      · rwa [href] at hres
    · rw [heq]
      refine ⟨_, 0, rfl, h.refuse _, Extends.take rfl rfl fun _ hf => hf, .inr ⟨rfl, rfl, ?_, hfull⟩⟩
      have hbelow : seat roots m k (p ++ [i] ++ path) = none := by
        rw [seat, Radix.seat_append]
        rw [seat] at hnone
        rw [hnone]
        rfl
      exact hbelow

/-! ## Entries of the last level -/

def leafWrite (m : Vm) (t i : Nat) (w : BitVec 64) : Vm := { m with tables := Radix.write m.tables t i w }

/-- One entry of the last level in the tree `k` has become `w`. -/
structure Maps (slots : Nat → Bool) (roots : Nat → Option Nat) (k : Nat) (q : List Nat) (i : Nat) (w : BitVec 64)
    (m m' : Vm) : Prop extends Frames slots roots k m m' where
  old : ∀ k' q f, (own slots).Ok q → q.length ≤ 3 → seat roots m k' q = some f → seat roots m' k' q = some f
  leaf : ∀ k' q' i', (own slots).Ok (q' ++ [i']) → q'.length = 3 →
    leafAt roots m' k' q' i' = if k' = k ∧ q' = q ∧ i' = i then w else leafAt roots m k' q' i'

theorem own_long (hlen : p.length = 3) (j : Nat) : ¬ (own slots).Ok (p ++ [i] ++ [j]) := by
  intro h
  have := h.1
  simp [hlen] at this

theorem Space.last_ne (h : Space slots kernel roots base m) (hp : (own slots).Ok p) (hlen : p.length = 3)
    (ht : seat roots m k p = some t) {k' t' : Nat} {q : List Nat} (hq : (own slots).Ok q) (hlen' : q.length < 3)
    (hs : seat roots m k' q = some t') : t' ≠ t := by
  rintro rfl
  obtain ⟨-, rfl⟩ := h.unshared k' q k p t' hq hp hs ht
  omega

theorem Space.leafWrite_rest (h : Space slots kernel roots base m) (hp : (own slots).Ok p) (hlen : p.length = 3)
    (ht : seat roots m k p = some t) (w : BitVec 64)
    (hseat : ∀ k' q, (own slots).Ok q → q.length ≤ 3 → seat roots (leafWrite m t i w) k' q = seat roots m k' q) :
    (∀ j < 512, present ((leafWrite m t i w).tables kernel j) = slots j) ∧
    (∀ k' r, roots k' = some r → ∀ j < 512, slots j = true →
      (leafWrite m t i w).tables r j = (leafWrite m t i w).tables kernel j) ∧
    (∀ k' q t' j, (own slots).Ok (q ++ [j]) → q.length < 3 → seat roots (leafWrite m t i w) k' q = some t' →
      present ((leafWrite m t i w).tables t' j) = true →
        ∃ c < m.pmm.total, (leafWrite m t i w).tables t' j = entry (pageAddr c) 7) ∧
    Maps slots roots k p i w m (leafWrite m t i w) := by
  have hother : ∀ t' j, t' ≠ t → (leafWrite m t i w).tables t' j = m.tables t' j :=
    fun t' j hne => Radix.write_other (.inl hne)
  have hkt : kernel ≠ t := by
    rintro rfl
    exact h.apart kernel h.kernelHeld k p hp ht
  refine ⟨fun j hj => ?_, fun k' r hr j hj hslot => ?_, fun k' q t' j hq hlen' hs hw => ?_,
    ⟨⟨rfl, rfl, fun f hf => hf, fun f j _ hno => ?_, fun q f hq hlen' hs => .inl ?_⟩,
      fun k' q f hq hlen' hs => (hseat k' q hq hlen').trans hs, fun k' q j hq hlen' => ?_⟩⟩
  · rw [hother kernel j hkt]
    exact h.kernelSlots j hj
  · have hrt := h.last_ne hp hlen ht (own_nil slots) (by simp) ((seat_nil roots m k').trans hr)
    rw [hother r j hrt, hother kernel j hkt]
    exact h.shared k' r hr j hj hslot
  · have hq' := (own slots).init q j hq
    rw [hseat k' q hq' (by omega)] at hs
    rw [hother t' j (h.last_ne hp hlen ht hq' hlen' hs)] at hw ⊢
    exact h.inner k' q t' j hq hlen' hs hw
  · refine hother f j ?_
    rintro rfl
    exact hno p hp (by omega) ht
  · rwa [hseat k q hq hlen'] at hs
  · have hq' := (own slots).init q j hq
    unfold leafAt
    rw [hseat k' q hq' (by omega)]
    split
    · rename_i heq
      obtain ⟨rfl, rfl, rfl⟩ := heq
      rw [ht]
      exact Radix.write_same _ _ _ _
    · rename_i hne
      cases hs : seat roots m k' q with
      | none => rfl
      | some t' =>
        refine Radix.write_other ?_
        by_contra hno
        obtain ⟨rfl, rfl⟩ : t' = t ∧ j = i := by simpa [not_or] using hno
        obtain ⟨rfl, rfl⟩ := h.unshared k' q k p t' hq' hp hs ht
        exact hne ⟨rfl, rfl, rfl⟩

theorem Space.unmapped (h : Space slots kernel roots base m) (hp : (own slots).Ok (p ++ [i])) (hlen : p.length = 3)
    (ht : seat roots m k p = some t) {w : BitVec 64} (hw : next 3 w = none) :
    Space slots kernel roots (fun f => base f ∨ next 3 (m.tables t i) = some f) (leafWrite m t i w) ∧
      Maps slots roots k p i w m (leafWrite m t i w) := by
  have hp' := (own slots).init p i hp
  have hseat : ∀ k' q, (own slots).Ok q → seat roots (leafWrite m t i w) k' q =
      if k' = k ∧ q = p ++ [i] then none else seat roots m k' q :=
    fun k' q hq => Radix.seat_prune next roots h.unshared hp ht (by rwa [hlen]) (own_long hlen) k' hq
  have hold : seat roots m k (p ++ [i]) = next 3 (m.tables t i) := by rw [seat_snoc, ht, Option.bind_some, hlen]
  obtain ⟨hslots, hshared, hinner, hmaps⟩ := h.leafWrite_rest hp' hlen ht w (i := i) fun k' q hq hq3 => by
    rw [hseat k' q hq, if_neg]
    rintro ⟨-, rfl⟩
    simp [hlen] at hq3
  have hsub : ∀ k' q f, (own slots).Ok q → seat roots (leafWrite m t i w) k' q = some f →
    seat roots m k' q = some f := by
    intro k' q f hq hs
    rw [hseat k' q hq] at hs
    split at hs
    · cases hs
    · exact hs
  refine ⟨⟨h.total, .inl h.null, fun f => ?_, fun f hf k' q hq hs => ?_,
    fun k₁ p₁ k₂ p₂ f h₁ h₂ hs₁ hs₂ => h.unshared k₁ p₁ k₂ p₂ f h₁ h₂ (hsub _ _ _ h₁ hs₁) (hsub _ _ _ h₂ hs₂),
    fun k' q f hq hs => h.inRange k' q f hq (hsub k' q f hq hs), .inl h.kernelHeld, hslots, hshared, hinner⟩, hmaps⟩
  · rw [show (leafWrite m t i w).pmm = m.pmm from rfl, h.used]
    constructor
    · rintro (hf | ⟨k', q, hq, hs⟩)
      · exact .inl (.inl hf)
      · by_cases heq : k' = k ∧ q = p ++ [i]
        · obtain ⟨rfl, rfl⟩ := heq
          exact .inl (.inr (hold ▸ hs))
        · exact .inr ⟨k', q, hq, by rwa [hseat k' q hq, if_neg heq]⟩
    · rintro ((hf | hf) | ⟨k', q, hq, hs⟩)
      · exact .inl hf
      · exact .inr ⟨k, p ++ [i], hp, hold.trans hf⟩
      · exact .inr ⟨k', q, hq, hsub k' q f hq hs⟩
  · have hs : seat roots (leafWrite m t i w) k' q = some f := hs
    rcases hf with hf | hf
    · exact h.apart f hf k' q hq (hsub k' q f hq hs)
    · obtain ⟨rfl, rfl⟩ := h.unshared k' q k (p ++ [i]) f hq hp (hsub k' q f hq hs) (hold.trans hf)
      rw [hseat k' _ hp, if_pos ⟨rfl, rfl⟩] at hs
      cases hs

theorem Space.mapped (h : Space slots kernel roots base m) (hp : (own slots).Ok (p ++ [i])) (hlen : p.length = 3)
    (ht : seat roots m k p = some t) (hempty : next 3 (m.tables t i) = none) {w : BitVec 64} (hw : next 3 w = some c)
    (hc : base c) (hk : c ≠ kernel) (hnull : c ≠ 0) (hlt : c < m.pmm.total) :
    Space slots kernel roots (fun f => base f ∧ f ≠ c) (leafWrite m t i w) ∧
      Maps slots roots k p i w m (leafWrite m t i w) := by
  have hp' := (own slots).init p i hp
  have hseat : ∀ k' q, (own slots).Ok q → seat roots (leafWrite m t i w) k' q =
      if k' = k ∧ q = p ++ [i] then some c else seat roots m k' q :=
    fun k' q hq => Radix.seat_grow next roots h.unshared hp ht (by rwa [hlen]) (by rwa [hlen]) (h.apart c hc)
      (fun j hj => absurd hj (own_long hlen j)) k' hq
  have hold : seat roots m k (p ++ [i]) = none := by rw [seat_snoc, ht, Option.bind_some, hlen, hempty]
  obtain ⟨hslots, hshared, hinner, hmaps⟩ := h.leafWrite_rest hp' hlen ht w (i := i) fun k' q hq hq3 => by
    rw [hseat k' q hq, if_neg]
    rintro ⟨-, rfl⟩
    simp [hlen] at hq3
  refine ⟨⟨h.total, ⟨h.null, hnull.symm⟩, fun f => ?_, fun f hf k' q hq hs => ?_,
    h.unshared.grow next roots (h.apart c hc) hseat, fun k' q f hq hs => ?_, ⟨h.kernelHeld, hk.symm⟩, hslots, hshared,
    hinner⟩, hmaps⟩
  · rw [show (leafWrite m t i w).pmm = m.pmm from rfl, h.used]
    constructor
    · rintro (hf | ⟨k', q, hq, hs⟩)
      · by_cases hfc : f = c
        · exact .inr ⟨k, p ++ [i], hp, by rw [hseat k _ hp, if_pos ⟨rfl, rfl⟩, hfc]⟩
        · exact .inl ⟨hf, hfc⟩
      · refine .inr ⟨k', q, hq, ?_⟩
        rw [hseat k' q hq]
        split
        · rename_i heq
          obtain ⟨rfl, rfl⟩ := heq
          rw [hold] at hs
          cases hs
        · exact hs
    · rintro (hf | ⟨k', q, hq, hs⟩)
      · exact .inl hf.1
      · rw [hseat k' q hq] at hs
        split at hs
        · obtain rfl := Option.some.inj hs
          exact .inl hc
        · exact .inr ⟨k', q, hq, hs⟩
  · have hs : seat roots (leafWrite m t i w) k' q = some f := hs
    rw [hseat k' q hq] at hs
    split at hs
    · exact hf.2 (Option.some.inj hs).symm
    · exact h.apart f hf.1 k' q hq hs
  · rw [hseat k' q hq] at hs
    split at hs
    · obtain rfl := Option.some.inj hs
      exact hlt
    · exact h.inRange k' q f hq hs

theorem leafWrite_twice (m : Vm) (t i : Nat) (w w' : BitVec 64) :
    leafWrite (leafWrite m t i w) t i w' = leafWrite m t i w' := by
  unfold leafWrite Radix.write
  congr 1
  funext t' j
  dsimp only
  split <;> rfl

theorem Space.remapped (h : Space slots kernel roots base m) (hp : (own slots).Ok (p ++ [i])) (hlen : p.length = 3)
    (ht : seat roots m k p = some t) {w : BitVec 64} (hw : next 3 w = some c) (hc : base c) (hk : c ≠ kernel)
    (hnull : c ≠ 0) (hlt : c < m.pmm.total) :
    Space slots kernel roots (fun f => (base f ∨ next 3 (m.tables t i) = some f) ∧ f ≠ c) (leafWrite m t i w) ∧
      Maps slots roots k p i w m (leafWrite m t i w) := by
  obtain ⟨hspace, hmaps⟩ := h.unmapped hp hlen ht (w := 0) (next_absent present_zero)
  have ht' := hmaps.old k p t ((own slots).init p i hp) (by omega) ht
  have hzero : (leafWrite m t i 0).tables t i = 0 := Radix.write_same _ _ _ _
  obtain ⟨hspace', hmaps'⟩ := hspace.mapped hp hlen ht' (by rw [hzero]; exact next_absent present_zero) hw (.inl hc) hk
    hnull hlt
  rw [leafWrite_twice] at hspace' hmaps'
  refine ⟨hspace', hmaps.toFrames.trans hmaps'.toFrames,
    fun k' q f hq hlen' hs => hmaps'.old k' q f hq hlen' (hmaps.old k' q f hq hlen' hs), fun k' q j hq hlen' => ?_⟩
  rw [hmaps'.leaf k' q j hq hlen']
  split
  · rfl
  · rename_i hne
    rw [hmaps.leaf k' q j hq hlen', if_neg hne]

/-! ## `paging_map_user` -/

/-- The tables on the way to the page. -/
def tablePath (virt : BitVec 64) : List Nat := [idxL4 virt, idxL3 virt, idxL2 virt]

theorem own_tablePath {virt : BitVec 64} (h : slots (idxL4 virt) = false) :
    (own slots).Ok (tablePath virt ++ [idxL1 virt]) := by
  refine ⟨by simp [tablePath], ?_, ?_⟩
  · simpa [tablePath] using ⟨idxL4_lt virt, idxL3_lt virt, idxL2_lt virt, idxL1_lt virt⟩
  · simpa [tablePath] using h

theorem Extends.maps {m₁ m₂ : Vm} {w : BitVec 64} (h : Extends slots roots k m m₁)
    (h' : Maps slots roots k p i w m₁ m₂) :
    Maps slots roots k p i w m m₂ where
  toFrames := h.toFrames.trans h'.toFrames
  old k' q f hq hlen hs := h'.old k' q f hq hlen (h.old k' q f hq hs)
  leaf k' q j hq hlen := by rw [h'.leaf k' q j hq hlen, h.leaf k' q j hq hlen]

/-- A page for a table was refused: the page has no table of the last level, and no page is free. -/
structure Starved (roots : Nat → Option Nat) (k : Nat) (virt : BitVec 64) (m : Vm) : Prop where
  absent : leafAt roots m k (tablePath virt) (idxL1 virt) = 0
  full : Full m.pmm

theorem mapUser_spec (h : Space slots kernel roots base m) {pml4 : Nat} {virt phys : BitVec 64} (flags : BitVec 64)
    (hroot : roots k = some pml4) (hslot : slots (idxL4 virt) = false) (hv : virt &&& 0xFFF = 0)
    (hph : phys &&& 0xFFF = 0) :
    (∃ m', mapUser pml4 virt phys flags m = (m', false) ∧ Space slots kernel roots base m' ∧
      Extends slots roots k m m' ∧ m'.pmm.refused = .table :: m.pmm.refused ∧ Starved roots k virt m') ∨
    (∃ m' l1, mapUser pml4 virt phys flags m = (leafWrite m' l1 (idxL1 virt) (entry phys flags), true) ∧
      Space slots kernel roots base m' ∧ Extends slots roots k m m' ∧ m'.pmm.refused = m.pmm.refused ∧
      seat roots m' k (tablePath virt) = some l1) := by
  have hok := own_tablePath hslot
  have hok' := (own slots).init _ _ hok
  have hs : seat roots m k [] = some pml4 := (seat_nil roots m k).trans hroot
  have hne : pml4 ≠ 0 := h.seated_ne_zero (own_nil slots) hs
  have hlen : ([] ++ tablePath virt).length ≤ 3 := by simp [tablePath]
  obtain ⟨m', c, heq, hspace, hext, hres⟩ := ensureTables_spec h hok' hlen hs
  unfold mapUser
  rw [if_neg (not_or.mpr ⟨hne, not_or.mpr ⟨not_not.mpr hv, not_not.mpr hph⟩⟩)]
  change ensureTables pml4 [idxL4 virt, idxL3 virt, idxL2 virt] m = (m', c) at heq
  rw [heq]
  rcases hres with ⟨hc, hseat, href⟩ | ⟨rfl, href, hnone, hfull⟩
  · right
    refine ⟨m', c, ?_, hspace, hext, href, hseat⟩
    cases c with
    | zero => exact absurd rfl hc
    | succ c => rfl
  · refine .inl ⟨m', rfl, hspace, hext, href, ?_, hfull⟩
    rw [List.nil_append] at hnone
    rw [leafAt, hnone]
    rfl

theorem mapUser_page (h : Space slots kernel roots base m) {pml4 : Nat} {virt flags : BitVec 64}
    (hroot : roots k = some pml4) (hslot : slots (idxL4 virt) = false) (hv : virt &&& 0xFFF = 0)
    (hflags : next 3 (entry (pageAddr c) flags) = some c) (hc : base c) (hk : c ≠ kernel) (hnull : c ≠ 0)
    (hlt : c < m.pmm.total) :
    (∃ m', mapUser pml4 virt (pageAddr c) flags m = (m', false) ∧ Space slots kernel roots base m' ∧
      Extends slots roots k m m' ∧ m'.pmm.refused = .table :: m.pmm.refused ∧ Starved roots k virt m') ∨
    (∃ m', mapUser pml4 virt (pageAddr c) flags m = (m', true) ∧
      Space slots kernel roots
        (fun f => (base f ∨ next 3 (leafAt roots m k (tablePath virt) (idxL1 virt)) = some f) ∧ f ≠ c) m' ∧
      Maps slots roots k (tablePath virt) (idxL1 virt) (entry (pageAddr c) flags) m m' ∧
      m'.pmm.refused = m.pmm.refused) := by
  have hph := pageAddr_aligned c
  have hok := own_tablePath hslot
  rcases mapUser_spec h flags hroot hslot hv hph with hrefused | ⟨m', l1, heq, hspace, hext, href, hseat⟩
  · exact .inl hrefused
  · right
    have hlt' : c < m'.pmm.total := by
      rw [hext.total]
      exact hlt
    obtain ⟨hspace', hmaps⟩ := hspace.remapped hok rfl hseat hflags hc hk hnull hlt'
    have hleaf : m'.tables l1 (idxL1 virt) = leafAt roots m k (tablePath virt) (idxL1 virt) := by
      rw [← hext.leaf k _ _ hok rfl, leafAt, hseat]
      rfl
    rw [hleaf] at hspace'
    exact ⟨_, heq, hspace', hext.maps hmaps, href⟩

theorem mapUser_mmio (h : Space slots kernel roots base m) {pml4 : Nat} {virt phys flags : BitVec 64}
    (hroot : roots k = some pml4) (hslot : slots (idxL4 virt) = false) (hv : virt &&& 0xFFF = 0)
    (hph : phys &&& 0xFFF = 0) (hflags : next 3 (entry phys flags) = none) :
    (∃ m', mapUser pml4 virt phys flags m = (m', false) ∧ Space slots kernel roots base m' ∧
      Extends slots roots k m m' ∧ m'.pmm.refused = .table :: m.pmm.refused ∧ Starved roots k virt m') ∨
    (∃ m', mapUser pml4 virt phys flags m = (m', true) ∧
      Space slots kernel roots
        (fun f => base f ∨ next 3 (leafAt roots m k (tablePath virt) (idxL1 virt)) = some f) m' ∧
      Maps slots roots k (tablePath virt) (idxL1 virt) (entry phys flags) m m' ∧
      m'.pmm.refused = m.pmm.refused) := by
  have hok := own_tablePath hslot
  rcases mapUser_spec h flags hroot hslot hv hph with hrefused | ⟨m', l1, heq, hspace, hext, href, hseat⟩
  · exact .inl hrefused
  · right
    obtain ⟨hspace', hmaps⟩ := hspace.unmapped hok rfl hseat hflags
    have hleaf : m'.tables l1 (idxL1 virt) = leafAt roots m k (tablePath virt) (idxL1 virt) := by
      rw [← hext.leaf k _ _ hok rfl, leafAt, hseat]
      rfl
    rw [hleaf] at hspace'
    exact ⟨_, heq, hspace', hext.maps hmaps, href⟩

end

end

end Siathos.Paging
