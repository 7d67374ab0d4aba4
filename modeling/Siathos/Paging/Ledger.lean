import Mathlib.Order.Interval.Finset.Nat
import Siathos.Paging.Frames
import Siathos.Paging.Tree

/-!
# The books of physical memory

`pmm_pages_used` is kept apart from the bitmap, by three operations that each count for themselves.
-/

open Lib

namespace Siathos.Frames

/-- The managed pages in use. -/
def usedPages (m : Bitmap) (total : Nat) : Finset Nat := (Finset.range total).filter fun j => m.bit j = true

theorem mem_usedPages {m : Bitmap} {total j : Nat} : j ∈ usedPages m total ↔ j < total ∧ m.bit j = true := by
  simp [usedPages]

/-! ## The loops -/

theorem usedPages_set {m : Bitmap} {total i : Nat} (hi : i < total) (hfree : m.bit i = false) :
    (usedPages (m.set i) total).card = (usedPages m total).card + 1 := by
  have hnew : i ∉ usedPages m total := by simp [mem_usedPages, hfree]
  have hset : usedPages (m.set i) total = insert i (usedPages m total) := by
    ext j
    rw [Finset.mem_insert, mem_usedPages, mem_usedPages, Bitmap.bit_set]
    by_cases hj : j = i
    · simp [hj, hi]
    · simp [hj, Ne.symm hj]
  rw [hset, Finset.card_insert_of_notMem hnew]

theorem usedPages_clear {m : Bitmap} {total i : Nat} (hi : i < total) :
    (usedPages (m.clear i) total).card + (if m.bit i then 1 else 0) = (usedPages m total).card := by
  have hclear : usedPages (m.clear i) total = (usedPages m total).erase i := by
    ext j
    rw [Finset.mem_erase, mem_usedPages, mem_usedPages, Bitmap.bit_clear]
    by_cases hj : j = i
    · simp [hj]
    · simp [hj, Ne.symm hj]
  rw [hclear]
  split_ifs with hbit
  · exact Finset.card_erase_add_one (mem_usedPages.mpr ⟨hi, hbit⟩)
  · rw [Finset.erase_eq_of_notMem (by simp [mem_usedPages, hbit]), Nat.add_zero]

theorem countUsed_eq (m : Bitmap) (total : Nat) : countUsed m total = (usedPages m total).card := by
  induction total with
  | zero => rfl
  | succ n ih =>
    rw [countUsed, ih]
    unfold usedPages
    rw [Finset.range_add_one, Finset.filter_insert]
    split_ifs
    · rw [Finset.card_insert_of_notMem (by simp)]
    · rfl

theorem setPages_bit (n i : Nat) (m : Bitmap) (j : Nat) :
    (setPages n i m).bit j = (m.bit j || decide (i ≤ j ∧ j < i + n)) := by
  induction n generalizing i m with
  | zero => simp [setPages]
  | succ n ih =>
    rw [setPages, ih, Bitmap.bit_set, Bool.or_assoc, ← Bool.decide_or]
    congr 2
    simp only [eq_iff_iff]
    omega

theorem setPages_card {n i total : Nat} {m : Bitmap}
    (h : ∀ j, i ≤ j → j < i + n → j < total ∧ m.bit j = false) :
    (usedPages (setPages n i m) total).card = (usedPages m total).card + n := by
  induction n generalizing i m with
  | zero => rfl
  | succ n ih =>
    obtain ⟨hi, hfree⟩ := h i (Nat.le_refl i) (by omega)
    rw [setPages, ih, usedPages_set hi hfree]
    · omega
    · intro j hj hj'
      have hne : i ≠ j := by omega
      have hrest := h j (by omega) (by omega)
      exact ⟨hrest.1, by simp [hrest.2, hne]⟩

theorem freePages_bit (total n i : Nat) (r : Bitmap × Nat) (j : Nat) :
    (freePages total n i r).1.bit j = (r.1.bit j && !decide (i ≤ j ∧ j < i + n ∧ j < total)) := by
  induction n generalizing i r with
  | zero =>
    have hempty : ¬ (i ≤ j ∧ j < i + 0 ∧ j < total) := by omega
    rw [freePages, decide_eq_false hempty, Bool.not_false, Bool.and_true]
  | succ n ih =>
    unfold freePages
    by_cases hi : i ≥ total
    · rw [if_pos hi, ih]
      congr 3
      simp only [eq_iff_iff]
      omega
    · rw [if_neg hi, ih]
      dsimp only
      rw [Bitmap.bit_clear, Bool.and_assoc, ← Bool.not_or, ← Bool.decide_or]
      congr 3
      simp only [eq_iff_iff]
      omega

theorem freePages_card (total n i : Nat) (r : Bitmap × Nat) :
    (usedPages (freePages total n i r).1 total).card + (freePages total n i r).2 =
      (usedPages r.1 total).card + r.2 := by
  induction n generalizing i r with
  | zero => rfl
  | succ n ih =>
    unfold freePages
    by_cases hi : i ≥ total
    · rw [if_pos hi]
      exact ih _ r
    · have hclear := usedPages_clear (m := r.1) (Nat.lt_of_not_le hi)
      rw [if_neg hi, ih]
      dsimp only
      split_ifs at hclear ⊢ <;> omega

theorem reservePages_bit (n i : Nat) (s : Memory) (j : Nat) :
    (reservePages n i s).bitmap.bit j = (s.bitmap.bit j || decide (i ≤ j ∧ j < i + n ∧ j < s.total)) ∧
      (reservePages n i s).total = s.total := by
  induction n generalizing i s with
  | zero =>
    have hempty : ¬ (i ≤ j ∧ j < i + 0 ∧ j < s.total) := by omega
    rw [reservePages, decide_eq_false hempty, Bool.or_false]
    exact ⟨rfl, rfl⟩
  | succ n ih =>
    have hpage : (reservePage s i).bitmap.bit j = (s.bitmap.bit j || decide (i = j ∧ j < s.total)) ∧
        (reservePage s i).total = s.total := by
      unfold reservePage
      split_ifs with hi hbit
      · have hout : ¬ (i = j ∧ j < s.total) := by omega
        simp [hout]
      · have hin : i = j ∧ j < s.total ↔ i = j := by omega
        simp [hin]
      · have hset : s.bitmap.bit i = true := by simpa using hbit
        by_cases hj : i = j
        · simp [← hj, hset]
        · simp [hj]
    rw [reservePages]
    obtain ⟨hbit, htotal⟩ := ih (i + 1) (reservePage s i)
    refine ⟨?_, htotal.trans hpage.2⟩
    rw [hbit, hpage.1, hpage.2, Bool.or_assoc, ← Bool.decide_or]
    congr 2
    simp only [eq_iff_iff]
    omega

/-! ## The books -/

/-- The counter is right, page 0 is reserved, and the bitmap has a bit for every managed page. -/
structure Kept (s : Memory) : Prop where
  counted : s.used = (usedPages s.bitmap s.total).card
  nullPage : s.bitmap.bit 0 = true
  bounded : s.total ≤ pmmBitmapSize * 8

theorem reservePage_counted {s : Memory} (h : s.used = (usedPages s.bitmap s.total).card) (i : Nat) :
    (reservePage s i).used = (usedPages (reservePage s i).bitmap (reservePage s i).total).card := by
  unfold reservePage
  split_ifs with hi hbit
  · exact h
  · rw [usedPages_set (Nat.lt_of_not_le hi) (by simpa using hbit), h]
  · exact h

theorem reservePages_counted (n i : Nat) {s : Memory} (h : s.used = (usedPages s.bitmap s.total).card) :
    (reservePages n i s).used = (usedPages (reservePages n i s).bitmap (reservePages n i s).total).card := by
  induction n generalizing i s with
  | zero => exact h
  | succ n ih => exact ih _ (reservePage_counted h i)

theorem Kept.reserve {s : Memory} (h : Kept s) (base size : BitVec 64) : Kept (pmmReserve s base size) := by
  unfold pmmReserve
  split_ifs
  · exact h
  · have hbit := reservePages_bit (((base + size + 0xFFF &&& pageMask).toNat - (base &&& pageMask).toNat) / 4096)
      ((base &&& pageMask).toNat / 4096) s 0
    refine ⟨reservePages_counted _ _ h.counted, ?_, ?_⟩
    · rw [hbit.1, h.nullPage, Bool.true_or]
    · rw [hbit.2]
      exact h.bounded

theorem Kept.free {s : Memory} (h : Kept s) {addr : BitVec 64} (haddr : 0x1000 ≤ addr.toNat) (pages : Nat) :
    Kept (pmmFree s addr pages) := by
  unfold pmmFree
  split_ifs
  · exact h
  · have hcard := freePages_card s.total pages (addr.toNat / 4096) (s.bitmap, 0)
    have hbit := freePages_bit s.total pages (addr.toNat / 4096) (s.bitmap, 0) 0
    have hout : ¬ (addr.toNat / 4096 ≤ 0 ∧ 0 < addr.toNat / 4096 + pages ∧ 0 < s.total) := by omega
    have hcounted := h.counted
    dsimp only at hcard hbit ⊢
    refine ⟨?_, ?_, h.bounded⟩
    · dsimp only
      split_ifs <;> omega
    · dsimp only
      rw [hbit, h.nullPage, decide_eq_false hout]
      rfl

theorem freeRun_iff {s : Memory} {n i : Nat} :
    freeRun s n i = true ↔ ∀ j, i ≤ j → j < i + n → j < s.total ∧ s.bitmap.bit j = false := by
  induction n generalizing i with
  | zero => exact iff_of_true rfl fun j hj hj' => absurd hj' (by omega)
  | succ n ih =>
    unfold freeRun
    split_ifs with hstop
    · refine iff_of_false (by simp) fun hall => ?_
      have hfirst := hall i (Nat.le_refl i) (by omega)
      simp only [Bool.or_eq_true, decide_eq_true_eq] at hstop
      rcases hstop with hstop | hstop
      · omega
      · rw [hfirst.2] at hstop
        cases hstop
    · simp only [Bool.or_eq_true, decide_eq_true_eq, not_or, Bool.not_eq_true] at hstop
      rw [ih]
      constructor
      · intro hrest j hj hj'
        rcases Nat.eq_or_lt_of_le hj with rfl | hlater
        · exact ⟨by omega, hstop.2⟩
        · exact hrest j hlater (by omega)
      · exact fun hall j hj hj' => hall j (by omega) (by omega)

theorem Kept.alloc {s : Memory} (h : Kept s) (pages : Nat) : Kept (pmmAlloc s pages).1 := by
  unfold pmmAlloc
  split_ifs
  · exact h
  cases hfind : (List.range s.total).find? (freeRun s pages) with
  | none => exact h
  | some i =>
    have hrun := freeRun_iff.mp (List.find?_some hfind)
    refine ⟨?_, ?_, h.bounded⟩
    · dsimp only
      rw [setPages_card hrun, h.counted]
    · dsimp only
      rw [setPages_bit, h.nullPage, Bool.true_or]

theorem Kept.step {s t : Memory} {e : Event} (h : Kept s) (hstep : Step s e t) : Kept t := by
  cases hstep with
  | reserve base size => exact h.reserve base size
  | alloc pages => exact h.alloc pages
  | free addr pages haddr => exact h.free haddr pages

/-! ## Boot -/

theorem pmmReserve_total (s : Memory) (base size : BitVec 64) : (pmmReserve s base size).total = s.total := by
  unfold pmmReserve
  split_ifs
  · rfl
  · exact (reservePages_bit _ _ s 0).2

theorem pagesTotal_bounds (memmap : List MemmapEntry) :
    0 < pagesTotal memmap ∧ pagesTotal memmap ≤ pmmBitmapSize * 8 := by
  unfold pagesTotal
  dsimp only
  split_ifs <;> simp only [pmmBitmapSize] at * <;> omega

theorem lowUsed_bounds (memmap : List MemmapEntry) :
    0 < (lowUsed memmap).toNat ∧ (lowUsed memmap).toNat ≤ 0x100000 := by
  unfold lowUsed
  dsimp only
  split_ifs with h
  · decide
  · rw [not_or] at h
    refine ⟨?_, by omega⟩
    rw [Nat.pos_iff_ne_zero]
    exact fun hzero => h.1 (BitVec.eq_of_toNat_eq hzero)

theorem reserve_low {s : Memory} (htotal : 0 < s.total) {low : BitVec 64} (hpos : 0 < low.toNat)
    (hlow : low.toNat ≤ 0x100000) : (pmmReserve s 0 low).bitmap.bit 0 = true := by
  have hne : low ≠ 0 := by
    rintro rfl
    exact absurd hpos (by decide)
  have hfin : (0 + low + 0xFFF).toNat = low.toNat + 0xFFF := by
    simp only [BitVec.toNat_add]
    simp
    omega
  have hstart : (0 : BitVec 64).toNat = 0 := rfl
  unfold pmmReserve pageMask
  rw [if_neg hne]
  dsimp only
  rw [(reservePages_bit _ _ s 0).1, Paging.toNat_pageFloor, Paging.toNat_pageFloor, hfin, hstart]
  simp only [Bool.or_eq_true, decide_eq_true_eq]
  omega

theorem pmmInit_eq {addr : BitVec 64} {bi : BootInfo} {s : Memory} (h : pmmInit addr bi = some s) :
    ∃ s₁ : Memory, s₁.total = pagesTotal bi.memmap ∧
      s = { pmmReserve s₁ 0 (lowUsed bi.memmap) with
        used := countUsed (pmmReserve s₁ 0 (lowUsed bi.memmap)).bitmap
          (pmmReserve s₁ 0 (lowUsed bi.memmap)).total } := by
  unfold pmmInit at h
  by_cases hbad : addr = 0 ∨ bi.magic ≠ thaisBootMagic
  · rw [if_pos hbad] at h
    cases h
  · rw [if_neg hbad] at h
    refine ⟨_, ?_, (Option.some.inj h).symm⟩
    rw [pmmReserve_total]
    split_ifs <;> simp only [pmmReserve_total]

theorem Kept.boot {addr : BitVec 64} {bi : BootInfo} {s : Memory} (h : pmmInit addr bi = some s) : Kept s := by
  obtain ⟨s₁, htotal, rfl⟩ := pmmInit_eq h
  obtain ⟨hpos, hle⟩ := pagesTotal_bounds bi.memmap
  obtain ⟨hlow, hlow'⟩ := lowUsed_bounds bi.memmap
  rw [← htotal] at hpos hle
  refine ⟨countUsed_eq _ _, reserve_low hpos hlow hlow', ?_⟩
  rw [← pmmReserve_total s₁ 0 (lowUsed bi.memmap)] at hle
  exact hle

/-! ## The PMM of the page tables -/

/-- The bitmap as the set of pages that the page tables are modelled over. -/
def Memory.pmm (s : Memory) : Paging.Pmm := ⟨s.total, s.bitmap.bit, [], false⟩

theorem fits_pmm {s : Memory} {pages i : Nat} (h : pages ≠ 0) : s.pmm.fits pages i = freeRun s pages i := by
  rw [Bool.eq_iff_iff, Paging.fits_iff, freeRun_iff]
  constructor
  · rintro ⟨hle, hfree⟩ j hj hj'
    have := hfree (j - i) (by omega)
    rw [Nat.add_sub_cancel' hj] at this
    exact ⟨by simpa [Memory.pmm] using (show j < s.pmm.total by omega), this⟩
  · intro hrun
    have hlast := (hrun (i + (pages - 1)) (by omega) (by omega)).1
    exact ⟨by simpa [Memory.pmm] using (show i + pages ≤ s.total by omega),
      fun b hb => (hrun (i + b) (by omega) (by omega)).2⟩

/-- `pmm_alloc` of the bitmap is the one of the set. -/
theorem pmmAlloc_refines (s : Memory) (why : Paging.Purpose) (pages : Nat) :
    (pmmAlloc s pages).2 = BitVec.ofNat 64 (Paging.pmmAlloc s.pmm why pages).2 <<< 12 ∧
      (pmmAlloc s pages).1.bitmap.bit = (Paging.pmmAlloc s.pmm why pages).1.used ∧
      (pmmAlloc s pages).1.total = (Paging.pmmAlloc s.pmm why pages).1.total := by
  unfold pmmAlloc Paging.pmmAlloc
  split_ifs with hpages
  · exact ⟨rfl, rfl, rfl⟩
  have hfits : s.pmm.fits pages = freeRun s pages := funext fun i => fits_pmm hpages
  have htotal : s.pmm.total = s.total := rfl
  rw [hfits, htotal]
  cases (List.range s.total).find? (freeRun s pages) with
  | none => exact ⟨rfl, rfl, rfl⟩
  | some i => exact ⟨rfl, funext fun j => setPages_bit pages i s.bitmap j, rfl⟩

/-- So is `pmm_free`. -/
theorem pmmFree_refines (s : Memory) {addr : BitVec 64} (haddr : 0x1000 ≤ addr.toNat) (pages : Nat) :
    (pmmFree s addr pages).bitmap.bit = (Paging.pmmFree s.pmm (addr.toNat / 4096) pages).used ∧
      (pmmFree s addr pages).total = s.total := by
  have hne : addr ≠ 0 := by
    rintro rfl
    exact absurd haddr (by decide)
  have hpage : addr.toNat / 4096 ≠ 0 := by omega
  unfold pmmFree Paging.pmmFree
  by_cases hpages : pages = 0
  · simp [hpages, Memory.pmm]
  · rw [if_neg (not_or.mpr ⟨hne, hpages⟩), if_neg (by simp [hpage, hpages])]
    exact ⟨funext fun j => freePages_bit s.total pages _ (s.bitmap, 0) j, rfl⟩

/-! ## One call of pmm_alloc -/

/-- What is granted was free and is marked, and nothing else is. Where nothing is granted there is no
free run. -/
structure AllocLaw (s : Memory) (pages : Nat) : Prop where
  aligned : (pmmAlloc s pages).2.toNat % 4096 = 0
  grants : (pmmAlloc s pages).2 ≠ 0 → ∀ page, Covers (pmmAlloc s pages).2 pages page →
    page < s.total ∧ s.bitmap.bit page = false
  marks : (pmmAlloc s pages).2 ≠ 0 → ∀ page, (pmmAlloc s pages).1.bitmap.bit page = true ↔
    s.bitmap.bit page = true ∨ Covers (pmmAlloc s pages).2 pages page
  refuses : (pmmAlloc s pages).2 = 0 → ∀ i, ∃ page, i ≤ page ∧ page < i + pages ∧
    ¬ (page < s.total ∧ s.bitmap.bit page = false)

theorem toNat_address {f : Nat} (h : f < pmmBitmapSize * 8) : (BitVec.ofNat 64 f <<< 12).toNat = f * 4096 := by
  simp only [pmmBitmapSize] at h
  rw [BitVec.toNat_shiftLeft, BitVec.toNat_ofNat, Nat.shiftLeft_eq]
  omega

theorem Kept.allocLaw {s : Memory} (h : Kept s) {pages : Nat} (hpages : 1 ≤ pages) : AllocLaw s pages := by
  obtain ⟨haddr, hbit, -⟩ := pmmAlloc_refines s .heap pages
  rcases Paging.pmmAlloc_grows (show s.pmm.used 0 = true from h.nullPage) .heap (show pages ≠ 0 by omega) with
    ⟨hno, hzero, -⟩ | ⟨-, hne, htakes⟩
  · rw [hzero] at haddr
    have hnull : (pmmAlloc s pages).2 = 0 := haddr
    refine ⟨by rw [hnull]; rfl, fun hne => absurd hnull hne, fun hne => absurd hnull hne, fun _ i => ?_⟩
    have hrun := hno i
    rw [fits_pmm (by omega), ← Bool.not_eq_true, freeRun_iff] at hrun
    push Not at hrun
    obtain ⟨page, hpage, hpage', hused⟩ := hrun
    exact ⟨page, hpage, hpage', fun hfree => hused hfree.1 hfree.2⟩
  · have hin := (htakes.free _ (Nat.le_refl _) (by omega)).2
    have hbounded : (Paging.pmmAlloc s.pmm .heap pages).2 < pmmBitmapSize * 8 := Nat.lt_of_lt_of_le hin h.bounded
    have hnat := toNat_address hbounded
    rw [← haddr] at hnat
    have hcovers : ∀ page, Covers (pmmAlloc s pages).2 pages page ↔
        (Paging.pmmAlloc s.pmm .heap pages).2 ≤ page ∧ page < (Paging.pmmAlloc s.pmm .heap pages).2 + pages := by
      intro page
      unfold Covers
      rw [hnat, Nat.mul_div_cancel _ (by decide)]
    refine ⟨by omega, fun _ page hpage => ?_, fun _ page => ?_, fun hnull => ?_⟩
    · obtain ⟨hlow, hhigh⟩ := (hcovers page).mp hpage
      exact (htakes.free page hlow hhigh).symm
    · rw [hcovers, hbit]
      exact htakes.used page
    · rw [hnull] at hnat
      simp at hnat
      exact absurd hnat hne

theorem Kept.pmmFreeMem {s : Memory} (h : Kept s) :
    pmmFreeMem s = ((Finset.range s.total).filter fun j => ¬ s.bitmap.bit j = true).card * 4096 := by
  have hall := Finset.card_filter_add_card_filter_not (s := Finset.range s.total) fun j => s.bitmap.bit j = true
  rw [Finset.card_range] at hall
  have hcounted := h.counted
  unfold usedPages at hcounted
  unfold Frames.pmmFreeMem
  congr 1
  omega

theorem pmmRangeFree_iff (s : Memory) (base : BitVec 64) (pages : Nat) :
    pmmRangeFree s base pages = true ↔
      ∀ page, Covers base pages page → page < s.total ∧ s.bitmap.bit page = false := by
  unfold pmmRangeFree Covers
  rw [freeRun_iff]
  exact forall_congr' fun page => and_imp.symm

/-! ## Calls in a row -/

/-- The call frees the page. -/
def Event.Frees (page : Nat) : Event → Prop
  | .free addr pages => Covers addr pages page
  | _ => False

/-- Two allocations that share a page have a free of it in between. -/
def Exclusive (es : List Event) : Prop :=
  ∀ before between after n a n' a', es = before ++ .alloc n a :: (between ++ .alloc n' a' :: after) →
    a ≠ 0 → a' ≠ 0 → ∀ page, Covers a n page → Covers a' n' page → ∃ e ∈ between, e.Frees page

theorem Step.stays {s t : Memory} {e : Event} (h : Step s e t) {page : Nat} (hused : s.bitmap.bit page = true)
    (hfree : ¬ e.Frees page) : t.bitmap.bit page = true := by
  cases h with
  | reserve base size =>
    unfold pmmReserve
    split_ifs
    · exact hused
    · rw [(reservePages_bit _ _ s page).1, hused, Bool.true_or]
  | alloc pages hpages =>
    unfold pmmAlloc
    split_ifs
    · exact hused
    · cases (List.range s.total).find? (freeRun s pages) with
      | none => exact hused
      | some i =>
        dsimp only
        rw [setPages_bit, hused, Bool.true_or]
  | free addr pages haddr =>
    have hout : ¬ (addr.toNat / 4096 ≤ page ∧ page < addr.toNat / 4096 + pages ∧ page < s.total) :=
      fun h => hfree ⟨h.1, h.2.1⟩
    unfold pmmFree
    split_ifs
    · exact hused
    · dsimp only
      rw [freePages_bit, hused, decide_eq_false hout]
      rfl

theorem stays_run {s t : Memory} {es : List Event} (h : Run Step s es t) {page : Nat}
    (hused : s.bitmap.bit page = true) (hfree : ∀ e ∈ es, ¬ e.Frees page) : t.bitmap.bit page = true := by
  induction h with
  | nil _ => exact hused
  | cons hstep _ ih =>
    rw [List.forall_mem_cons] at hfree
    exact ih (hstep.stays hused hfree.1) hfree.2

theorem exclusive_run {s t : Memory} {es : List Event} (hs : Kept s) (h : Run Step s es t) : Exclusive es := by
  rintro before between after n a n' a' rfl ha ha' page hpage hpage'
  obtain ⟨s₁, hbefore, hrest⟩ := h.split
  have hs₁ : Kept s₁ := hbefore.invariant (fun _ _ _ hk hstep => hk.step hstep) hs
  cases hrest with
  | cons hfirst hrest =>
    cases hfirst with
    | alloc _ hn =>
      have hs₂ := hs₁.alloc n
      have hmarked := ((hs₁.allocLaw hn).marks ha page).mpr (Or.inr hpage)
      obtain ⟨s₃, hbetween, hlast⟩ := hrest.split
      have hs₃ : Kept s₃ := hbetween.invariant (fun _ _ _ hk hstep => hk.step hstep) hs₂
      cases hlast with
      | cons hsecond _ =>
        cases hsecond with
        | alloc _ hn' =>
          have hfree := ((hs₃.allocLaw hn').grants ha' page hpage').2
          by_contra hnone
          push Not at hnone
          rw [stays_run hbetween hmarked hnone] at hfree
          cases hfree

theorem pmm_ledger {addr : BitVec 64} {bi : BootInfo} {s₀ : Memory} (hinit : pmmInit addr bi = some s₀)
    {es : List Event} {s : Memory} (h : Run Step s₀ es s) :
    s.bitmap.bit 0 = true ∧ s.used = (usedPages s.bitmap s.total).card ∧
      (∀ pages, 1 ≤ pages → AllocLaw s pages) ∧ Exclusive es := by
  have hboot := Kept.boot hinit
  have hs : Kept s := h.invariant (fun _ _ _ hk hstep => hk.step hstep) hboot
  exact ⟨hs.nullPage, hs.counted, fun pages hpages => hs.allocLaw hpages, exclusive_run hboot h⟩

/-- A machine with 12 pages, of which the first three are low memory. -/
def smallBoot : BootInfo := ⟨thaisBootMagic, 0, 0, 0, 0, [⟨0x3000, 0x8000, 1⟩], 0, 0⟩

def smallMemory : Memory := (pmmInit 0x1000 smallBoot).getD ⟨fun _ => 0, 0, 0⟩

theorem pmm_ledger_small :
    AllocLaw (pmmAlloc smallMemory 2).1 3 ∧ Exclusive [.alloc 2 (pmmAlloc smallMemory 2).2] := by
  have hinit : pmmInit 0x1000 smallBoot = some smallMemory := rfl
  have h := pmm_ledger hinit (.cons (.alloc smallMemory 2 (by decide)) (.nil _))
  exact ⟨h.2.2.1 3 (by decide), h.2.2.2⟩

end Siathos.Frames
