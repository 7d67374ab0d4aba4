import Mathlib.Order.Interval.Finset.Nat
import Siathos.Heap.Safety
import Siathos.Paging.Tree

/-!
# The heap and the PMM (`kmalloc`)

The heap grows by chunks of 256 pages, whatever the request. One that is larger takes chunk after
chunk, until the PMM has no more, and gets nothing.
-/

open Lib Lib.Span Siathos.Paging

namespace Siathos.Heap

/-- The pages that the PMM can still give. -/
def freePages (pmm : Pmm) : Finset Nat := (Finset.range pmm.total).filter fun j => pmm.used j = false

theorem mem_freePages {pmm : Pmm} {j : Nat} : j ∈ freePages pmm ↔ j < pmm.total ∧ pmm.used j = false := by
  simp [freePages]

theorem freePages_takes {pmm pmm' : Pmm} {f pages : Nat} (htakes : Takes pmm pmm' f pages)
    (hpages : 0 < pages) : freePages pmm' ⊂ freePages pmm := by
  refine Finset.ssubset_iff_subset_ne.mpr ⟨fun j hj => ?_, fun heq => ?_⟩
  · rw [mem_freePages, htakes.total] at hj
    refine mem_freePages.mpr ⟨hj.1, ?_⟩
    by_contra hused
    rw [(htakes.used j).mpr (Or.inl (by simpa using hused))] at hj
    exact absurd hj.2 (by decide)
  · have hfirst := htakes.free f (Nat.le_refl _) (Nat.lt_add_of_pos_right hpages)
    have hmem := mem_freePages.mpr ⟨hfirst.2, hfirst.1⟩
    rw [← heq, mem_freePages,
      (htakes.used f).mpr (Or.inr ⟨Nat.le_refl _, Nat.lt_add_of_pos_right hpages⟩)] at hmem
    exact absurd hmem.2 (by decide)

theorem freePages_alloc {pmm : Pmm} {why : Purpose} {pages : Nat} (hpages : 0 < pages)
    (h : (pmmAlloc pmm why pages).2 ≠ 0) : freePages (pmmAlloc pmm why pages).1 ⊂ freePages pmm :=
  freePages_takes (pmmAlloc_takes rfl h) hpages

structure Machine where
  heap : HeapState
  pmm : Pmm

/-- `kmalloc`, with the PMM that it asks. It ends, as each chunk is of pages that were free. -/
def kmallocPmm (m : Machine) (size : Nat) : Machine × Result :=
  match kmallocHere m.heap size with
  | some (heap, r) => ({ m with heap }, r)
  | none =>
    let more := pmmAlloc m.pmm .heap 256
    if more.2 = 0 then ({ m with pmm := more.1 }, .null)
    else kmallocPmm ⟨m.heap.grow (more.2 * 4096), more.1⟩ (roundUp16 size)
  termination_by (freePages m.pmm).card
  decreasing_by exact Finset.card_lt_card (freePages_alloc (by decide) ‹_›)

/-- `heap_init`. -/
def heapInitPmm (pmm : Pmm) : Machine :=
  let mem := pmmAlloc pmm .heap 1024
  ⟨heapInit (if mem.2 = 0 then none else some (mem.2 * 4096)), mem.1⟩

/-- It is the `kmalloc` of the heap alone, for what the PMM answers. -/
theorem kmallocPmm_eq (m : Machine) (size : Nat) :
    ∃ grants, ((kmallocPmm m size).1.heap, (kmallocPmm m size).2) = kmalloc m.heap size grants := by
  fun_induction kmallocPmm m size with
  | case1 m size heap r hhere => exact ⟨[], by simp [kmalloc, hhere]⟩
  | case2 m size hhere more hnone => exact ⟨[], by simp [kmalloc, hhere]⟩
  | case3 m size hhere more hsome ih =>
    obtain ⟨grants, hgrants⟩ := ih
    exact ⟨more.2 * 4096 :: grants, by rw [hgrants]; simp [kmalloc, hhere]⟩

/-! ## Runs -/

inductive Event
  | kmalloc (size : Nat)
  | kfree (p : Nat)
  /-- The rest of the kernel takes and returns pages. -/
  | pages (pmm : Pmm)

/-- Nobody frees page 0. -/
inductive Happens : Machine → Event → Machine → Prop
  | kmalloc (m : Machine) (size : Nat) : Happens m (.kmalloc size) (kmallocPmm m size).1
  | kfree (m : Machine) (p : Nat) : Happens m (.kfree p) { m with heap := kfree m.heap p }
  | pages (m : Machine) (pmm : Pmm) (h : pmm.used 0 = true) : Happens m (.pages pmm) { m with pmm }

/-- The headers are whole, sizes are multiples of 16, and page 0 is not free. -/
structure Intact (m : Machine) : Prop where
  magic : ∀ n ∈ m.heap.nodes, n.magic = heapMagic
  aligned : ∀ n ∈ m.heap.nodes, 16 ∣ n.size
  nullPage : m.pmm.used 0 = true

theorem roundUp16_dvd (size : Nat) : 16 ∣ roundUp16 size := by
  unfold roundUp16
  omega

theorem roundUp16_twice (size : Nat) : roundUp16 (roundUp16 size) = roundUp16 size := by
  unfold roundUp16
  omega

theorem carve_aligned {cur : HeapNode} {size : Nat} (hcur : 16 ∣ cur.size) (hsize : 16 ∣ size) :
    ∀ n ∈ carve cur size, 16 ∣ n.size := by
  unfold carve sizeofHeapNode
  split_ifs
  · intro n hn
    rcases List.mem_pair.mp hn with rfl | rfl
    · exact hsize
    · dsimp only
      omega
  · simpa using hcur

theorem aligned_lasting : Lasting fun n => 16 ∣ n.size where
  merge hn hm := Nat.dvd_add hn (Nat.dvd_add (by decide : 16 ∣ sizeofHeapNode) hm)
  free h := h

theorem Intact.grow {m : Machine} (hm : Intact m) {pmm : Pmm} (hnull : pmm.used 0 = true) (more : Nat) :
    Intact ⟨m.heap.grow more, pmm⟩ := by
  refine ⟨?_, ?_, hnull⟩
  all_goals
    simp only [HeapState.grow, List.forall_mem_append, List.forall_mem_singleton]
  · exact ⟨hm.magic, rfl⟩
  · exact ⟨hm.aligned, by simp [freshNode, sizeofHeapNode]⟩

theorem Intact.alloc {m : Machine} (hm : Intact m) (why : Purpose) {pages : Nat} (hpages : pages ≠ 0) :
    (pmmAlloc m.pmm why pages).1.used 0 = true := by
  rcases pmmAlloc_grows hm.nullPage why hpages with ⟨-, -, heq⟩ | ⟨-, -, htakes⟩
  · rw [heq]
    exact hm.nullPage
  · exact (htakes.used 0).mpr (Or.inl hm.nullPage)

/-! ## The cases of one call -/

/-- A node that `kmalloc` takes for the request. -/
def hole (m : Machine) (size : Nat) : Option HeapNode := m.heap.nodes.find? (fits (roundUp16 size))

theorem kmallocPmm_cases {m : Machine} (hm : Intact m) (size : Nat) :
    ((m.heap.ready = false ∨ size = 0) ∧ kmallocPmm m size = (m, .null)) ∨
    (∃ pre post cur, m.heap.nodes = pre ++ cur :: post ∧ hole m size = some cur ∧
      kmallocPmm m size = ({ m with heap := m.heap.take pre post cur (roundUp16 size) }, .ptr cur.ptr)) ∨
    (hole m size = none ∧ (∀ i, m.pmm.fits 256 i = false) ∧
      kmallocPmm m size = ({ m with pmm := { m.pmm with refused := .heap :: m.pmm.refused } }, .null)) ∨
    (hole m size = none ∧ m.heap.ready = true ∧ size ≠ 0 ∧ ∃ f pmm, m.pmm.fits 256 f = true ∧
      Takes m.pmm pmm f 256 ∧ pmm.used 0 = true ∧
      kmallocPmm m size = kmallocPmm ⟨m.heap.grow (f * 4096), pmm⟩ (roundUp16 size)) := by
  rcases kmallocHere_cases size hm.magic with ⟨hrefused, hnull⟩ | ⟨pre, post, cur, hns, hf, htake⟩ | ⟨hnone, hhere⟩
  · refine Or.inl ⟨hrefused, ?_⟩
    unfold kmallocPmm
    rw [hnull]
  · refine Or.inr (Or.inl ⟨pre, post, cur, hns, hf, ?_⟩)
    unfold kmallocPmm
    rw [htake]
  · refine Or.inr (Or.inr ?_)
    have hready : m.heap.ready = true ∧ size ≠ 0 := by
      unfold kmallocHere at hhere
      split_ifs at hhere with h
      simpa using h
    rcases pmmAlloc_grows hm.nullPage .heap (show 256 ≠ 0 by decide) with ⟨hfits, hzero, heq⟩ | ⟨hfits, hne, htakes⟩
    · refine Or.inl ⟨hnone, hfits, ?_⟩
      unfold kmallocPmm
      rw [hhere]
      simp only [hzero, if_true, heq]
    · refine Or.inr ⟨hnone, hready.1, hready.2, _, _, hfits, htakes, hm.alloc .heap (by decide), ?_⟩
      rw [kmallocPmm, hhere]
      simp only [hne, if_false]

theorem Intact.kmalloc {m : Machine} (hm : Intact m) (size : Nat) : Intact (kmallocPmm m size).1 := by
  induction hpages : (freePages m.pmm).card using Nat.strong_induction_on generalizing m size with
  | _ k ih =>
    rcases kmallocPmm_cases hm size with ⟨-, h⟩ | ⟨pre, post, cur, hns, -, h⟩ | ⟨-, -, h⟩ |
      ⟨-, -, -, f, pmm, -, htakes, hnull, h⟩
    · rw [h]
      exact hm
    · rw [h]
      exact ⟨forall_take hm.magic hns carve_magic,
        forall_take hm.aligned hns fun hcur => carve_aligned hcur (roundUp16_dvd size), hm.nullPage⟩
    · rw [h]
      exact ⟨hm.magic, hm.aligned, hm.nullPage⟩
    · rw [h]
      have hless := Finset.card_lt_card (freePages_takes htakes (by decide))
      rw [hpages] at hless
      exact ih _ hless (hm.grow hnull _) _ rfl

theorem Intact.happens {m m' : Machine} {e : Event} (hm : Intact m) (h : Happens m e m') : Intact m' := by
  cases h with
  | kmalloc size => exact hm.kmalloc size
  | kfree p => exact ⟨magic_lasting.forall_kfree hm.magic p, aligned_lasting.forall_kfree hm.aligned p, hm.nullPage⟩
  | pages pmm hnull => exact ⟨hm.magic, hm.aligned, hnull⟩

theorem intact_boot {pmm : Pmm} (hnull : pmm.used 0 = true) : Intact (heapInitPmm pmm) := by
  have hpmm := Intact.alloc (m := ⟨heapInit none, pmm⟩)
    ⟨by simp [heapInit], by simp [heapInit], hnull⟩ .heap (show 1024 ≠ 0 by decide)
  unfold heapInitPmm
  dsimp only
  split_ifs
  · exact ⟨by simp [heapInit], by simp [heapInit], hpmm⟩
  · exact ⟨by simp [heapInit, freshNode], by simp [heapInit, freshNode, sizeofHeapNode], hpmm⟩

/-! ## The law -/

/-- The blocks that are free, or those in use. -/
def HeapState.blocksOf (h : HeapState) (free : Bool) : List Span :=
  (h.nodes.filter (·.free == free)).map (·.block)

/-- The pages that a chunk for the request alone would have. -/
def pagesFor (size : Nat) : Nat := ((size + 15) / 16 * 16 + sizeofHeapNode + 4095) / 4096

/-- One chunk of growth, or the request where it is larger. -/
def growthFor (size : Nat) : Nat := max 256 (pagesFor size)

structure Lawful (m : Machine) (size : Nat) : Prop where
  returns : (kmallocPmm m size).2 ≠ .halt
  unchanged : (kmallocPmm m size).2 = .null →
    freePages (kmallocPmm m size).1.pmm = freePages m.pmm ∧
      ∀ free a, Covers ((kmallocPmm m size).1.heap.blocksOf free) a ↔ Covers (m.heap.blocksOf free) a
  frugal : ∀ p, (kmallocPmm m size).2 = .ptr p →
    (freePages m.pmm \ freePages (kmallocPmm m size).1.pmm).card ≤ growthFor size
  /-- Before `heap_init`, and for a request of nothing, there is nothing to satisfy. -/
  justified : (kmallocPmm m size).2 = .null → m.heap.ready = true → size ≠ 0 →
    (∀ n ∈ m.heap.nodes, n.free = true → n.size < size) ∧ ∀ i, m.pmm.fits (growthFor size) i = false

/-- A hole, no chunk to be had, or a request that one chunk holds. -/
def Served (m : Machine) (size : Nat) : Prop :=
  m.heap.ready = false ∨ size = 0 ∨ (∃ n ∈ m.heap.nodes, n.free = true ∧ roundUp16 size ≤ n.size) ∨
    (∀ i, m.pmm.fits 256 i = false) ∨ (0 < roundUp16 size ∧ roundUp16 size ≤ 256 * 4096 - sizeofHeapNode)

theorem hole_isSome {m : Machine} {size : Nat} :
    (hole m size).isSome = true ↔ ∃ n ∈ m.heap.nodes, n.free = true ∧ roundUp16 size ≤ n.size := by
  unfold hole
  rw [List.find?_isSome]
  simp [fits]

theorem fits_mono {pmm : Pmm} {pages pages' i : Nat} (hle : pages ≤ pages') (h : pmm.fits pages i = false) :
    pmm.fits pages' i = false := by
  by_contra hfits
  rw [Bool.not_eq_false, fits_iff] at hfits
  rw [← Bool.not_eq_true, fits_iff] at h
  exact h ⟨by omega, fun b hb => hfits.2 b (by omega)⟩

theorem no_hole {m : Machine} (hm : Intact m) {size : Nat} (hsize : size < 2 ^ 64) (h : hole m size = none) :
    ∀ n ∈ m.heap.nodes, n.free = true → n.size < size := by
  intro n hn hfree
  have hsmall : n.size < roundUp16 size := by
    by_contra hlarge
    have hsome := hole_isSome.mpr ⟨n, hn, hfree, Nat.le_of_not_lt hlarge⟩
    rw [h] at hsome
    cases hsome
  have hdvd := hm.aligned n hn
  unfold roundUp16 at hsmall
  omega

theorem hole_grow {m : Machine} {size : Nat} (more : Nat) (pmm : Pmm) (h : hole m size = none) :
    (hole ⟨m.heap.grow more, pmm⟩ (roundUp16 size)).isSome = true ↔
      roundUp16 size ≤ 256 * 4096 - sizeofHeapNode := by
  rw [hole_isSome, roundUp16_twice]
  constructor
  · rintro ⟨n, hn, hfree, hfits⟩
    rcases List.mem_append.mp hn with hn | hn
    · have := hole_isSome.mpr ⟨n, hn, hfree, hfits⟩
      rw [h] at this
      cases this
    · rw [List.mem_singleton.mp hn] at hfits
      exact hfits
  · intro hle
    exact ⟨freshNode 256 more, by simp [HeapState.grow], rfl, hle⟩

theorem kmallocPmm_large {m : Machine} (hm : Intact m) {size : Nat} (h : hole m size = none)
    (hlarge : 256 * 4096 - sizeofHeapNode < roundUp16 size) :
    (kmallocPmm m size).2 = .null ∧ freePages (kmallocPmm m size).1.pmm ⊆ freePages m.pmm := by
  induction hpages : (freePages m.pmm).card using Nat.strong_induction_on generalizing m size with
  | _ k ih =>
    rcases kmallocPmm_cases hm size with ⟨-, heq⟩ | ⟨pre, post, cur, hns, hsome, heq⟩ | ⟨-, -, heq⟩ |
      ⟨-, -, -, f, pmm, -, htakes, hnull, heq⟩
    · rw [heq]
      exact ⟨rfl, Finset.Subset.refl _⟩
    · rw [h] at hsome
      cases hsome
    · rw [heq]
      exact ⟨rfl, Finset.Subset.refl _⟩
    · rw [heq]
      have hless := freePages_takes htakes (by decide)
      have hcard := Finset.card_lt_card hless
      rw [hpages] at hcard
      have hnone : hole ⟨m.heap.grow (f * 4096), pmm⟩ (roundUp16 size) = none := by
        rw [← Option.not_isSome_iff_eq_none, hole_grow _ _ h]
        exact Nat.not_le.mpr hlarge
      have hrest := ih _ hcard (hm.grow hnull _) hnone (by rwa [roundUp16_twice]) rfl
      exact ⟨hrest.1, hrest.2.trans hless.subset⟩

theorem kmallocPmm_chunk {m : Machine} (hm : Intact m) {size : Nat} (h : hole m size = none)
    (hpos : 0 < roundUp16 size) (hsmall : roundUp16 size ≤ 256 * 4096 - sizeofHeapNode)
    (hready : m.heap.ready = true) {f : Nat} {pmm : Pmm} (htakes : Takes m.pmm pmm f 256)
    (hnull : pmm.used 0 = true)
    (heq : kmallocPmm m size = kmallocPmm ⟨m.heap.grow (f * 4096), pmm⟩ (roundUp16 size)) :
    (∃ p, (kmallocPmm m size).2 = .ptr p) ∧
      (freePages m.pmm \ freePages (kmallocPmm m size).1.pmm).card ≤ 256 := by
  have hsome := (hole_grow (f * 4096) pmm h).mpr hsmall
  rcases kmallocPmm_cases (hm.grow hnull (f * 4096)) (roundUp16 size) with ⟨hrefused, -⟩ |
    ⟨pre, post, cur, -, -, hgot⟩ | ⟨hnone, -, -⟩ | ⟨hnone, -, -, -⟩
  · rcases hrefused with hrefused | hrefused
    · rw [show (m.heap.grow (f * 4096)).ready = m.heap.ready from rfl, hready] at hrefused
      cases hrefused
    · omega
  · rw [heq, hgot]
    refine ⟨⟨_, rfl⟩, ?_⟩
    have hsub : freePages m.pmm \ freePages pmm ⊆ Finset.Ico f (f + 256) := by
      intro j hj
      rw [Finset.mem_sdiff, mem_freePages, mem_freePages, htakes.total] at hj
      rw [Finset.mem_Ico]
      by_contra hout
      refine hj.2 ⟨hj.1.1, ?_⟩
      by_contra hused
      rcases (htakes.used j).mp (by simpa using hused) with h | h
      · rw [h] at hj
        exact absurd hj.1.2 (by decide)
      · exact hout h
    have hcard := Finset.card_le_card hsub
    rwa [Nat.card_Ico, Nat.add_sub_cancel_left] at hcard
  all_goals
    rw [hnone] at hsome
    cases hsome

theorem kmallocPmm_zero (m : Machine) : kmallocPmm m 0 = (m, .null) := by
  unfold kmallocPmm kmallocHere
  simp

theorem intact_reachable {pmm : Pmm} (hnull : pmm.used 0 = true) {es : List Event} {m : Machine}
    (h : Run Happens (heapInitPmm pmm) es m) : Intact m :=
  h.invariant (fun _ _ _ hm hstep => hm.happens hstep) (intact_boot hnull)

theorem not_lawful {m : Machine} (hm : Intact m) {size : Nat} (hready : m.heap.ready = true) (hne : size ≠ 0)
    (hnone : hole m size = none) {i : Nat} (hfits : m.pmm.fits 256 i = true)
    (hfit : ¬ (0 < roundUp16 size ∧ roundUp16 size ≤ 256 * 4096 - sizeofHeapNode)) : ¬ Lawful m size := by
  intro hlaw
  rcases kmallocPmm_cases hm size with ⟨hrefused, -⟩ | ⟨-, -, cur, -, hsome, -⟩ | ⟨-, hnofit, -⟩ |
    ⟨-, -, -, f, pmm, -, htakes, hnull, heq⟩
  · rcases hrefused with hrefused | hrefused
    · rw [hready] at hrefused
      cases hrefused
    · exact hne hrefused
  · rw [hnone] at hsome
    cases hsome
  · rw [hnofit i] at hfits
    cases hfits
  · have hgrown := hm.grow hnull (f * 4096)
    have hlost : (kmallocPmm m size).2 = .null ∧ freePages (kmallocPmm m size).1.pmm ⊆ freePages pmm := by
      rw [heq]
      by_cases hzero : roundUp16 size = 0
      · rw [hzero, kmallocPmm_zero]
        exact ⟨rfl, Finset.Subset.refl _⟩
      · have hlarge : 256 * 4096 - sizeofHeapNode < roundUp16 size := by omega
        refine kmallocPmm_large hgrown ?_ (by rwa [roundUp16_twice])
        rw [← Option.not_isSome_iff_eq_none, hole_grow _ _ hnone]
        exact Nat.not_le.mpr hlarge
    have hsame := (hlaw.unchanged hlost.1).1
    rw [hsame] at hlost
    exact (freePages_takes htakes (by decide)).not_subset hlost.2

theorem kmalloc_lawful_iff {pmm : Pmm} (hnull : pmm.used 0 = true) {es : List Event} {m : Machine}
    (h : Run Happens (heapInitPmm pmm) es m) {size : Nat} (hsize : size < 2 ^ 64) :
    Lawful m size ↔ Served m size := by
  have hm := intact_reachable hnull h
  rcases kmallocPmm_cases hm size with ⟨hrefused, heq⟩ | ⟨pre, post, cur, hns, hsome, heq⟩ |
    ⟨hnone, hfits, heq⟩ | ⟨hnone, hready, hne, f, pmm', hfits, htakes, hnull', heq⟩
  · refine iff_of_true ⟨by simp [heq], fun _ => by simp [heq], by simp [heq], fun _ hready hne => ?_⟩
      (hrefused.elim Or.inl fun h => Or.inr (Or.inl h))
    rcases hrefused with hrefused | hrefused
    · rw [hready] at hrefused
      cases hrefused
    · exact absurd hrefused hne
  · refine iff_of_true ⟨by simp [heq], by simp [heq], by simp [heq], by simp [heq]⟩
      (Or.inr (Or.inr (Or.inl ?_)))
    exact hole_isSome.mp (by rw [hsome]; rfl)
  · refine iff_of_true ⟨by simp [heq], fun _ => ?_, by simp [heq], fun _ _ _ => ?_⟩
      (Or.inr (Or.inr (Or.inr (Or.inl hfits))))
    · rw [heq]
      exact ⟨rfl, fun _ _ => Iff.rfl⟩
    · exact ⟨no_hole hm hsize hnone, fun i => fits_mono (Nat.le_max_left _ _) (hfits i)⟩
  · by_cases hfit : 0 < roundUp16 size ∧ roundUp16 size ≤ 256 * 4096 - sizeofHeapNode
    · obtain ⟨⟨p, hptr⟩, htaken⟩ := kmallocPmm_chunk hm hnone hfit.1 hfit.2 hready htakes hnull' heq
      refine iff_of_true ⟨by simp [hptr], by simp [hptr], fun _ _ => ?_, by simp [hptr]⟩
        (Or.inr (Or.inr (Or.inr (Or.inr hfit))))
      exact htaken.trans (Nat.le_max_left _ _)
    · refine iff_of_false (not_lawful hm hready hne hnone hfits hfit) ?_
      rintro (h | h | h | h | h)
      · rw [hready] at h
        cases h
      · exact hne h
      · have := hole_isSome.mpr h
        rw [hnone] at this
        cases this
      · rw [h f] at hfits
        cases hfits
      · exact hfit h

/-- Memory of 1500 pages, of which page 0 is reserved. -/
def someMemory : Pmm := ⟨1500, fun j => decide (j = 0), [], false⟩

theorem kmalloc_lawful_small : Lawful (heapInitPmm someMemory) 100 :=
  (kmalloc_lawful_iff (by decide) (.nil _) (by decide)).mpr
    (Or.inr (Or.inr (Or.inl (by decide +kernel))))

/-- A request of 4 MB, right after boot, takes a chunk and fails. -/
theorem kmalloc_unlawful :
    ¬ ∀ (pmm : Pmm) (es : List Event) (m : Machine) (size : Nat), pmm.used 0 = true →
      Run Happens (heapInitPmm pmm) es m → size < 2 ^ 64 → Lawful m size := by
  intro h
  have hlaw := h someMemory [] _ 4194304 (by decide) (.nil _) (by decide)
  exact not_lawful (i := 1025) (intact_boot (by decide)) (by decide +kernel) (by decide) (by decide +kernel)
    (by decide +kernel) (by decide) hlaw

end Siathos.Heap
