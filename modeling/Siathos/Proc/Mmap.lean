import Siathos.Proc.DevMap

/-!
# The pages of `SYS_MMAP`

The heap of a process is put above its regions. The pages of a device are in none of them.
-/

open Lib Siathos.Paging

namespace Siathos.Proc.Memory

/-! ## What a call must do -/

/-- The regions of a process whose heap got `n` pages at the address. -/
def grown (p : Pcb) (e : BitVec 64) (n : Nat) : List Region × Option Nat :=
  match p.umapHeap with
  | none => (p.umap ++ [⟨e, BitVec.ofNat 64 (n * 0x1000)⟩], some p.umap.length)
  | some i => (p.umap.modify i fun g => ⟨g.base, g.size + BitVec.ofNat 64 (n * 0x1000)⟩, some i)

/-- A call that fails leaves the processes and the pages of the process as they were, and all that it took are
tables. One that returns an address has mapped the pages from there on, which were not mapped, at the end of the
heap, if there was a heap, and nothing else. -/
structure MmapRight (slots : Nat → Bool) (s : Sys) (a1 : BitVec 64) : Prop where
  failed : (sysMmap a1 s).2 = err →
    (sysMmap a1 s).1.procs = s.procs ∧
    (∀ u, slots (idxL4 u) = false →
      lookup (sysMmap a1 s).1.vm (s.procs s.current).cr3 u = lookup s.vm (s.procs s.current).cr3 u) ∧
    ∀ f, (sysMmap a1 s).1.vm.pmm.used f = true → s.vm.pmm.used f = true ∨
      ∃ p, (own slots).Ok p ∧ p.length ≤ 3 ∧ seat (roots s) (sysMmap a1 s).1.vm s.current p = some f
  done : (sysMmap a1 s).2 ≠ err →
    (sysMmap a1 s).2.toNat + mmapCount a1 * 4096 ≤ 2 ^ 64 ∧
    (∀ i ∈ (s.procs s.current).umapHeap, ∀ g ∈ (s.procs s.current).umap[i]?, (sysMmap a1 s).2 = g.base + g.size) ∧
    (∀ i < mmapCount a1, lookup s.vm (s.procs s.current).cr3 (page (sysMmap a1 s).2 i) = none ∧
      lookup (sysMmap a1 s).1.vm (s.procs s.current).cr3 (page (sysMmap a1 s).2 i) ≠ none) ∧
    (∀ u, slots (idxL4 u) = false → (∀ i < mmapCount a1, vpn u ≠ vpn (page (sysMmap a1 s).2 i)) →
      lookup (sysMmap a1 s).1.vm (s.procs s.current).cr3 u = lookup s.vm (s.procs s.current).cr3 u) ∧
    (((sysMmap a1 s).1.procs s.current).umap, ((sysMmap a1 s).1.procs s.current).umapHeap) =
      grown (s.procs s.current) (sysMmap a1 s).2 (mmapCount a1)

/-- Where it does so: the pages that the call maps, all of them or as many as memory lasts for, are not mapped,
and do not reach the end of the addresses. -/
def MmapFits (s : Sys) (a1 : BitVec 64) : Prop :=
  Mmaps s a1 → mmapAt s &&& 0xFFF = 0 →
    if mmapCount a1 + needs (roots s) s.vm s.current (mmapAt s) (mmapCount a1) ≤ freeFrames s.vm.pmm then
      (mmapAt s).toNat + mmapCount a1 * 4096 ≤ 2 ^ 64 ∧
        ∀ i < mmapCount a1, lookup s.vm (s.procs s.current).cr3 (page (mmapAt s) i) = none
    else
      ∀ i < mmapCount a1, i + 1 + needs (roots s) s.vm s.current (mmapAt s) (i + 1) ≤ freeFrames s.vm.pmm →
        (mmapAt s).toNat + (i + 1) * 4096 < 2 ^ 64 ∧ lookup s.vm (s.procs s.current).cr3 (page (mmapAt s) i) = none

theorem grown_mmapped (p : Pcb) (n : Nat) :
    ((mmapped p n).umap, (mmapped p n).umapHeap) = grown p ((heapOf p).base + (heapOf p).size) n := by
  have hsize : ∀ a b : BitVec 64, a + b - a = b := fun a b => by rw [BitVec.add_comm, BitVec.add_sub_cancel]
  have hsize' : ∀ a b c : BitVec 64, a + b + c - a = b + c := fun a b c => by rw [BitVec.add_assoc, hsize]
  let _ : Inhabited Region := ⟨⟨0, 0⟩⟩
  unfold mmapped grown heapOf
  cases hheap : p.umapHeap with
  | none => simp [hsize]
  | some i =>
    have hmodify := List.modify_eq_set (fun g : Region => ⟨g.base, g.size + BitVec.ofNat 64 (n * 0x1000)⟩) i p.umap
    simp only [hmodify, hsize', reduceCtorEq, if_false, Option.getD_some, List.getD_eq_getElem?_getD]
    rfl

theorem mmapAt_heap {s : Sys} {i : Nat} (hi : i ∈ (s.procs s.current).umapHeap) {g : Region}
    (hg : g ∈ (s.procs s.current).umap[i]?) : mmapAt s = g.base + g.size := by
  have hheap : (s.procs s.current).umapHeap = some i := hi
  have hget : (s.procs s.current).umap[i]? = some g := hg
  simp [mmapAt, heapOf, hheap, hget]

/-! ## Trees -/

theorem path_page {slots : Nat → Bool} {p : List Nat} (hp : (own slots).Ok p) (hlen : p.length = 4) :
    ∃ u, slots (idxL4 u) = false ∧ tablePath u ++ [idxL1 u] = p := by
  obtain ⟨-, hlt, hslot⟩ := hp
  match p, hlen with
  | [i, j, k, l], _ =>
    simp only [List.mem_cons, List.not_mem_nil, or_false, forall_eq_or_imp, forall_eq] at hlt
    have hsum : i * 2 ^ 39 + j * 2 ^ 30 + k * 2 ^ 21 + l * 2 ^ 12 < 2 ^ 64 := by omega
    have hpath : tablePath (BitVec.ofNat 64 (i * 2 ^ 39 + j * 2 ^ 30 + k * 2 ^ 21 + l * 2 ^ 12)) ++
        [idxL1 (BitVec.ofNat 64 (i * 2 ^ 39 + j * 2 ^ 30 + k * 2 ^ 21 + l * 2 ^ 12))] = [i, j, k, l] := by
      simp only [tablePath, idxL4, idxL3, idxL2, idxL1, idx_eq, BitVec.toNat_ofNat, Nat.mod_eq_of_lt hsum,
        List.cons_append, List.nil_append, List.cons.injEq, and_true]
      omega
    refine ⟨_, ?_, hpath⟩
    rw [tablePath, List.cons_append, List.cons.injEq] at hpath
    rw [hpath.1]
    exact hslot i rfl

section

variable {slots : Nat → Bool} {kernel : Nat} {roots : Nat → Option Nat} {base base' : Nat → Prop} {m m' : Vm}
    {k r : Nat}

theorem Space.seat_others (h : Space slots kernel roots base m)
    (hwords : ∀ f i, m.pmm.used f = true → (∀ p, (own slots).Ok p → p.length ≤ 3 → seat roots m k p ≠ some f) →
      m'.tables f i = m.tables f i) {k' : Nat} (hne : k' ≠ k) {p : List Nat} (hp : (own slots).Ok p) :
    seat roots m' k' p = seat roots m k' p := by
  refine Radix.seat_congr (P := own slots) next (fun _ : Unit => roots k') (fun _ q i t hq ht => ?_) () hp
  have hq' := (own slots).init q i hq
  refine hwords t i (h.seated_used hq' ht) fun p' hp' _ hs => hne ?_
  exact (h.unshared k' q k p' t hq' hp' ht hs).1

theorem Touches.undone_lookup {b : BitVec 64} {d : Nat}
    (h : Touches slots kernel roots base' k b d (fun w => w = 0) m m')
    (hs : Space slots kernel roots base m) (hr : roots k = some r) (hslot : ∀ i < d, slots (idxL4 (page b i)) = false)
    (hvacant : ∀ i < d, lookup m r (page b i) = none) {u : BitVec 64} (hu : slots (idxL4 u) = false) :
    lookup m' r u = lookup m r u := by
  by_cases hin : ∃ i < d, vpn u = vpn (page b i)
  · obtain ⟨i, hi, heq⟩ := hin
    rw [lookup_congr heq, lookup_congr heq, hvacant i hi, lookup_eq h.space hr (hslot i hi)]
    rcases h.entries i hi (hslot i hi) with hsame | hzero
    · rw [hsame, ← lookup_eq hs hr (hslot i hi), hvacant i hi]
    · have habs : present 0#64 = false := present_zero
      rw [hzero, if_neg (by simp [habs])]
  · rw [lookup_eq h.space hr hu, lookup_eq hs hr hu, h.rest k u hu fun i hi _ heq => hin ⟨i, hi, heq⟩]

theorem Touches.undone_used {b : BitVec 64} {d : Nat} (h : Touches slots kernel roots base' k b d (fun w => w = 0) m m')
    (hs : Space slots kernel roots base m) (hbase : ∀ f, base' f → base f) {f : Nat} (hf : m'.pmm.used f = true) :
    m.pmm.used f = true ∨ ∃ p, (own slots).Ok p ∧ p.length ≤ 3 ∧ seat roots m' k p = some f := by
  rcases (h.space.used f).mp hf with hb | ⟨k', p, hp, hseat⟩
  · exact .inl ((hs.used f).mpr (.inl (hbase f hb)))
  by_cases hk : k' = k
  swap
  · rw [Space.seat_others hs h.words hk hp] at hseat
    exact .inl (hs.seated_used hp hseat)
  subst hk
  by_cases hlen : p.length ≤ 3
  · exact .inr ⟨p, hp, hlen, hseat⟩
  -- a page of memory
  obtain ⟨u, hu, rfl⟩ := path_page hp (by have := hp.1; omega)
  have hsame : pte roots m' k' u = pte roots m k' u := by
    by_cases hin : ∃ i < d, vpn u = vpn (page b i)
    · obtain ⟨i, hi, heq⟩ := hin
      have hslot : slots (idxL4 (page b i)) = false := by
        rw [idxL4_eq, ← heq, ← idxL4_eq]
        exact hu
      rw [pte_congr heq, pte_congr heq]
      refine (h.entries i hi hslot).resolve_right fun hzero => ?_
      rw [seat_page, pte_congr heq, hzero, next_absent present_zero] at hseat
      cases hseat
    · exact h.rest k' u hu fun i hi _ heq => hin ⟨i, hi, heq⟩
  rw [seat_page, hsame, ← seat_page] at hseat
  exact .inl (hs.seated_used hp hseat)

theorem Grows.lookup_page {b : BitVec 64} {d : Nat} (h : Grows slots kernel roots base' k b 0 d DataEntry m m')
    (hr : roots k = some r) {i : Nat} (hslot : slots (idxL4 (page b i)) = false) (hi : i < d) :
    lookup m' r (page b i) = some (pte roots m' k (page b i)) := by
  obtain ⟨c, hnext, -⟩ := (h.entries i (Nat.zero_le i) hi).next
  rw [lookup_eq h.space hr hslot, next_present hnext, if_pos rfl]

theorem Grows.lookup_other {b : BitVec 64} {d : Nat} (h : Grows slots kernel roots base' k b 0 d DataEntry m m')
    (hs : Space slots kernel roots base m) (hr : roots k = some r) {u : BitVec 64} (hu : slots (idxL4 u) = false)
    (hno : ∀ i < d, vpn u ≠ vpn (page b i)) : lookup m' r u = lookup m r u := by
  rw [lookup_eq h.space hr hu, lookup_eq hs hr hu, h.rest k u hu fun i _ hi _ => hno i hi]

theorem Grows.lookup_new {b : BitVec 64} {d : Nat} (h : Grows slots kernel roots base' k b 0 d DataEntry m m')
    (hs : Space slots kernel roots base m) (hr : roots k = some r) {i : Nat} (hslot : slots (idxL4 (page b i)) = false)
    (hi : i < d) (hlost : ∀ f, next 3 (pte roots m k (page b i)) = some f → base' f) :
    lookup m' r (page b i) ≠ lookup m r (page b i) := by
  obtain ⟨c, hnext, -⟩ := (h.entries i (Nat.zero_le i) hi).next
  rw [h.lookup_page hr hslot hi, lookup_eq hs hr hslot]
  split
  · intro heq
    rw [Option.some.inj heq] at hnext
    have hseat := (seat_page roots m' k (page b i)).trans ((congrArg (next 3) (Option.some.inj heq)).trans hnext)
    exact h.space.apart c (hlost c hnext) k _ (own_tablePath hslot) hseat
  · simp

end

/-! ## The call -/

section

variable {slots : Nat → Bool} {kernel : Nat} {base : Nat → Prop} {s : Sys} {a1 : BitVec 64}

theorem lt_page_iff {b : BitVec 64} {d : Nat} (hd : d ≤ 8192) : b < page b d ↔ 0 < d ∧ b.toNat + d * 4096 < 2 ^ 64 := by
  have hlt := b.isLt
  rw [BitVec.lt_def, page, BitVec.toNat_add, BitVec.toNat_ofNat]
  omega

theorem mmap_right_full (h : Rooted slots kernel base s) (hrun : s.running = true) (hmaps : Mmaps s a1)
    (hb : mmapAt s &&& 0xFFF = 0) (hslot : Apart slots (mmapAt s) (mmapCount a1)) {m' : Vm} {base' : Nat → Prop}
    (heq : mmapPages (s.procs s.current).cr3 (mmapAt s) 0 (mmapCount a1) s.vm = (m', none))
    (hgrows : Grows slots kernel (roots s) base' s.current (mmapAt s) 0 (mmapCount a1) DataEntry s.vm m') :
    MmapRight slots s a1 ↔ (mmapAt s).toNat + mmapCount a1 * 4096 ≤ 2 ^ 64 ∧
      ∀ i < mmapCount a1, lookup s.vm (s.procs s.current).cr3 (page (mmapAt s) i) = none := by
  have hcall := sysMmap_maps hmaps heq
  have hr := h.root hrun
  have hne : mmapAt s ≠ err := by
    intro heq
    rw [heq] at hb
    revert hb
    decide
  constructor
  · intro hright
    obtain ⟨hend, -, hpages, -⟩ := hright.done (by rwa [hcall])
    rw [hcall] at hend hpages
    exact ⟨hend, fun i hi => (hpages i hi).1⟩
  · rintro ⟨hend, hvacant⟩
    refine ⟨fun hfailed => absurd hfailed (by rwa [hcall]), fun _ => ?_⟩
    rw [hcall]
    refine ⟨hend, fun i hi g hg => mmapAt_heap hi hg, fun i hi => ⟨hvacant i hi, ?_⟩,
      fun u hu hno => hgrows.lookup_other h.space hr hu hno, ?_⟩
    · have hpage := hgrows.lookup_page hr (hslot i hi) hi
      exact fun hnone => by cases hpage.symm.trans hnone
    · simp only [Sys.set_same]
      exact grown_mmapped (s.procs s.current) (mmapCount a1)

/-- Memory ends at page `d`. -/
theorem mmap_right_short (h : Rooted slots kernel base s) (hrun : s.running = true) (hmaps : Mmaps s a1)
    {m' : Vm} {d : Nat} {base' : Nat → Prop} (hb : 0 < d → mmapAt s &&& 0xFFF = 0)
    (hslot : Apart slots (mmapAt s) (mmapCount a1)) (hd : d < mmapCount a1)
    (heq : mmapPages (s.procs s.current).cr3 (mmapAt s) 0 (mmapCount a1) s.vm = (m', some d))
    (hsame : (∀ i < d, next 3 (pte (roots s) s.vm s.current (page (mmapAt s) i)) = none) → ∀ f, base' f → base f)
    (hlost : ∀ i < d, ∀ f, next 3 (pte (roots s) s.vm s.current (page (mmapAt s) i)) = some f → base' f)
    (hgrows : Grows slots kernel (roots s) base' s.current (mmapAt s) 0 d DataEntry s.vm m') :
    MmapRight slots s a1 ↔ ∀ i < d, (mmapAt s).toNat + (i + 1) * 4096 < 2 ^ 64 ∧
      lookup s.vm (s.procs s.current).cr3 (page (mmapAt s) i) = none := by
  have hcall := sysMmap_fails hmaps heq
  have hr := h.root hrun
  have hcount : mmapCount a1 ≤ 8192 := hmaps.2.1
  have hvm : (sysMmap a1 s).1.vm =
      unmapPages (s.procs s.current).cr3 (mmapAt s) (if mmapAt s < page (mmapAt s) d then d else 0) m' := by rw [hcall]
  have hback : 0 < d → (mmapAt s).toNat + d * 4096 < 2 ^ 64 →
      Clears slots kernel (roots s) base' s.current (mmapAt s) 0 d m' (sysMmap a1 s).1.vm := by
    intro hpos hend
    rw [hvm, if_pos ((lt_page_iff (by omega)).mpr ⟨hpos, hend⟩)]
    exact unmapPages_spec (hb hpos) hgrows.space hr (by omega) fun i hi =>
      ⟨hslot i (by omega), hgrows.entries i (Nat.zero_le i) hi⟩
  constructor
  · intro hright i hi
    obtain ⟨-, hkept, -⟩ := hright.failed (by rw [hcall])
    by_cases hend : (mmapAt s).toNat + d * 4096 < 2 ^ 64
    · have hclears := hback (by omega) hend
      have habs : present 0#64 = false := present_zero
      have hbefore : (mmapAt s).toNat + (i + 1) * 4096 ≤ (mmapAt s).toNat + d * 4096 :=
        Nat.add_le_add_left (Nat.mul_le_mul_right 4096 hi) _
      refine ⟨Nat.lt_of_le_of_lt hbefore hend, ?_⟩
      rw [← hkept _ (hslot i (by omega)), lookup_eq hclears.space hr (hslot i (by omega)),
        hclears.entries i (Nat.zero_le i) hi, if_neg (by simp [habs])]
    · -- the pages are left mapped
      have hleft : (sysMmap a1 s).1.vm = m' := by
        rw [hvm, if_neg fun hlt => hend ((lt_page_iff (by omega)).mp hlt).2]
        rfl
      have hzero := hkept _ (hslot 0 (by omega))
      rw [hleft] at hzero
      exact absurd hzero (hgrows.lookup_new h.space hr (hslot 0 (by omega)) (by omega) (hlost 0 (by omega)))
  · intro hfits
    have hundone : Touches slots kernel (roots s) base' s.current (mmapAt s) d (fun w => w = 0) s.vm
        (sysMmap a1 s).1.vm := by
      rcases Nat.eq_zero_or_pos d with rfl | hpos
      · have hnone := hgrows.touches (Nat.le_refl 0)
        rw [hvm, ite_self]
        exact ⟨hnone.total, hnone.doubled, hnone.space, hnone.words, fun i hi => absurd hi (Nat.not_lt_zero i),
          hnone.rest⟩
      · have hend := (hfits (d - 1) (by omega)).1
        rw [Nat.sub_add_cancel hpos] at hend
        exact hgrows.undone (Nat.le_refl d) (hback hpos hend)
    have hvacant : ∀ i < d, lookup s.vm (s.procs s.current).cr3 (page (mmapAt s) i) = none := fun i hi => (hfits i hi).2
    refine ⟨fun _ => ⟨by rw [hcall], fun u hu => ?_, fun f hf => ?_⟩, fun hne => absurd (by rw [hcall]) hne⟩
    · exact hundone.undone_lookup h.space hr (fun i hi => hslot i (by omega)) hvacant hu
    · refine hundone.undone_used h.space (hsame fun i hi => ?_) hf
      have hnone := hvacant i hi
      rw [lookup_eq h.space hr (hslot i (by omega))] at hnone
      refine next_absent ?_
      by_contra hpresent
      rw [if_pos (by simpa using hpresent)] at hnone
      cases hnone

theorem mmap_right_iff (h : Rooted slots kernel base s) (hrun : s.running = true)
    (hapart : Mmaps s a1 → Apart slots (mmapAt s) (mmapCount a1)) : MmapRight slots s a1 ↔ MmapFits s a1 := by
  have hr := h.root hrun
  by_cases hmaps : Mmaps s a1
  swap
  · have hcall := sysMmap_refuses hmaps
    refine iff_of_true ⟨fun _ => ?_, fun hne => absurd (by rw [hcall]) hne⟩ fun hmaps' => absurd hmaps' hmaps
    rw [hcall]
    exact ⟨rfl, fun _ _ => rfl, fun _ => .inl⟩
  have hslot := hapart hmaps
  have hcount : mmapCount a1 ≤ 8192 := hmaps.2.1
  by_cases hb : mmapAt s &&& 0xFFF = 0
  swap
  · -- no page is mapped
    obtain ⟨n, hn⟩ := Nat.exists_eq_succ_of_ne_zero (Nat.pos_iff_ne_zero.mp (mmapCount_pos a1))
    obtain ⟨m', heq, hgrows⟩ := mmapPages_unaligned (r := (s.procs s.current).cr3) (n := n) hb h.space
    rw [← Nat.succ_eq_add_one, ← hn] at heq
    refine iff_of_true ?_ fun _ hb' => absurd hb' hb
    refine (mmap_right_short h hrun hmaps (fun hpos => absurd hpos (Nat.lt_irrefl 0)) hslot (mmapCount_pos a1) heq
      (fun _ _ hf => hf) (fun i hi => absurd hi (Nat.not_lt_zero i)) hgrows).mpr fun i hi => absurd hi
        (Nat.not_lt_zero i)
  have hfew : 0 + mmapCount a1 ≤ 2 ^ 36 := by omega
  obtain ⟨base', m', d, hd, heq, henough, -, hsame, hlost, hgrows⟩ :=
    mmapPages_spec hb h.space hr hfew fun i _ hi => hslot i (by omega)
  rw [page_zero] at henough
  rw [Nat.zero_add] at heq hsame hlost hgrows
  have henough : ∀ j ≤ mmapCount a1,
      j ≤ d ↔ j + needs (roots s) s.vm s.current (mmapAt s) j ≤ freeFrames s.vm.pmm := by
    simpa [Enough] using henough
  unfold MmapFits
  by_cases hfull : d = mmapCount a1
  · subst hfull
    rw [if_pos rfl] at heq
    rw [if_pos ((henough _ (Nat.le_refl _)).mp (Nat.le_refl _)), mmap_right_full h hrun hmaps hb hslot heq hgrows]
    exact ⟨fun hright _ _ => hright, fun hfits => hfits hmaps hb⟩
  · rw [if_neg hfull] at heq
    have hfew : ¬ mmapCount a1 + needs (roots s) s.vm s.current (mmapAt s) (mmapCount a1) ≤ freeFrames s.vm.pmm :=
      fun hfree => hfull (Nat.le_antisymm hd ((henough _ (Nat.le_refl _)).mpr hfree))
    rw [if_neg hfew, mmap_right_short h hrun hmaps (fun _ => hb) hslot (by omega) heq
      (fun hvacant => hsame fun i _ hi => hvacant i hi) (fun i hi => hlost i (Nat.zero_le i) hi) hgrows]
    constructor
    · exact fun hright _ _ i hi hneeds => hright i ((henough (i + 1) hi).mpr hneeds)
    · exact fun hfits i hi => hfits hmaps hb i (by omega) ((henough (i + 1) (by omega)).mp hi)

end

/-! ## Runs -/

theorem mmap_right {kernel : Nat} {boot : Nat → Prop} {others : List Nat} {s₀ s t : Sys} {ops : List Op}
    {a1 : BitVec 64}
    (hboot : Booted kernel boot others s₀) (hreserved : Reserved kernel s₀.vm)
    (hrun : Run (Guarded (Contained (kernelSlots kernel s₀.vm) kernel) (Step kernel)) s₀ ops s)
    (hstep : Guarded (Contained (kernelSlots kernel s₀.vm) kernel) (Step kernel) s (.mmap a1) t) :
    MmapRight (kernelSlots kernel s₀.vm) s a1 ↔ MmapFits s a1 := by
  obtain ⟨base, hrooted, -⟩ := (spaces_run hboot hreserved hrun).rooted
  exact mmap_right_iff hrooted hstep.2.1 hstep.1

theorem mmap_right_spaced : MmapRight (kernelSlots 1 (identitySys 32).vm) (spaced.foldl (apply 1) (identitySys 32)) 2 ↔
    MmapFits (spaced.foldl (apply 1) (identitySys 32)) 2 := by
  refine mmap_right (identitySys_booted (by decide)) (identitySys_reserved 32) (Run.of_admits_guarded spaced_admitted)
    ⟨fun _ => ?_, ?_, rfl⟩
  · unfold Apart
    decide +kernel
  · decide +kernel

/-- A process whose heap would begin where the pages of devices do, and a page of a device. -/
def touching : List Op :=
  [.createUserRegions (some 0x200020) (fun _ => 0) [⟨0x7fefFFFCF000, 0, 0, 0x1000, 1⟩] (fun _ => 0), .start 0,
    .devMap 0xE0000000 0x1000]

/-- The heap is put over the page of the device. -/
theorem mmap_takes_device : Booted 1 (fun f => f < 3) [] (identitySys 64) ∧
    Run (Step 1) (identitySys 64) touching (touching.foldl (apply 1) (identitySys 64)) ∧
    ¬ MmapRight (kernelSlots 1 (identitySys 64).vm) (touching.foldl (apply 1) (identitySys 64)) 1 := by
  refine ⟨identitySys_booted (by decide), Run.of_admits (by decide +kernel), fun h => ?_⟩
  have hcall : (sysMmap 1 (touching.foldl (apply 1) (identitySys 64))).2 = userDevioBase := by decide +kernel
  have hmapped : lookup (touching.foldl (apply 1) (identitySys 64)).vm
      ((touching.foldl (apply 1) (identitySys 64)).procs (touching.foldl (apply 1) (identitySys 64)).current).cr3
      (page userDevioBase 0) ≠ none := by decide +kernel
  generalize touching.foldl (apply 1) (identitySys 64) = s at h hcall hmapped
  have hpages := (h.done (by rw [hcall]; decide)).2.2.1 0 (mmapCount_pos 1)
  rw [hcall] at hpages
  exact hmapped hpages.1

end Siathos.Proc.Memory
