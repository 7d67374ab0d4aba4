import Siathos.Paging.Calls

/-!
# Giving address spaces back

Every run keeps an estate, so that the pages of a process are known when `paging_free_address_space` runs. It
gives back those and no others as long as no entry that the process shares with the kernel has come to differ.
-/

open Lib

namespace Siathos.Paging.Identity

/-! ## The estate of a state -/

/-- The pages in `tabs` are those that have places as tables. -/
def Tabs (cr3 : Nat → Nat) (tabs : Nat → List Nat) (place : Places) : Prop :=
  ∀ k, cr3 k ≠ 0 → ∀ f, f ∈ tabs k ↔ ∃ p, p ≠ [] ∧ p.length ≤ 3 ∧ place f = some (some k, p)

/-- The state with its estate. -/
structure Holds (device : Nat → Prop) (shares : Nat → Nat → Bool) (place : Places) (s : Os) : Prop where
  estate : Estate device s.kernel s.roots shares place s.vm
  tabs : Tabs s.cr3 s.tabs place

theorem Tabs.call {cr3 : Nat → Nat} {tabs : Nat → List Nat} {place place' : Places} {n k : Nat} {m m' : Vm}
    (h : Tabs cr3 tabs place) (hn : n ≤ 3) (hg : Grown n (some k) m m' place place') :
    Tabs cr3 (Function.update tabs k (taken m m' ++ tabs k)) place' := by
  intro k' hk' f
  have hmem : f ∈ Function.update tabs k (taken m m' ++ tabs k) k' ↔ (k' = k ∧ Fresh m m' f) ∨ f ∈ tabs k' := by
    rcases eq_or_ne k' k with rfl | hne
    · simp [mem_taken]
    · simp [hne]
  rw [hmem, h k' hk' f]
  constructor
  · rintro (⟨rfl, hf⟩ | ⟨p, hne, hlen, hp⟩)
    · obtain ⟨p, hne, hlen, hp⟩ := hg.fresh f hf
      exact ⟨p, hne, by omega, hp⟩
    · exact ⟨p, hne, hlen, hg.kept f _ p hp (.inr ⟨by simp, hlen⟩)⟩
  · rintro ⟨p, hne, hlen, hp⟩
    rcases hg.old f k' p hp hlen with hp | ⟨hk, -, -, hf⟩
    · exact .inr ⟨p, hne, hlen, hp⟩
    · exact .inl ⟨Option.some.inj hk, hf⟩

theorem Tabs.kernel {cr3 : Nat → Nat} {tabs : Nat → List Nat} {place place' : Places} {n : Nat} {m m' : Vm}
    (h : Tabs cr3 tabs place) (hg : Grown n none m m' place place') : Tabs cr3 tabs place' := by
  intro k hk f
  rw [h k hk f]
  constructor
  · rintro ⟨p, hne, hlen, hp⟩
    exact ⟨p, hne, hlen, hg.kept f _ p hp (.inr ⟨by simp, hlen⟩)⟩
  · rintro ⟨p, hne, hlen, hp⟩
    rcases hg.old f k p hp hlen with hp | ⟨hk, -⟩
    · exact ⟨p, hne, hlen, hp⟩
    · cases hk

section

variable {device : Nat → Prop} {shares : Nat → Nat → Bool} {place : Places} {s : Os} {k : Nat}

theorem roots_some (hk : s.cr3 k ≠ 0) : s.roots (some k) = some (s.cr3 k) := if_neg hk

namespace Holds

theorem root (h : Holds device shares place s) (hk : s.cr3 k ≠ 0) : place (s.cr3 k) = some (some k, []) :=
  h.estate.root (roots_some hk)

theorem kernelRoot (h : Holds device shares place s) : place s.kernel = some (none, []) := h.estate.root rfl

theorem kernelOk {i : Nat} (hi : i < 512) : (ownPaths shares).Ok none ([] ++ [i]) := ⟨by simp, by simpa using hi⟩

theorem ownOk {i : Nat} (hi : i < 512) (hslot : shares k i = false) : (ownPaths shares).Ok (some k) ([] ++ [i]) :=
  ⟨by simp, by simpa using hi, by simpa using hslot⟩

theorem shares_eq (h : Holds device shares place s) (hk : s.cr3 k ≠ 0) {i : Nat} (hi : i < 512) :
    s.shares k i = shares k i := by
  unfold Os.shares
  cases hslot : shares k i with
  | true =>
    obtain ⟨hsame, hsome⟩ := h.estate.shared k _ i (roots_some hk) hi hslot
    obtain ⟨c, hc⟩ := Option.isSome_iff_exists.mp hsome
    rw [hc] at hsame
    obtain ⟨hp, -, -, hf⟩ := next_eq_some.mp hsame
    obtain ⟨hp', -, -, hf'⟩ := next_eq_some.mp hc
    simp [hp, hp', hf, hf']
  | false =>
    by_contra hno
    simp only [Bool.not_eq_false, Bool.and_eq_true, decide_eq_true_eq] at hno
    obtain ⟨⟨hp, hp'⟩, hf⟩ := hno
    -- one table would have two places
    have hc := h.estate.placed.child_of (h.root hk) (ownOk hi hslot)
      (next_inner (by simp) hp (h.estate.flat _ _ [] i (h.root hk) (by simp) (ownOk hi hslot) hp))
    have hc' := h.estate.placed.child_of h.kernelRoot (kernelOk hi)
      (next_inner (by simp) hp' (h.estate.flat _ _ [] i h.kernelRoot (by simp) (kernelOk hi) hp'))
    rw [hf, hc'] at hc
    cases hc

theorem ok_iff (h : Holds device shares place s) (hk : s.cr3 k ≠ 0) {q : List Nat} :
    (ownPaths s.shares).Ok (some k) q ↔ (ownPaths shares).Ok (some k) q := by
  refine and_congr_right fun _ => and_congr_right fun hlt => forall_congr' fun i => forall_congr' fun hi => ?_
  rw [h.shares_eq hk (hlt i (List.mem_of_mem_head? hi))]

theorem seat_iff (h : Holds device shares place s) {K : Option Nat} {q : List Nat} {f : Nat} :
    (ownPaths s.shares).Ok K q ∧ Radix.seat next s.roots s.vm.tables K q = some f ↔ place f = some (K, q) := by
  rw [h.estate.placed.iff_seat]
  cases K with
  | none => exact Iff.rfl
  | some k =>
    by_cases hk : s.cr3 k = 0
    · have hnone : Radix.seat next s.roots s.vm.tables (some k) q = none := by
        simp [Radix.seat, Os.roots, hk]
      simp [hnone]
    · rw [h.ok_iff hk]

theorem kernelTable_iff (h : Holds device shares place s) {f : Nat} : s.KernelTable f ↔ ∃ q, place f = some (none, q) :=
  exists_congr fun _ => h.seat_iff

/-! ## Leaves -/

/-- The address that the four entries lead to. -/
def address (i4 i3 i2 i1 : Nat) : BitVec 64 := BitVec.ofNat 64 ((((i4 * 512 + i3) * 512 + i2) * 512 + i1) * 4096)

theorem idx_address {i4 i3 i2 i1 : Nat} (h4 : i4 < 512) (h3 : i3 < 512) (h2 : i2 < 512) (h1 : i1 < 512) :
    idxL4 (address i4 i3 i2 i1) = i4 ∧ idxL3 (address i4 i3 i2 i1) = i3 ∧ idxL2 (address i4 i3 i2 i1) = i2 ∧
      idxL1 (address i4 i3 i2 i1) = i1 := by
  simp only [idxL4, idxL3, idxL2, idxL1, idx_eq, address, BitVec.toNat_ofNat]
  refine ⟨?_, ?_, ?_, ?_⟩ <;> omega

theorem lookup_iff (h : Holds device shares place s) (hk : s.cr3 k ≠ 0) {virt w : BitVec 64}
    (hslot : shares k (idxL4 virt) = false) :
    lookup s.vm (s.cr3 k) virt = some w ↔
      ∃ t, place t = some (some k, tablePath virt) ∧ s.vm.tables t (idxL1 virt) = w ∧ present w = true := by
  have hok : (ownPaths shares).Ok (some k) (tablePath virt) := (ownPaths shares).init _ _ _ (own_tablePath hslot)
  have hok3 : (ownPaths shares).Ok (some k) ([idxL4 virt, idxL3 virt] ++ [idxL2 virt]) := hok
  have hok2 : (ownPaths shares).Ok (some k) ([idxL4 virt] ++ [idxL3 virt]) := (ownPaths shares).init _ _ _ hok3
  have hok1 : (ownPaths shares).Ok (some k) ([] ++ [idxL4 virt]) := (ownPaths shares).init _ _ _ hok2
  have hflat := h.estate.flat _ _ [] (idxL4 virt) (h.root hk) (by simp) hok1
  unfold lookup
  dsimp only
  constructor
  · intro hl
    cases hp4 : present (s.vm.tables (s.cr3 k) (idxL4 virt)) with
    | false => simp [hp4] at hl
    | true =>
      have hl3 := h.estate.placed.child_of (h.root hk) hok1 (next_inner (by simp) hp4 (hflat hp4))
      generalize pfn (s.vm.tables (s.cr3 k) (idxL4 virt)) = l3 at hl hl3
      simp only [hp4, Bool.not_true, Bool.false_eq_true, if_false] at hl
      cases hp3 : present (s.vm.tables l3 (idxL3 virt)) && !large (s.vm.tables l3 (idxL3 virt)) with
      | false =>
        rw [if_pos (by simpa [Decidable.or_iff_not_imp_left] using hp3)] at hl
        cases hl
      | true =>
        obtain ⟨hp3, hlarge3⟩ : _ ∧ _ := by simpa using hp3
        have hl2 := h.estate.placed.child_of hl3 hok2 (next_inner (by simp) hp3 hlarge3)
        generalize pfn (s.vm.tables l3 (idxL3 virt)) = l2 at hl hl2
        simp only [hp3, hlarge3, Bool.not_true, Bool.or_self, Bool.false_eq_true, if_false] at hl
        cases hp2 : present (s.vm.tables l2 (idxL2 virt)) && !large (s.vm.tables l2 (idxL2 virt)) with
        | false =>
          rw [if_pos (by simpa [Decidable.or_iff_not_imp_left] using hp2)] at hl
          cases hl
        | true =>
          obtain ⟨hp2, hlarge2⟩ : _ ∧ _ := by simpa using hp2
          have hl1 := h.estate.placed.child_of hl2 hok3 (next_inner (by simp) hp2 hlarge2)
          generalize pfn (s.vm.tables l2 (idxL2 virt)) = l1 at hl hl1
          simp only [hp2, hlarge2, Bool.not_true, Bool.or_self, Bool.false_eq_true, if_false] at hl
          refine ⟨l1, hl1, ?_⟩
          split at hl
          · rename_i hp1
            obtain rfl := Option.some.inj hl
            exact ⟨rfl, hp1⟩
          · cases hl
  · rintro ⟨l1, hl1, rfl, hp1⟩
    obtain ⟨-, l2, hl2, hn2⟩ := (h.estate.placed.child (some k) [idxL4 virt, idxL3 virt] (idxL2 virt) l1).mp hl1
    obtain ⟨-, l3, hl3, hn3⟩ := (h.estate.placed.child (some k) [idxL4 virt] (idxL3 virt) l2).mp hl2
    obtain ⟨-, r, hr, hn4⟩ := (h.estate.placed.child (some k) [] (idxL4 virt) l3).mp hl3
    obtain rfl := h.estate.placed.same hr (h.root hk)
    obtain ⟨hp4, -, -, rfl⟩ := next_eq_some.mp hn4
    obtain ⟨hp3, hlarge3, -, rfl⟩ := next_eq_some.mp hn3
    obtain ⟨hp2, hlarge2, -, rfl⟩ := next_eq_some.mp hn2
    simp [hp4, hp3, hlarge3, hp2, hlarge2, hp1]

theorem leaf_iff (h : Holds device shares place s) (hk : s.cr3 k ≠ 0) {f : Nat} :
    s.Leaf k f ↔ ∃ q, q.length = 4 ∧ place f = some (some k, q) := by
  constructor
  · rintro ⟨virt, w, hslot, hl, hm, rfl⟩
    rw [h.shares_eq hk (idxL4_lt virt)] at hslot
    obtain ⟨t, ht, rfl, hp⟩ := (h.lookup_iff hk hslot).mp hl
    have hok : (ownPaths shares).Ok (some k) (tablePath virt ++ [idxL1 virt]) := own_tablePath hslot
    refine ⟨tablePath virt ++ [idxL1 virt], by simp [tablePath], h.estate.placed.child_of ht hok ?_⟩
    exact next_eq_some.mpr ⟨hp, h.estate.last t k _ _ ht (by simp [tablePath]) hok hp hm, fun _ => hm, rfl⟩
  · rintro ⟨q, hlen, hf⟩
    obtain ⟨i4, i3, i2, i1, rfl⟩ := List.length_eq_four.mp hlen
    obtain ⟨-, hlt, hslot⟩ := h.estate.placed.ok hf
    have hslot := hslot i4 (by simp)
    obtain ⟨h4, h3, h2, h1⟩ : i4 < 512 ∧ i3 < 512 ∧ i2 < 512 ∧ i1 < 512 := by simpa using hlt
    obtain ⟨e4, e3, e2, e1⟩ := idx_address h4 h3 h2 h1
    obtain ⟨-, t, ht, hnext⟩ := (h.estate.placed.child (some k) [i4, i3, i2] i1 f).mp hf
    obtain ⟨hp, -, hm, hpfn⟩ := next_eq_some.mp hnext
    refine ⟨address i4 i3 i2 i1, s.vm.tables t i1, ?_, ?_, hm rfl, hpfn⟩
    · rw [e4, h.shares_eq hk h4, hslot]
    · refine (h.lookup_iff hk (by rw [e4]; exact hslot)).mpr ⟨t, ?_, by rw [e1], hp⟩
      rw [tablePath, e4, e3, e2, ht]

/-! ## The pages given back -/

def procRoots (s : Os) (k : Nat) : Option Nat := s.roots (some k)

theorem place_iff (h : Holds device shares place s) {q : List Nat} {f : Nat} :
    (own (shares k)).Ok q ∧ seat (procRoots s) s.vm k q = some f ↔ place f = some (some k, q) := by
  rw [h.estate.placed.iff_seat]
  rfl

theorem mem_tree (h : Holds device shares place s) (hk : s.cr3 k ≠ 0) {f : Nat} :
    f ∈ treeOf (shares k) s.vm.tables (s.cr3 k) ↔ ∃ q, place f = some (some k, q) := by
  have hr : procRoots s k = some (s.cr3 k) := roots_some hk
  rw [mem_treeOf hr]
  exact exists_congr fun q => h.place_iff

theorem nodup_tree (h : Holds device shares place s) (hk : s.cr3 k ≠ 0) :
    (treeOf (shares k) s.vm.tables (s.cr3 k)).Nodup := by
  have hr : procRoots s k = some (s.cr3 k) := roots_some hk
  refine nodup_treeOf_of hr fun q q' f hq hq' hs hs' => ?_
  have hp := h.place_iff.mp ⟨hq, hs⟩
  rw [h.place_iff.mp ⟨hq', hs'⟩] at hp
  exact (Prod.mk.inj (Option.some.inj hp)).2.symm

theorem freed_eq (h : Holds device shares place s) (hk : s.cr3 k ≠ 0) (hagrees : s.Agrees k) :
    s.freed k = treeOf (shares k) s.vm.tables (s.cr3 k) := by
  refine treeOf_congr fun i hi => ?_
  have hshares := h.shares_eq hk hi
  cases hslot : shares k i with
  | true => exact .inl (by simp [hagrees i hi (hshares.trans hslot)])
  | false =>
    cases hp : present (s.vm.tables (s.cr3 k) i) with
    | false => exact .inr (next_absent hp)
    | true =>
      refine .inl (decide_eq_false fun hsame => ?_)
      rw [hslot, Os.shares, ← hsame, hp] at hshares
      simp at hshares

theorem runs (h : Holds device shares place s) (hk : s.cr3 k ≠ 0) :
    freeAddressSpace s.kernel (s.cr3 k) s.vm = { s.vm with pmm := freeAll s.vm.pmm (s.freed k) } := by
  have hr := h.root hk
  refine freeAddressSpace_freed hk (fun heq => ?_) fun i hi hp _ => ?_
  · rw [heq, h.kernelRoot] at hr
    cases hr
  · cases hslot : shares k i with
    | true =>
      obtain ⟨hsame, hsome⟩ := h.estate.shared k _ i (roots_some hk) hi hslot
      rw [← hsame] at hsome
      obtain ⟨c, hc⟩ := Option.isSome_iff_exists.mp hsome
      exact (next_eq_some.mp hc).2.1
    | false => exact h.estate.flat _ _ [] i hr (by simp) (ownOk hi hslot) hp

theorem frees (h : Holds device shares place s) (hk : s.cr3 k ≠ 0) (hagrees : s.Agrees k) :
    Frees s.vm.pmm (freeAll s.vm.pmm (s.freed k)) (s.freed k) := by
  rw [h.freed_eq hk hagrees]
  refine freeAll_frees (h.nodup_tree hk) fun f hf => ?_
  obtain ⟨q, hq⟩ := (h.mem_tree hk).mp hf
  have hlt := (h.estate.mine f k q hq).1
  exact ⟨(h.estate.used f _ hq).1, hlt, (h.estate.used f _ hq).2 hlt⟩

theorem exact (h : Holds device shares place s) (hk : s.cr3 k ≠ 0) (hagrees : s.Agrees k) : Exact device s k := by
  have hmem : ∀ f, f ∈ s.freed k ↔ ∃ q, place f = some (some k, q) :=
    fun f => by rw [h.freed_eq hk hagrees, h.mem_tree hk]
  refine ⟨h.runs hk, h.freed_eq hk hagrees ▸ h.nodup_tree hk, fun f => ?_, h.frees hk hagrees, fun f hf => ?_⟩
  · rw [hmem, h.tabs k hk, h.leaf_iff hk]
    constructor
    · rintro ⟨q, hq⟩
      rcases Nat.lt_or_ge 3 q.length with hlen | hlen
      · have := (h.estate.placed.ok hq).1
        exact .inr (.inr ⟨q, by omega, hq⟩)
      · rcases eq_or_ne q [] with rfl | hne
        · exact .inl (h.estate.placed.same hq (h.root hk))
        · exact .inr (.inl ⟨q, hne, hlen, hq⟩)
    · rintro (rfl | ⟨q, -, -, hq⟩ | ⟨q, -, hq⟩)
      · exact ⟨[], h.root hk⟩
      · exact ⟨q, hq⟩
      · exact ⟨q, hq⟩
  · obtain ⟨q, hq⟩ := (hmem f).mp hf
    refine ⟨fun hker => ?_, (h.estate.mine f k q hq).2⟩
    obtain ⟨q', hq'⟩ := h.kernelTable_iff.mp hker
    rw [hq] at hq'
    cases hq'

end Holds

theorem Os.freed_shared {i : Nat} (hi : i < 512) (hflat : large (s.vm.tables s.kernel i) = false)
    (hflat' : large (s.vm.tables (s.cr3 k) i) = false) (hshared : s.shares k i = true)
    (hdiff : s.vm.tables (s.cr3 k) i ≠ s.vm.tables s.kernel i) :
    ∃ f ∈ s.freed k, s.KernelTable f := by
  simp only [Os.shares, Bool.and_eq_true, decide_eq_true_eq] at hshared
  obtain ⟨⟨hp, hp'⟩, hf⟩ := hshared
  refine ⟨pfn (s.vm.tables s.kernel i), ?_, [i], ⟨by simp, by simpa using hi⟩, ?_⟩
  · rw [Os.freed, treeOf, List.mem_append, List.mem_flatMap]
    refine .inl ⟨i, List.mem_range.mpr hi, ?_⟩
    rw [if_neg (by simpa using hdiff), next_inner (by decide) hp hflat', Option.map_some, Option.getD_some, hf]
    exact (Radix.mem_places next).mpr ⟨[], Nat.zero_le _, by simp, rfl⟩
  · simp [Radix.seat, Radix.follow, Os.roots, next_inner (by decide : 0 < 3) hp' hflat]

theorem Holds.exact_iff (h : Holds device shares place s) (hk : s.cr3 k ≠ 0) : Exact device s k ↔ s.Agrees k := by
  refine ⟨fun hexact i hi hshared => ?_, h.exact hk⟩
  by_contra hdiff
  obtain ⟨hsame, hsome⟩ := h.estate.shared k _ i (roots_some hk) hi ((h.shares_eq hk hi).symm.trans hshared)
  obtain ⟨c, hc⟩ := Option.isSome_iff_exists.mp hsome
  rw [hc] at hsame
  obtain ⟨f, hf, hker⟩ := Os.freed_shared hi (next_eq_some.mp hc).2.1 (next_eq_some.mp hsame).2.1 hshared hdiff
  exact (hexact.spares f hf).1 hker

end

end Siathos.Paging.Identity
