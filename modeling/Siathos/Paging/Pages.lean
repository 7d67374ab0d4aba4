import Siathos.Paging.Teardown

/-!
# Pages of a process

A page is known by bits 12 to 47 of its address, by which the tables are walked.
-/

open Lib

namespace Siathos.Paging

/-! ## Page numbers -/

def vpn (v : BitVec 64) : Nat := v.toNat / 4096 % 2 ^ 36

theorem idx_eq (v : BitVec 64) (n : Nat) : (v >>> n &&& 0x1FF).toNat = v.toNat / 2 ^ n % 512 := by
  rw [BitVec.toNat_and, BitVec.toNat_ushiftRight, Nat.shiftRight_eq_div_pow]
  exact Nat.and_two_pow_sub_one_eq_mod _ 9

theorem idxL4_eq (v : BitVec 64) : idxL4 v = vpn v / 2 ^ 27 := by
  rw [idxL4, idx_eq, vpn]
  omega

theorem page_inj {v v' : BitVec 64} : tablePath v = tablePath v' ∧ idxL1 v = idxL1 v' ↔ vpn v = vpn v' := by
  simp only [tablePath, List.cons.injEq, and_true, idxL4, idxL3, idxL2, idxL1, idx_eq, vpn]
  omega

def page (base : BitVec 64) (i : Nat) : BitVec 64 := base + BitVec.ofNat 64 (i * 0x1000)

theorem aligned_iff (v : BitVec 64) : v &&& 0xFFF = 0 ↔ v.toNat % 4096 = 0 := by
  have hand : (v &&& 0xFFF).toNat = v.toNat % 4096 := by
    rw [BitVec.toNat_and]
    exact Nat.and_two_pow_sub_one_eq_mod _ 12
  constructor
  · intro h
    rw [← hand, h]
    rfl
  · intro h
    apply BitVec.eq_of_toNat_eq
    rw [hand, h]
    rfl

theorem page_aligned {base : BitVec 64} (h : base &&& 0xFFF = 0) (i : Nat) : page base i &&& 0xFFF = 0 := by
  rw [aligned_iff] at h ⊢
  rw [page, BitVec.toNat_add, BitVec.toNat_ofNat]
  omega

theorem page_page (v : BitVec 64) (i j : Nat) : page (page v i) j = page v (i + j) := by
  rw [page, page, page, BitVec.add_assoc, ← BitVec.ofNat_add, Nat.add_mul]

theorem vpn_page {base : BitVec 64} (h : base &&& 0xFFF = 0) (i : Nat) :
    vpn (page base i) = (vpn base + i) % 2 ^ 36 := by
  rw [aligned_iff] at h
  rw [vpn, vpn, page, BitVec.toNat_add, BitVec.toNat_ofNat]
  omega

theorem vpn_page_inj {base : BitVec 64} (h : base &&& 0xFFF = 0) {i j : Nat} (hi : i < 2 ^ 36) (hj : j < 2 ^ 36)
    (heq : vpn (page base i) = vpn (page base j)) : i = j := by
  rw [vpn_page h, vpn_page h] at heq
  omega

/-! ## The entry of a page -/

section

variable {slots : Nat → Bool} {kernel : Nat} {roots : Nat → Option Nat} {base : Nat → Prop} {m : Vm} {k r : Nat}

/-- The entry of the last level for the page, or 0. -/
def pte (roots : Nat → Option Nat) (m : Vm) (k : Nat) (v : BitVec 64) : BitVec 64 :=
  leafAt roots m k (tablePath v) (idxL1 v)

theorem pte_congr {u v : BitVec 64} (h : vpn u = vpn v) : pte roots m k u = pte roots m k v := by
  obtain ⟨hp, hx⟩ := page_inj.mpr h
  rw [pte, pte, hp, hx]

theorem seat_page (roots : Nat → Option Nat) (m : Vm) (k : Nat) (v : BitVec 64) :
    seat roots m k (tablePath v ++ [idxL1 v]) = next 3 (pte roots m k v) := by
  rw [seat_snoc, pte, leafAt]
  cases seat roots m k (tablePath v) with
  | none => exact (next_absent present_zero).symm
  | some t => rfl

theorem Maps.pte {m' : Vm} {v : BitVec 64} {w : BitVec 64} (h : Maps slots roots k (tablePath v) (idxL1 v) w m m')
    (k' : Nat) {u : BitVec 64} (hu : slots (idxL4 u) = false) :
    pte roots m' k' u = if k' = k ∧ vpn u = vpn v then w else pte roots m k' u := by
  rw [Siathos.Paging.pte, h.leaf k' _ _ (own_tablePath hu) rfl]
  exact if_congr (and_congr_right fun _ => page_inj) rfl rfl

theorem Extends.pte {m' : Vm} (h : Extends slots roots k m m') (k' : Nat) {u : BitVec 64}
    (hu : slots (idxL4 u) = false) :
    pte roots m' k' u = pte roots m k' u :=
  h.leaf k' _ _ (own_tablePath hu) rfl

theorem pte_roots {roots' : Nat → Option Nat} (h : roots' k = roots k) (v : BitVec 64) :
    pte roots' m k v = pte roots m k v := by
  rw [pte, pte, leafAt, leafAt, seat, seat, Radix.seat, Radix.seat, h]

theorem pte_tables {m' : Vm} (h : m'.tables = m.tables) (v : BitVec 64) : pte roots m' k v = pte roots m k v := by
  rw [pte, pte, leafAt, leafAt, seat, seat, h]

theorem Opens.pte_other {c : Nat} {m' : Vm} (h : Opens slots roots k c m m') (hs : Space slots kernel roots base m)
    {k' : Nat} (hne : k' ≠ k) {u : BitVec 64} (hu : slots (idxL4 u) = false) :
    pte (Function.update roots k (some c)) m' k' u = pte roots m k' u := by
  have hok := (own slots).init _ _ (own_tablePath hu)
  rw [pte, pte, leafAt, leafAt, h.others k' _ hne hok]
  cases hseat : seat roots m k' (tablePath u) with
  | none => rfl
  | some t =>
    refine h.words t _ ?_
    rintro rfl
    have hfree := h.free
    rw [hs.seated_used hok hseat] at hfree
    cases hfree

theorem Opens.pte {c : Nat} {m' : Vm} (h : Opens slots roots k c m m')
    {u : BitVec 64} (hu : slots (idxL4 u) = false) : pte (Function.update roots k (some c)) m' k u = 0 := by
  rw [Siathos.Paging.pte, leafAt, h.mine _ ((own slots).init _ _ (own_tablePath hu)), if_neg (by simp [tablePath])]
  rfl

theorem Space.child (h : Space slots kernel roots base m) {p : List Nat} {t i : Nat} (hp : (own slots).Ok (p ++ [i]))
    (hlen : p.length < 3) (hs : seat roots m k p = some t) :
    present (m.tables t i) = false ∧ seat roots m k (p ++ [i]) = none ∨
    present (m.tables t i) = true ∧ large (m.tables t i) = false ∧ user (m.tables t i) = true ∧
      seat roots m k (p ++ [i]) = some (pfn (m.tables t i)) := by
  rw [seat_snoc, hs, Option.bind_some]
  by_cases hw : present (m.tables t i) = true
  · obtain ⟨c, hc, heq⟩ := h.inner k p t i hp hlen hs hw
    have hlt := h.small hc
    right
    rw [heq, next_table hlt, large_entry, pfn_entry hlt (by decide), present_entry, user_entry]
    exact ⟨by decide, by decide, by decide, rfl⟩
  · left
    have habs : present (m.tables t i) = false := by simpa using hw
    exact ⟨habs, next_absent habs⟩

theorem seat_below (hs : seat roots m k p = none) (i : Nat) : seat roots m k (p ++ [i]) = none := by
  rw [seat_snoc, hs]
  rfl

theorem Space.walk (h : Space slots kernel roots base m) (hr : roots k = some r) {v : BitVec 64}
    (hslot : slots (idxL4 v) = false) :
    seat roots m k (tablePath v) = none ∧
      (present (m.tables r (idxL4 v)) = false ∨
        present (m.tables (pfn (m.tables r (idxL4 v))) (idxL3 v)) = false ∨
        present (m.tables (pfn (m.tables (pfn (m.tables r (idxL4 v))) (idxL3 v))) (idxL2 v)) = false) ∨
    present (m.tables r (idxL4 v)) = true ∧ large (m.tables r (idxL4 v)) = false ∧
      present (m.tables (pfn (m.tables r (idxL4 v))) (idxL3 v)) = true ∧
      large (m.tables (pfn (m.tables r (idxL4 v))) (idxL3 v)) = false ∧
      present (m.tables (pfn (m.tables (pfn (m.tables r (idxL4 v))) (idxL3 v))) (idxL2 v)) = true ∧
      large (m.tables (pfn (m.tables (pfn (m.tables r (idxL4 v))) (idxL3 v))) (idxL2 v)) = false ∧
      (user (m.tables r (idxL4 v)) = true ∧ user (m.tables (pfn (m.tables r (idxL4 v))) (idxL3 v)) = true ∧
        user (m.tables (pfn (m.tables (pfn (m.tables r (idxL4 v))) (idxL3 v))) (idxL2 v)) = true) ∧
      seat roots m k (tablePath v) =
        some (pfn (m.tables (pfn (m.tables (pfn (m.tables r (idxL4 v))) (idxL3 v))) (idxL2 v))) := by
  have hok3 := (own slots).init _ _ (own_tablePath hslot)
  have hok2 := (own slots).init [idxL4 v, idxL3 v] _ hok3
  have hok1 := (own slots).init [idxL4 v] _ hok2
  rcases h.child hok1 (by simp) ((seat_nil roots m k).trans hr) with ⟨h4, hs⟩ | ⟨h4, hl4, hu4, hs⟩
  · exact .inl ⟨seat_below (seat_below hs _) _, .inl h4⟩
  · rcases h.child hok2 (by simp) hs with ⟨h3, hs⟩ | ⟨h3, hl3, hu3, hs⟩
    · exact .inl ⟨seat_below hs _, .inr (.inl h3)⟩
    · rcases h.child hok3 (by simp) hs with ⟨h2, hs⟩ | ⟨h2, hl2, hu2, hs⟩
      · exact .inl ⟨hs, .inr (.inr h2)⟩
      · exact .inr ⟨h4, hl4, h3, hl3, h2, hl2, ⟨hu4, hu3, hu2⟩, hs⟩

theorem lookup_eq (h : Space slots kernel roots base m) (hr : roots k = some r) {v : BitVec 64}
    (hslot : slots (idxL4 v) = false) :
    lookup m r v = if present (pte roots m k v) then some (pte roots m k v) else none := by
  unfold lookup pte leafAt
  dsimp only
  rcases h.walk hr hslot with ⟨hs, habs⟩ | ⟨h4, -, h3, hl3, h2, hl2, -, hs⟩
  · have hzero : present 0#64 = false := present_zero
    rw [hs]
    rcases habs with h4 | h3 | h2
    · simp [h4, hzero]
    · simp [h3, hzero]
    · simp [h2, hzero]
  · simp [hs, h4, h3, hl3, h2, hl2]

/-- Ring 3 reaches the page of 4 KB. -/
def userPage (m : Vm) (pml4 : Nat) (virt : BitVec 64) : Bool :=
  let e4 := m.tables pml4 (idxL4 virt)
  let e3 := m.tables (pfn e4) (idxL3 virt)
  let e2 := m.tables (pfn e3) (idxL2 virt)
  user e4 && user e3 && user e2 && (lookup m pml4 virt).any user

theorem userPage_iff (h : Space slots kernel roots base m) (hr : roots k = some r) {v : BitVec 64}
    (hslot : slots (idxL4 v) = false) :
    userPage m r v = true ↔ present (pte roots m k v) = true ∧ user (pte roots m k v) = true := by
  unfold userPage
  rw [lookup_eq h hr hslot]
  rcases h.walk hr hslot with ⟨hs, -⟩ | ⟨-, -, -, -, -, -, ⟨hu4, hu3, hu2⟩, -⟩
  · have hpte : pte roots m k v = 0 := by
      rw [pte, leafAt, hs]
      rfl
    have hzero : present 0#64 = false := present_zero
    simp [hpte, hzero]
  · dsimp only
    rw [hu4, hu3, hu2]
    by_cases hp : present (pte roots m k v) = true
    · simp [hp]
    · simp [hp]

theorem unmapUser_eq (h : Space slots kernel roots base m) (hr : roots k = some r) {v : BitVec 64}
    (hslot : slots (idxL4 v) = false) (hv : v &&& 0xFFF = 0) :
    present (pte roots m k v) = false ∧ unmapUser r v m = (m, 0) ∨
    ∃ t, seat roots m k (tablePath v) = some t ∧ m.tables t (idxL1 v) = pte roots m k v ∧
      unmapUser r v m = (leafWrite m t (idxL1 v) 0, pfn (pte roots m k v)) := by
  have hne : r ≠ 0 := h.seated_ne_zero (own_nil slots) ((seat_nil roots m k).trans hr)
  unfold unmapUser pte leafAt
  rw [if_neg (not_or.mpr ⟨hne, not_not.mpr hv⟩)]
  dsimp only
  rcases h.walk hr hslot with ⟨hs, habs⟩ | ⟨h4, -, h3, -, h2, hl2, -, hs⟩
  · left
    rw [hs]
    refine ⟨present_zero, ?_⟩
    rcases habs with h4 | h3 | h2
    · simp [h4]
    · simp [h3]
    · simp [h2]
  · simp only [hs, h4, h3, h2, hl2, Option.elim_some]
    generalize pfn (m.tables (pfn (m.tables (pfn (m.tables r (idxL4 v))) (idxL3 v))) (idxL2 v)) = t
    by_cases h1 : present (m.tables t (idxL1 v)) = true
    · exact .inr ⟨t, rfl, rfl, by simp [h1, leafWrite]⟩
    · exact .inl ⟨by simpa using h1, by simp [h1]⟩

theorem Space.release (h : Space slots kernel roots base m) {f : Nat} (hf : base f) (hk : f ≠ kernel) (hnull : f ≠ 0)
    (hlt : f < m.pmm.total) :
    Space slots kernel roots (fun g => base g ∧ g ≠ f) { m with pmm := pmmFree m.pmm f 1 } := by
  have hfrees : Frees m.pmm (pmmFree m.pmm f 1) [f] :=
    freeAll_frees (List.nodup_singleton f) (by simpa using ⟨hnull, hlt, (h.used f).mpr (.inl hf)⟩)
  refine (h.frees hfrees (by simpa using hf) (by simpa using hnull.symm)
    (by simpa using hk.symm)).base_congr fun g => ?_
  rw [List.mem_singleton]

end

end Siathos.Paging
