import Siathos.Paging.Release

/-!
# Address spaces over whole runs

Each operation keeps an estate. A run from the boot therefore ends with one, and the teardown of any process is
exact when the processor has marked the same entries in the process's PML4 and in the kernel's.
-/

open Lib

namespace Siathos.Paging.Identity

section

variable {device : Nat → Prop} {shares : Nat → Nat → Bool} {place : Places} {s : Os} {k : Nat}

/-! ## The boot -/

open Classical in
/-- The place of a table of the kernel. -/
noncomputable def bootPlace (s : Os) (f : Nat) : Option (Option Nat × List Nat) :=
  if h : s.KernelTable f then some (none, h.choose) else none

theorem Booted.place_iff (h : Booted device s) {f : Nat} {K : Option Nat} {q : List Nat} :
    bootPlace s f = some (K, q) ↔
      K = none ∧ (ownPaths s.shares).Ok none q ∧ Radix.seat next s.roots s.vm.tables none q = some f := by
  unfold bootPlace
  split
  · rename_i hker
    obtain ⟨hok, hs⟩ := hker.choose_spec
    simp only [Option.some.injEq, Prod.mk.injEq]
    constructor
    · rintro ⟨rfl, rfl⟩
      exact ⟨rfl, hok, hs⟩
    · rintro ⟨rfl, hok', hs'⟩
      exact ⟨rfl, h.kernelTree _ q f hok hok' hs hs'⟩
  · rename_i hker
    simp only [reduceCtorEq, false_iff]
    rintro ⟨-, hok, hs⟩
    exact hker ⟨q, hok, hs⟩

theorem Booted.holds (h : Booted device s) : Holds device s.shares (bootPlace s) s := by
  have hroots : ∀ k, s.roots (some k) = none := fun k => if_pos (h.empty k)
  refine ⟨⟨h.total, h.null, ⟨fun K t => ?_, fun K p i c => ?_⟩, rfl, fun f x hx => ?_, fun f k p hp => ?_,
    fun t K p i ht hlen hok hp => ?_, fun t k p i ht => ?_, fun k r i hr => ?_, h.deviceUsed⟩,
    fun k hk => absurd (h.empty k) hk⟩
  · rw [h.place_iff]
    cases K with
    | none => simp [(ownPaths s.shares).nil none, Radix.seat, Radix.follow]
    | some k => simp [hroots]
  · simp only [h.place_iff]
    constructor
    · rintro ⟨rfl, hok, hs⟩
      rw [Radix.seat_snoc, Option.bind_eq_some_iff] at hs
      obtain ⟨t, ht, hn⟩ := hs
      exact ⟨hok, t, ⟨rfl, (ownPaths s.shares).init none p i hok, ht⟩, hn⟩
    · rintro ⟨hok, t, ⟨rfl, -, ht⟩, hn⟩
      refine ⟨rfl, hok, ?_⟩
      rw [Radix.seat_snoc, ht]
      exact hn
  · obtain ⟨-, hok, hs⟩ := h.place_iff.mp hx
    exact h.kernelUsed f ⟨_, hok, hs⟩
  · cases (h.place_iff.mp hp).1
  · obtain ⟨rfl, -, hs⟩ := h.place_iff.mp ht
    exact h.kernelFlat p i t hok hlen hs hp
  · cases (h.place_iff.mp ht).1
  · rw [hroots k] at hr
    cases hr

/-! ## `pmm_alloc` -/

theorem pmmAlloc_keeps (pmm : Pmm) (why : Purpose) (pages : Nat) :
    (pmmAlloc pmm why pages).1.total = pmm.total ∧
      ∀ f, pmm.used f = true → (pmmAlloc pmm why pages).1.used f = true := by
  unfold pmmAlloc
  split
  · exact ⟨rfl, fun _ hf => hf⟩
  · split
    · exact ⟨rfl, fun f hf => by simp [hf]⟩
    · exact ⟨rfl, fun _ hf => hf⟩

theorem Holds.take (h : Holds device shares place s) (why : Purpose) (pages : Nat) :
    Holds device shares place (s.step (.take why pages)) :=
  ⟨h.estate.withPmm (pmmAlloc_keeps _ why pages).1 (pmmAlloc_keeps _ why pages).2, h.tabs⟩

/-! ## `paging_new_address_space` -/

theorem roots_update {s' : Os} {c : Nat} (hker : s'.kernel = s.kernel) (hcr3 : s'.cr3 = Function.update s.cr3 k c) :
    s'.roots = Function.update s.roots (some k) (if c = 0 then none else some c) := by
  funext K
  cases K with
  | none => simp [Os.roots, hker]
  | some k' =>
    rcases eq_or_ne k' k with rfl | hne
    · simp [Os.roots, hcr3]
    · simp [Os.roots, hcr3, hne]

/-- The slot `k` has got the PML4 `r`. -/
def opened (s : Os) (k r : Nat) (pmm : Pmm) : Os :=
  { s with
    vm := ⟨pmm, fun t i => if t = r then s.vm.tables s.kernel i else s.vm.tables t i, s.vm.bytes⟩
    cr3 := Function.update s.cr3 k r
    tabs := Function.update s.tabs k [] }

theorem opened_roots {r : Nat} (hr : r ≠ 0) (pmm : Pmm) :
    (opened s k r pmm).roots = Function.update s.roots (some k) (some r) := by
  have h : (opened s k r pmm).roots = _ := roots_update (s := s) (k := k) (c := r) rfl rfl
  rwa [if_neg hr] at h

theorem Holds.opens (h : Holds device shares place s) (hk : s.cr3 k = 0) {pmm : Pmm} {r : Nat}
    (htakes : Takes s.vm.pmm pmm r 1) : ∃ shares' place', Holds device shares' place' (opened s k r pmm) := by
  have hroot : s.roots (some k) = none := if_pos hk
  obtain ⟨hfree, hlt⟩ := htakes.free r (Nat.le_refl _) (by omega)
  have hc := h.estate.unplaced hlt hfree
  have hr0 : r ≠ 0 := by
    rintro rfl
    rw [h.estate.null] at hfree
    cases hfree
  have hne : ∀ {t x}, place t = some x → t ≠ r := by
    rintro t x hx rfl
    rw [hc] at hx
    cases hx
  have hkr := hne h.kernelRoot
  let shares' := Function.update shares k fun i => present (s.vm.tables s.kernel i)
  have hself : ∀ i, (opened s k r pmm).vm.tables r i = s.vm.tables s.kernel i := fun i => if_pos rfl
  have hother : ∀ {t} i, t ≠ r → (opened s k r pmm).vm.tables t i = s.vm.tables t i := fun i ht => if_neg ht
  have hshares : ∀ {k'}, k' ≠ k → shares' k' = shares k' := fun hk' => Function.update_of_ne hk' _ _
  have hmine : shares' k = fun i => present (s.vm.tables s.kernel i) := Function.update_self ..
  have hOk : ∀ K, K ≠ some k → (ownPaths shares').Ok K = (ownPaths shares).Ok K := by
    intro K hK
    cases K with
    | none => rfl
    | some k' =>
      have hk' : k' ≠ k := fun heq => hK (congrArg some heq)
      change (own (shares' k')).Ok = (own (shares k')).Ok
      rw [hshares hk']
  -- the new PML4 has no entry of its own
  have hempty : ∀ i, (ownPaths shares').Ok (some k) [i] → present ((opened s k r pmm).vm.tables r i) = false := by
    intro i hok
    have := hok.2.2 i (by simp)
    rw [hself]
    rwa [hmine] at this
  have hplaces : ∀ {f K q}, Function.update place r (some (some k, [])) f = some (K, q) →
      f = r ∧ K = some k ∧ q = [] ∨ f ≠ r ∧ place f = some (K, q) ∧ K ≠ some k := by
    intro f K q hf
    rcases eq_or_ne f r with rfl | hfr
    · rw [Function.update_self] at hf
      obtain ⟨rfl, rfl⟩ := Prod.mk.inj (Option.some.inj hf)
      exact .inl ⟨rfl, rfl, rfl⟩
    · rw [Function.update_of_ne hfr] at hf
      refine .inr ⟨hfr, hf, ?_⟩
      rintro rfl
      have hs := (h.estate.placed.iff_seat.mp hf).2
      rw [Radix.seat, hroot] at hs
      cases hs
  refine ⟨shares', Function.update place r (some (some k, [])), ⟨?_, (htakes.used 0).mpr (.inl h.estate.null), ?_, rfl,
    fun f x hx => ?_, fun f k' p hp => ?_, fun t K p i ht hlen hok hp => ?_, fun t k' p i ht hlen hok hp hm => ?_,
    fun k' r' i hr' hi hslot => ?_, fun f hd hf => ?_⟩, fun k' hk' f => ?_⟩
  · exact htakes.total ▸ h.estate.total
  · rw [opened_roots hr0]
    refine h.estate.placed.plant hroot hc hOk (fun i hok => next_absent (hempty i hok)) fun t i ht => hother i ?_
    obtain ⟨x, hx⟩ := Option.isSome_iff_exists.mp ht
    exact hne hx
  · obtain ⟨K, q⟩ := x
    rcases hplaces hx with ⟨rfl, -, -⟩ | ⟨-, hf, -⟩
    · exact ⟨hr0, fun _ => (htakes.used f).mpr (.inr ⟨Nat.le_refl f, by omega⟩)⟩
    · refine ⟨(h.estate.used f _ hf).1, fun hlt' => (htakes.used f).mpr (.inl ((h.estate.used f _ hf).2 ?_))⟩
      exact htakes.total ▸ hlt'
  · change f < pmm.total ∧ _
    rw [htakes.total]
    rcases hplaces hp with ⟨rfl, -, -⟩ | ⟨-, hf, -⟩
    · refine ⟨hlt, fun hd => ?_⟩
      rw [h.estate.deviceUsed f hd hlt] at hfree
      cases hfree
    · exact h.estate.mine f k' p hf
  · rcases hplaces ht with ⟨rfl, rfl, rfl⟩ | ⟨htr, ht, hK⟩
    · rw [hempty i hok] at hp
      cases hp
    · rw [hother i htr] at hp ⊢
      exact h.estate.flat t K p i ht hlen (hOk K hK ▸ hok) hp
  · rcases hplaces ht with ⟨rfl, -, rfl⟩ | ⟨htr, ht, hK⟩
    · simp at hlen
    · rw [hother i htr] at hp hm ⊢
      exact h.estate.last t k' p i ht hlen (hOk _ hK ▸ hok) hp hm
  · rw [opened_roots hr0] at hr'
    rw [show (opened s k r pmm).kernel = s.kernel from rfl, hother i hkr]
    rcases eq_or_ne k' k with rfl | hne'
    · rw [Function.update_self] at hr'
      obtain rfl := Option.some.inj hr'
      rw [hmine] at hslot
      rw [hself, next_inner (by decide) hslot (h.estate.flat _ _ [] i h.kernelRoot (by simp) (Holds.kernelOk hi) hslot)]
      simp
    · rw [Function.update_of_ne (by simpa using hne')] at hr'
      rw [hother i (hne (h.estate.root hr'))]
      exact h.estate.shared k' r' i hr' hi (hshares hne' ▸ hslot)
  · exact (htakes.used f).mpr (.inl (h.estate.deviceUsed f hd (htakes.total ▸ hf)))
  · rcases eq_or_ne k' k with rfl | hne'
    · change f ∈ Function.update s.tabs k' [] k' ↔ _
      rw [Function.update_self]
      simp only [List.not_mem_nil, false_iff]
      rintro ⟨p, hp, -, hf⟩
      rcases hplaces hf with ⟨-, -, rfl⟩ | ⟨-, -, hK⟩
      · exact hp rfl
      · exact hK rfl
    · change Function.update s.cr3 k r k' ≠ 0 at hk'
      change f ∈ Function.update s.tabs k [] k' ↔ _
      rw [Function.update_of_ne hne'] at hk' ⊢
      rw [h.tabs k' hk' f]
      refine exists_congr fun p => and_congr_right fun _ => and_congr_right fun _ => ⟨fun hf => ?_, fun hf => ?_⟩
      · rw [Function.update_of_ne (hne hf), hf]
      · rcases hplaces hf with ⟨-, hK, -⟩ | ⟨-, hf, -⟩
        · exact absurd (Option.some.inj hK) hne'
        · exact hf
theorem Holds.create (h : Holds device shares place s) (hk : s.cr3 k = 0) :
    ∃ shares' place', Holds device shares' place' (s.step (.create k)) := by
  rcases pmmAlloc_page h.estate.null .pml4 with ⟨pmm, c, heq, htakes⟩ | ⟨-, heq⟩
  · have hstep : s.step (.create k) = opened s k (c + 1) pmm := by
      rw [Os.step, newAddressSpace, heq]
      rfl
    rw [hstep]
    exact h.opens hk htakes
  · have hcr3 : Function.update s.cr3 k 0 = s.cr3 := by rw [← hk, Function.update_eq_self]
    have hstep : s.step (.create k) =
        { s with
          vm := { s.vm with pmm := { s.vm.pmm with refused := .pml4 :: s.vm.pmm.refused } }
          tabs := Function.update s.tabs k [] } := by
      rw [Os.step, newAddressSpace, heq]
      simp only [hcr3]
    rw [hstep]
    refine ⟨shares, place, h.estate.withPmm rfl fun _ hf => hf, fun k' hk' f => ?_⟩
    have hne : k' ≠ k := by
      rintro rfl
      exact hk' hk
    dsimp only
    rw [Function.update_of_ne hne]
    exact h.tabs k' hk' f

/-! ## `paging_map_user` -/

theorem Holds.mapUser (h : Holds device shares place s) {virt phys flags : BitVec 64}
    (hallowed : s.Allowed (.mapUser k virt phys flags)) (hclean : s.Clean device (.mapUser k virt phys flags)) :
    ∃ place', Holds device shares place' (s.step (.mapUser k virt phys flags)) := by
  obtain ⟨hk, habs⟩ := hallowed
  have hslot : shares k (idxL4 virt) = false := by
    rw [← h.shares_eq hk (idxL4_lt virt), Os.shares, habs]
    simp
  obtain ⟨place', hleft⟩ := mapUser_leaves h.estate (roots_some hk) virt phys flags hslot fun hp hm => by
    obtain ⟨hl, hlent⟩ := hclean hp hm
    refine ⟨hl, hlent.ne_zero, hlent.inRange, hlent.used, hlent.memory, fun x hx => ?_⟩
    obtain ⟨hok, hs⟩ := h.seat_iff.mpr hx
    obtain ⟨hK, hq⟩ := hlent.free x.1 x.2 hok hs
    exact Prod.ext hK hq
  exact ⟨place', hleft.1, h.tabs.call (Nat.le_refl 3) hleft.2⟩

/-! ## `paging_map_device_identity` -/

/-- No process has a table of the last level where the page of 2 MB is to be mapped. -/
def Clear (shares : Nat → Nat → Bool) (place : Places) (a : BitVec 64) : Prop :=
  ∀ k, shares k (idxL4 a) = false → ∀ c, place c ≠ some (some k, tablePath a)

theorem Clear.grown {a : BitVec 64} {K : Option Nat} {m m' : Vm} {place' : Places} (h : Clear shares place a)
    (hg : Grown 2 K m m' place place') : Clear shares place' a := by
  intro k hslot c hc
  rcases hg.old c k _ hc (by simp [tablePath]) with hold | ⟨-, -, hlen, -⟩
  · exact h k hslot c hold
  · simp [tablePath] at hlen

/-- What the calls for a list of pages need and keep. -/
structure Mapping (device : Nat → Prop) (shares : Nat → Nat → Bool) (l : List (BitVec 64)) (place : Places) (s : Os) :
    Prop extends Holds device shares place s where
  clear : ∀ a ∈ l, Clear shares place a

theorem Mapping.call {l : List (BitVec 64)} (h : Mapping device shares l place s) {vm : Vm} {place' : Places}
    (hleft : Leaves device s.kernel s.roots shares 2 (some k) s.vm place vm place') :
    Mapping device shares l place'
      { s with vm, tabs := Function.update s.tabs k (taken s.vm vm ++ s.tabs k) } :=
  ⟨⟨hleft.1, h.tabs.call (by decide) hleft.2⟩, fun a ha => (h.clear a ha).grown hleft.2⟩

theorem mapDeviceFor_keeps {l : List (BitVec 64)} {a : BitVec 64} (ha : a ∈ l) (h : Mapping device shares l place s)
    (hready : Ready place s.vm a) (k : Nat) :
    ∃ place', Mapping device shares l place' (mapDeviceFor a s k) ∧ Ready place' (mapDeviceFor a s k).vm a := by
  unfold mapDeviceFor
  split
  · exact ⟨place, h, hready⟩
  · rename_i hk
    have hk : s.cr3 k ≠ 0 := fun h0 => hk (.inl h0)
    cases hslot : shares k (idxL4 a) with
    | true =>
      obtain ⟨place', hleft⟩ := pml4MapDevice_shared h.estate (roots_some hk) hslot hready
      exact ⟨place', h.call hleft, hready.grown hleft.2⟩
    | false =>
      have hok : (ownPaths shares).Ok (some k) (tablePath a) := (ownPaths shares).init _ _ _ (own_tablePath hslot)
      obtain ⟨place', hleft, -⟩ := pml4MapDevice_leaves h.estate (roots_some hk) a hok fun _ => h.clear a ha k hslot
      exact ⟨place', h.call hleft, hready.grown hleft.2⟩

theorem mapDeviceFor_fold {l : List (BitVec 64)} {a : BitVec 64} (ha : a ∈ l) (ks : List Nat)
    (h : Mapping device shares l place s) (hready : Ready place s.vm a) :
    ∃ place', Mapping device shares l place' (ks.foldl (mapDeviceFor a) s) := by
  induction ks generalizing s place with
  | nil => exact ⟨place, h⟩
  | cons k ks ih =>
    obtain ⟨place', hnext, hready'⟩ := mapDeviceFor_keeps ha h hready k
    exact ih hnext hready'

theorem mapDevicePage_keeps {l : List (BitVec 64)} {a : BitVec 64} (ha : a ∈ l) (h : Mapping device shares l place s) :
    ∃ place', Mapping device shares l place' (mapDevicePage s a) := by
  have hok : (ownPaths shares).Ok none (tablePath a) :=
    ⟨by simp [tablePath], by simpa [tablePath] using ⟨idxL4_lt a, idxL3_lt a, idxL2_lt a⟩⟩
  obtain ⟨place₁, hleft, hready⟩ := pml4MapDevice_leaves h.estate rfl a hok (by simp)
  have hfirst : Mapping device shares l place₁ { s with vm := pml4MapDevice s.kernel a s.vm } :=
    ⟨⟨hleft.1, h.tabs.kernel hleft.2⟩, fun b hb => (h.clear b hb).grown hleft.2⟩
  unfold mapDevicePage
  exact mapDeviceFor_fold ha _ hfirst (hready rfl)

theorem mapDevicePages_keeps {l as : List (BitVec 64)} (hsub : ∀ a ∈ as, a ∈ l) (h : Mapping device shares l place s) :
    ∃ place', Mapping device shares l place' (as.foldl mapDevicePage s) := by
  induction as generalizing s place with
  | nil => exact ⟨place, h⟩
  | cons a as ih =>
    obtain ⟨place', hnext⟩ := mapDevicePage_keeps (hsub a List.mem_cons_self) h
    rw [List.foldl_cons]
    exact ih (fun b hb => hsub b (List.mem_cons_of_mem a hb)) hnext

theorem Holds.mapDevice (h : Holds device shares place s) {phys bytes : BitVec 64}
    (hclean : s.Clean device (.mapDevice phys bytes)) :
    ∃ place', Holds device shares place' (s.step (.mapDevice phys bytes)) := by
  have hclear : ∀ a ∈ devicePages phys bytes, Clear shares place a := by
    intro a ha k hslot c hc
    obtain ⟨hok, hs⟩ := h.seat_iff.mpr hc
    have hk : s.cr3 k ≠ 0 := by
      intro hk
      simp [Radix.seat, Os.roots, hk] at hs
    rw [hclean a ha k ((h.shares_eq hk (idxL4_lt a)).trans hslot)] at hs
    cases hs
  obtain ⟨place', hnext⟩ := mapDevicePages_keeps (fun _ ha => ha) (Mapping.mk h hclear)
  exact ⟨place', hnext.toHolds⟩

/-! ## The processor -/

@[simp] theorem present_touched (dirty : Bool) (w : BitVec 64) : present (touched dirty w) = present w := by
  cases dirty <;> simp [present, touched]

@[simp] theorem large_touched (dirty : Bool) (w : BitVec 64) : large (touched dirty w) = large w := by
  cases dirty <;> simp [large, touched]

@[simp] theorem mmio_touched (dirty : Bool) (w : BitVec 64) : mmio (touched dirty w) = mmio w := by
  cases dirty <;> simp [mmio, touched]

@[simp] theorem pfn_touched (dirty : Bool) (w : BitVec 64) : pfn (touched dirty w) = pfn w := by
  have hbit : (if dirty then 0x40 else 0x20 : BitVec 64) &&& pteAddr = 0#64 := by cases dirty <;> decide
  rw [pfn, touched, BitVec.and_or_distrib_right, hbit, BitVec.or_zero, pfn]

theorem Holds.touch (h : Holds device shares place s) (pml4 i : Nat) (dirty : Bool) :
    Holds device shares place (s.step (.touch pml4 i dirty)) := by
  have hsame : ∀ {α : Type} (g : BitVec 64 → α), (∀ w, g (touched dirty w) = g w) → ∀ t j,
      g (Radix.write s.vm.tables pml4 i (touched dirty (s.vm.tables pml4 i)) t j) = g (s.vm.tables t j) := by
    intro α g hg t j
    by_cases hw : t ≠ pml4 ∨ j ≠ i
    · rw [Radix.write_other hw]
    · obtain ⟨rfl, rfl⟩ : t = pml4 ∧ j = i := by simpa [not_or] using hw
      rw [Radix.write_same, hg]
  exact ⟨h.estate.bits (hsame present (by simp)) (hsame large (by simp)) (hsame mmio (by simp)) (hsame pfn (by simp)),
    h.tabs⟩

/-! ## `paging_free_address_space` -/

/-- The slot `k` has given its address space back. -/
def vacated (s : Os) (k : Nat) (pmm : Pmm) : Os :=
  { s with vm := { s.vm with pmm }, cr3 := Function.update s.cr3 k 0 }

theorem vacated_roots (pmm : Pmm) : (vacated s k pmm).roots = Function.update s.roots (some k) none := by
  have h : (vacated s k pmm).roots = _ := roots_update (s := s) (k := k) (c := 0) rfl rfl
  rwa [if_pos rfl] at h

theorem Holds.free (h : Holds device shares place s) (hk : s.cr3 k ≠ 0) (hagrees : s.Agrees k) :
    Holds device shares (Radix.Placed.felled place (some k)) (s.step (.free k)) := by
  have hstep : s.step (.free k) = vacated s k (freeAll s.vm.pmm (s.freed k)) := by
    rw [Os.step, h.runs hk, vacated]
  rw [hstep]
  have hfrees := h.frees hk hagrees
  have hspares := (h.exact hk hagrees).spares
  have hmem : ∀ f, f ∈ s.freed k ↔ ∃ q, place f = some (some k, q) := fun f => by
    rw [h.freed_eq hk hagrees, h.mem_tree hk]
  clear hstep
  generalize freeAll s.vm.pmm (s.freed k) = pmm at hfrees ⊢
  generalize s.freed k = freed at hfrees hmem hspares
  have hstill : ∀ f, f ∉ freed → s.vm.pmm.used f = true → pmm.used f = true :=
    fun f hf hused => (hfrees.used f).mpr ⟨hused, hf⟩
  have hroots : ∀ {K}, (Function.update s.roots (some k) none) K ≠ none → K ≠ some k := by
    rintro K hK rfl
    exact hK (Function.update_self ..)
  have hout : ∀ {f x}, Radix.Placed.felled place (some k) f = some x → place f = some x ∧ f ∉ freed := by
    intro f x hx
    obtain ⟨hp, hne⟩ := Radix.Placed.felled_eq_some.mp hx
    refine ⟨hp, fun hf => ?_⟩
    obtain ⟨q, hq⟩ := (hmem f).mp hf
    rw [hp] at hq
    exact hne (congrArg Prod.fst (Option.some.inj hq))
  have htotal : (vacated s k pmm).vm.pmm.total = s.vm.pmm.total := hfrees.total
  refine ⟨⟨?_, ?_, ?_, rfl, fun f x hx => ?_, fun f k' p hp => ?_, fun t K p i ht => ?_, fun t k' p i ht => ?_,
    fun k' r i hr hi hslot => ?_, fun f hd hf => ?_⟩, fun k' hk' f => ?_⟩
  · rw [htotal]
    exact h.estate.total
  · refine hstill 0 (fun h0 => ?_) h.estate.null
    obtain ⟨q, hq⟩ := (hmem 0).mp h0
    exact (h.estate.used 0 _ hq).1 rfl
  · rw [vacated_roots]
    exact h.estate.placed.fell (some k)
  · obtain ⟨hp, hno⟩ := hout hx
    rw [htotal]
    exact ⟨(h.estate.used f x hp).1, fun hf => hstill f hno ((h.estate.used f x hp).2 hf)⟩
  · rw [htotal]
    exact h.estate.mine f k' p (hout hp).1
  · exact h.estate.flat t K p i (hout ht).1
  · exact h.estate.last t k' p i (hout ht).1
  · rw [vacated_roots] at hr
    have hne := hroots (by rw [hr]; simp)
    rw [Function.update_of_ne hne] at hr
    exact h.estate.shared k' r i hr hi hslot
  · rw [htotal] at hf
    exact hstill f (fun hmine => (hspares f hmine).2 hd) (h.estate.deviceUsed f hd hf)
  · change Function.update s.cr3 k 0 k' ≠ 0 at hk'
    have hne : k' ≠ k := by
      rintro rfl
      exact hk' (Function.update_self ..)
    rw [Function.update_of_ne hne] at hk'
    rw [show (vacated s k pmm).tabs = s.tabs from rfl, h.tabs k' hk' f]
    simp only [Radix.Placed.felled_eq_some, ne_eq, Option.some.injEq, hne, not_false_eq_true, and_true]

/-! ## Runs -/

theorem Holds.step (h : Holds device shares place s) {o : Op} (hallowed : s.Allowed o) (hclean : s.Clean device o) :
    ∃ shares' place', Holds device shares' place' (s.step o) := by
  cases o with
  | take why pages => exact ⟨shares, place, h.take why pages⟩
  | create k => exact h.create hallowed.2
  | mapUser k virt phys flags =>
    obtain ⟨place', h'⟩ := h.mapUser hallowed hclean
    exact ⟨shares, place', h'⟩
  | mapDevice phys bytes =>
    obtain ⟨place', h'⟩ := h.mapDevice hclean
    exact ⟨shares, place', h'⟩
  | touch pml4 i dirty => exact ⟨shares, place, h.touch pml4 i dirty⟩
  | free k => exact ⟨shares, _, h.free hallowed hclean⟩

def Sound (device : Nat → Prop) (s : Os) : Prop := ∃ shares place, Holds device shares place s

theorem sound_run {t : Os} {ops : List Op} (hrun : Run (Guarded (Os.Clean device) Step) s ops t)
    (h : Sound device s) : Sound device t := by
  refine hrun.invariant (fun u o v hu hstep => ?_) h
  obtain ⟨shares, place, hu⟩ := hu
  obtain ⟨hclean, hallowed, rfl⟩ := hstep
  exact hu.step hallowed hclean

theorem Sound.lent (h : Sound device s) {why : Purpose} {pages c : Nat} (hfree : s.vm.pmm.used c = false)
    (hlt : c < s.vm.pmm.total) (htaken : (s.step (.take why pages)).vm.pmm.used c = true) (virt : BitVec 64) :
    (s.step (.take why pages)).Lent device k virt c := by
  obtain ⟨shares, place, h⟩ := h
  have hunused : ¬s.vm.pmm.used c = true := by simp [hfree]
  refine ⟨?_, ?_, htaken, fun hdevice => hunused (h.estate.deviceUsed c hdevice hlt), fun K q hok hseat => ?_⟩
  · rintro rfl
    exact hunused h.estate.null
  · rwa [Os.step, (pmmAlloc_keeps s.vm.pmm why pages).1]
  · have hplace := h.seat_iff.mp ⟨hok, hseat⟩
    exact absurd ((h.estate.used c _ hplace).2 hlt) hunused

end

/-- A teardown gives back what the process has and nothing else, exactly when the shared entries are the kernel's. -/
theorem teardown_right_iff (device : Nat → Prop) (s t : Os) (ops : List Op) (k : Nat) (hboot : Booted device s)
    (hrun : Run (Guarded (Os.Clean device) Step) s ops t) (hk : t.cr3 k ≠ 0) : Exact device t k ↔ t.Agrees k := by
  obtain ⟨shares, place, h⟩ := sound_run hrun ⟨_, _, hboot.holds⟩
  exact h.exact_iff hk

/-! ## An entry marked once -/

/-- The kernel's PML4 is page 1, and one page of 2 MB is mapped through pages 2 and 3. -/
def bootTables (t i : Nat) : BitVec 64 :=
  if i ≠ 0 then 0 else if t = 1 then 0x2003 else if t = 2 then 0x3003 else if t = 3 then 0x83 else 0

/-- Page 4 is a device. -/
def boot : Os where
  kernel := 1
  vm := ⟨⟨16, fun f => decide (f ≤ 4), [], false⟩, bootTables, fun _ => 0⟩
  cr3 := fun _ => 0
  tabs := fun _ => []

theorem next_boot {d t i c : Nat} :
    next d (bootTables t i) = some c ↔ i = 0 ∧ (t = 1 ∧ c = 2 ∨ t = 2 ∧ c = 3) := by
  have h1 : next d 0x2003#64 = some 2 := next_eq_some.mpr ⟨by decide, by decide, fun _ => by decide, by decide⟩
  have h2 : next d 0x3003#64 = some 3 := next_eq_some.mpr ⟨by decide, by decide, fun _ => by decide, by decide⟩
  have h3 : next d 0x83#64 = none := next_large (by decide)
  have h0 : next d 0#64 = none := next_absent (by decide)
  rcases eq_or_ne i 0 with rfl | hi
  · rcases eq_or_ne t 1 with rfl | h1'
    · rw [show bootTables 1 0 = 0x2003#64 from rfl, h1]
      simp [eq_comm]
    rcases eq_or_ne t 2 with rfl | h2'
    · rw [show bootTables 2 0 = 0x3003#64 from rfl, h2]
      simp [eq_comm]
    rcases eq_or_ne t 3 with rfl | h3'
    · simp [bootTables, h3]
    · simp [bootTables, h0, h1', h2', h3']
  · simp [bootTables, h0, hi]

theorem boot_seat {q : List Nat} {f : Nat} :
    Radix.seat next boot.roots boot.vm.tables none q = some f ↔
      q = [] ∧ f = 1 ∨ q = [0] ∧ f = 2 ∨ q = [0, 0] ∧ f = 3 := by
  induction q using List.reverseRecOn generalizing f with
  | nil =>
    change some 1 = some f ↔ _
    simp [@eq_comm Nat 1 f]
  | append_singleton q i ih =>
    rw [Radix.seat_snoc, Option.bind_eq_some_iff]
    change (∃ t, _ ∧ next q.length (bootTables t i) = some f) ↔ _
    have h1 : q ++ [i] = [0] ↔ q = [] ∧ i = 0 :=
      show q ++ [i] = [] ++ [0] ↔ _ from List.append_singleton_inj
    have h2 : q ++ [i] = [0, 0] ↔ q = [0] ∧ i = 0 :=
      show q ++ [i] = [0] ++ [0] ↔ _ from List.append_singleton_inj
    simp only [ih, next_boot, List.append_ne_nil_of_right_ne_nil q (List.cons_ne_nil i []), h1, h2, false_and, false_or]
    constructor
    · rintro ⟨t, ⟨rfl, rfl⟩ | ⟨rfl, rfl⟩ | ⟨rfl, rfl⟩, rfl, ht⟩
      · simpa using ht
      · simpa using ht
      · omega
    · rintro (⟨⟨rfl, rfl⟩, rfl⟩ | ⟨⟨rfl, rfl⟩, rfl⟩)
      · exact ⟨1, by simp, rfl, by simp⟩
      · exact ⟨2, by simp, rfl, by simp⟩

theorem booted_boot : Booted (fun f => f = 4) boot := by
  refine ⟨by decide, by decide, fun _ => rfl, fun f hf => ?_, fun q q' f _ _ hs hs' => ?_, fun q i t _ hlen hs hp => ?_,
    fun f hf _ => ?_⟩
  · obtain ⟨q, -, hs⟩ := hf
    have : f = 1 ∨ f = 2 ∨ f = 3 := by
      rcases boot_seat.mp hs with h | h | h <;> simp [h.2]
    refine ⟨by omega, fun _ => decide_eq_true (by omega)⟩
  · rcases boot_seat.mp hs with ⟨rfl, rfl⟩ | ⟨rfl, rfl⟩ | ⟨rfl, rfl⟩ <;>
      rcases boot_seat.mp hs' with ⟨rfl, h⟩ | ⟨rfl, h⟩ | ⟨rfl, h⟩ <;> first | rfl | omega
  · have hi : i = 0 := by
      by_contra hi
      rw [show boot.vm.tables t i = 0 from if_pos hi] at hp
      exact absurd hp (by decide)
    subst hi
    rcases boot_seat.mp hs with ⟨rfl, rfl⟩ | ⟨rfl, rfl⟩ | ⟨rfl, rfl⟩
    · decide
    · decide
    · simp at hlen
  · subst hf
    decide

/-- A process is made, and the processor walks its tables but not the kernel's. -/
def markedOnce : Os := (boot.step (.create 0)).step (.touch 5 0 false)

theorem markedOnce_run :
    Run (Guarded (Os.Clean fun f => f = 4) Step) boot [.create 0, .touch 5 0 false] markedOnce :=
  .cons ⟨trivial, ⟨by decide, rfl⟩, rfl⟩
    (.cons ⟨trivial, ⟨.inr ⟨0, by decide, by decide⟩, by decide, by decide⟩, rfl⟩ (.nil _))

/-- The kernel's table, page 2, is given back with the process. -/
theorem kernel_table_given_back :
    Booted (fun f => f = 4) boot ∧
    Run (Guarded (Os.Clean fun f => f = 4) Step) boot [.create 0, .touch 5 0 false] markedOnce ∧
    markedOnce.cr3 0 = 5 ∧ ¬ Exact (fun f => f = 4) markedOnce 0 := by
  refine ⟨booted_boot, markedOnce_run, by decide, fun hexact => ?_⟩
  obtain ⟨f, hf, hker⟩ := Os.freed_shared (s := markedOnce) (k := 0) (i := 0) (by decide) (by decide) (by decide)
    (by decide) (by decide)
  exact (hexact.spares f hf).1 hker

/-- The process gets a page, and the processor walks the kernel's tables as well. -/
def mappedOnce : Os :=
  ((markedOnce.step (.take .userStack 1)).step (.mapUser 0 0x200000000000 0x6000 0x7)).step (.touch 1 0 false)

theorem mappedOnce_run :
    Run (Guarded (Os.Clean fun f => f = 4) Step) boot ([.create 0, .touch 5 0 false] ++
      [.take .userStack 1, .mapUser 0 0x200000000000 0x6000 0x7, .touch 1 0 false]) mappedOnce := by
  have hsound : Sound (fun f => f = 4) markedOnce := sound_run markedOnce_run ⟨_, _, booted_boot.holds⟩
  have hlent : (markedOnce.step (.take .userStack 1)).Lent (fun f => f = 4) 0 0x200000000000 6 :=
    hsound.lent (by decide) (by decide) (by decide) _
  refine markedOnce_run.append (.cons ⟨trivial, trivial, rfl⟩ (.cons ⟨fun _ _ => ⟨by decide, hlent⟩, ?_, rfl⟩
    (.single ⟨trivial, ?_, rfl⟩)))
  · exact ⟨by decide, by decide⟩
  · exact ⟨.inl (by decide), by decide, by decide⟩

/-- Marked in both, the entries agree. The page of the process is given back with its tables. -/
theorem teardown_right_marked : Exact (fun f => f = 4) mappedOnce 0 :=
  (teardown_right_iff _ boot _ _ 0 booted_boot mappedOnce_run (by decide)).mpr (by unfold Os.Agrees; decide +kernel)

end Siathos.Paging.Identity
