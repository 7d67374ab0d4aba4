import Siathos.Paging.Supply
import Siathos.Proc.Isolation

/-!
# The pages of `SYS_DEV_MAP`

A call that runs out of pages for tables leaves behind what it has mapped, and nothing keeps the cursor in its region.
-/

open Lib Siathos.Paging

namespace Siathos.Proc.Memory

section

variable {slots : Nat → Bool} {kernel : Nat} {roots : Nat → Option Nat} {base : Nat → Prop} {m : Vm} {k r : Nat}

/-! ## The loop -/

def devFlags : BitVec 64 := 0x7 ||| nx ||| pteAvailMmio

/-- The first `d` of the pages are mapped to those of the device: as many as there are free pages for the tables. -/
structure DevMapped (slots : Nat → Bool) (kernel : Nat) (roots : Nat → Option Nat) (k : Nat) (v phys : BitVec 64)
    (n d : Nat) (m m' : Vm) : Prop where
  space : ∃ base', Space slots kernel roots base' m'
  le : d ≤ n
  enough : Enough roots m k 0 v n d
  entries : ∀ i < d, pte roots m' k (page v i) = entry (page phys i) devFlags
  rest : ∀ u, slots (idxL4 u) = false → (∀ i < d, vpn u ≠ vpn (page v i)) → pte roots m' k u = pte roots m k u

theorem DevMapped.none {v phys : BitVec 64} {n : Nat} {m' : Vm} (hspace : Space slots kernel roots base m')
    (hext : Extends slots roots k m m') (hfew : freeFrames m.pmm < (missing roots m k (wayTo v)).card) :
    DevMapped slots kernel roots k v phys n 0 m m' :=
  ⟨⟨base, hspace⟩, Nat.zero_le n, Enough.none (by omega), fun _ hi => absurd hi (Nat.not_lt_zero _),
  fun _ hu _ => hext.pte k hu⟩

theorem DevMapped.cons {v phys : BitVec 64} {n d : Nat} {m' m'' : Vm} (hv : v &&& 0xFFF = 0) (hn : n < 2 ^ 36)
    (hslot : ∀ i < n + 1, slots (idxL4 (page v i)) = false) (hmakes : Makes slots roots k (wayTo v) m m')
    (hmaps : Maps slots roots k (tablePath v) (idxL1 v) (entry phys devFlags) m m')
    (h : DevMapped slots kernel roots k (v + 0x1000) (phys + 0x1000) n d m' m'') :
    DevMapped slots kernel roots k v phys (n + 1) (d + 1) m m'' := by
  have hfirst := hslot 0 (by omega)
  rw [page_zero] at hfirst
  have henough : Enough roots m k 0 v (n + 1) (d + 1) :=
    Enough.cons (fun i hi => hslot (i + 1) (by omega)) rfl rfl hmakes h.enough
  refine ⟨h.space, Nat.succ_le_succ h.le, henough, fun i hi => ?_, fun u hu hno => ?_⟩
  · rcases Nat.eq_zero_or_pos i with rfl | hpos
    · rw [page_zero, page_zero, h.rest v hfirst fun i hi heq => ?_, hmaps.pte k hfirst, if_pos ⟨rfl, rfl⟩]
      have hle := h.le
      have hzero : vpn (page v 0) = vpn (page v (i + 1)) := by rwa [page_zero, ← page_succ]
      have := vpn_page_inj hv (by omega) (by omega) hzero
      omega
    · obtain ⟨i, rfl⟩ := Nat.exists_eq_add_of_le' hpos
      have hmapped := h.entries i (by omega)
      rwa [page_succ, page_succ] at hmapped
  · rw [h.rest u hu fun i hi => ?_, hmaps.pte k hu, if_neg]
    · rintro ⟨-, heq⟩
      refine hno 0 (by omega) ?_
      rwa [page_zero]
    · rw [page_succ]
      exact hno (i + 1) (by omega)

theorem devPages_maps {v phys : BitVec 64} (hv : v &&& 0xFFF = 0) (hph : phys &&& 0xFFF = 0)
    (h : Space slots kernel roots base m) (hr : roots k = some r) {n : Nat} (hn : n ≤ 2 ^ 36)
    (hslot : ∀ i < n, slots (idxL4 (page v i)) = false) :
    ∃ m' d, devPages r v phys n m = (m', decide (d = n)) ∧ DevMapped slots kernel roots k v phys n d m m' := by
  induction n generalizing v phys m base with
  | zero =>
    exact ⟨m, 0, rfl, ⟨base, h⟩, Nat.le_refl 0, Enough.zero 0 v, fun i hi => absurd hi (Nat.not_lt_zero i),
      fun _ _ _ => rfl⟩
  | succ n ih =>
    have hfirst := hslot 0 (by omega)
    have hentry : DeviceEntry (entry phys devFlags) := ⟨phys, rfl⟩
    have hmap := mapUser_mmio h hr hfirst (page_aligned hv 0) hph hentry.next
    have hmakes := mapUser_makes h devFlags hr hfirst (page_aligned hv 0) hph
    have hstep : (0x1000 : BitVec 64) &&& 0xFFF = 0 := by decide
    have hloop : ∀ m' ok, mapUser r v phys devFlags m = (m', ok) → devPages r v phys (n + 1) m =
        if ok then devPages r (v + 0x1000) (phys + 0x1000) n m' else (m', false) := by
      intro m' ok heq
      unfold devFlags at heq
      rw [devPages, heq]
      cases ok <;> rfl
    rw [page_zero] at hmap hmakes
    rcases hmap with ⟨m', heq, hspace, hext, -⟩ | ⟨m', heq, hspace, hmaps, -⟩
    · rcases hmakes with ⟨m'', heq', -⟩ | ⟨-, hfew⟩
      · rw [heq] at heq'
        cases heq'
      · exact ⟨m', 0, hloop m' false heq, DevMapped.none hspace hext hfew⟩
    · rcases hmakes with ⟨m'', heq', hmakes⟩ | ⟨⟨m'', heq'⟩, -⟩
      · rw [heq] at heq'
        cases heq'
        obtain ⟨m'', d, heq', hd⟩ := ih (aligned_add hv hstep) (aligned_add hph hstep) hspace (by omega) fun i hi => by
          rw [page_succ]
          exact hslot (i + 1) (by omega)
        refine ⟨m'', d + 1, ?_, hd.cons hv (by omega) hslot hmakes hmaps⟩
        rw [hloop m' true heq, if_pos rfl, heq']
        simp
      · rw [heq] at heq'
        cases heq'

/-! ## The call -/

theorem lookup_congr {u v : BitVec 64} (h : vpn u = vpn v) (r : Nat) : lookup m r u = lookup m r v := by
  obtain ⟨hpath, hlast⟩ := page_inj.mpr h
  simp only [tablePath, List.cons.injEq, and_true] at hpath
  unfold lookup
  rw [hpath.1, hpath.2.1, hpath.2.2, hlast]

end

theorem sysDevMap_eq {s : Sys} {a1 a2 : BitVec 64} {vm : Vm} {ok : Bool} (h : DevMaps s a1 a2)
    (heq : devPages (s.procs s.current).cr3 (devMapAt s) a1 (devMapCount a2) s.vm = (vm, ok)) :
    (sysDevMap a1 a2 s).1.vm = vm ∧ (sysDevMap a1 a2 s).2 = (if ok then devMapAt s else err) ∧
      (ok = false → ((sysDevMap a1 a2 s).1.procs s.current).devioUsed = (s.procs s.current).devioUsed) := by
  unfold devMapAt devMapCount at heq
  unfold sysDevMap
  dsimp only
  rw [if_neg (by simp [h.1]), if_neg h.2, heq]
  cases ok
  · exact ⟨rfl, rfl, fun _ => by simp [Sys.set]⟩
  · exact ⟨rfl, rfl, fun hok => by cases hok⟩

/-- What a call must do. A call that fails maps no page of the process, and keeps the cursor. One that returns
an address has mapped the pages from there on, which were not mapped, to those of the device. -/
structure DevMapRight (slots : Nat → Bool) (s : Sys) (a1 a2 : BitVec 64) : Prop where
  failed : (sysDevMap a1 a2 s).2 = err →
    ((sysDevMap a1 a2 s).1.procs s.current).devioUsed = (s.procs s.current).devioUsed ∧
    ∀ u, slots (idxL4 u) = false → lookup s.vm (s.procs s.current).cr3 u = none →
      lookup (sysDevMap a1 a2 s).1.vm (s.procs s.current).cr3 u = none
  done : (sysDevMap a1 a2 s).2 ≠ err →
    userDevioBase.toNat ≤ (sysDevMap a1 a2 s).2.toNat ∧
    (sysDevMap a1 a2 s).2.toNat + devMapCount a2 * 4096 ≤ 0x0000800000000000 ∧
    ∀ i < devMapCount a2, lookup s.vm (s.procs s.current).cr3 (page (sysDevMap a1 a2 s).2 i) = none ∧
      ∃ w, lookup (sysDevMap a1 a2 s).1.vm (s.procs s.current).cr3 (page (sysDevMap a1 a2 s).2 i) = some w ∧
        mmio w = true ∧ pfn w * 4096 = a1.toNat + i * 4096

/-- Where it does so. With enough free pages for the tables, the pages are in the region and not mapped, and
those of the device have page numbers that fit an entry. With fewer, the pages that still get mapped were so
before. -/
def DevMapFits (s : Sys) (a1 a2 : BitVec 64) : Prop :=
  DevMaps s a1 a2 → devMapAt s &&& 0xFFF = 0 →
    if needs (roots s) s.vm s.current (devMapAt s) (devMapCount a2) ≤ freeFrames s.vm.pmm then
      userDevioBase.toNat ≤ (devMapAt s).toNat ∧ (devMapAt s).toNat + devMapCount a2 * 4096 ≤ 0x0000800000000000 ∧
        a1.toNat + devMapCount a2 * 4096 ≤ 2 ^ 52 ∧
        ∀ i < devMapCount a2, lookup s.vm (s.procs s.current).cr3 (page (devMapAt s) i) = none
    else
      ∀ i < devMapCount a2, needs (roots s) s.vm s.current (devMapAt s) (i + 1) ≤ freeFrames s.vm.pmm →
        lookup s.vm (s.procs s.current).cr3 (page (devMapAt s) i) ≠ none

section

variable {slots : Nat → Bool} {kernel : Nat} {base : Nat → Prop} {s : Sys} {a1 a2 : BitVec 64}

theorem devMapCount_bounds (h : DevMaps s a1 a2) : 0 < devMapCount a2 ∧ devMapCount a2 ≤ 256 := by
  have hargs := h.2
  rw [not_or, not_or] at hargs
  obtain ⟨-, hpos, hmax⟩ := hargs
  have hbound : ¬ a2.toNat > 0x100000 := hmax
  have hne : a2.toNat ≠ 0 := fun hzero => hpos (BitVec.eq_of_toNat_eq hzero)
  have hsum : (a2 + 0xFFF).toNat = a2.toNat + 0xFFF := by
    rw [BitVec.toNat_add, show (0xFFF : BitVec 64).toNat = 0xFFF from rfl]
    omega
  rw [devMapCount, toNat_pageFloor, hsum]
  omega

theorem pfn_device (phys : BitVec 64) : pfn (entry phys devFlags) = phys.toNat / 4096 % 2 ^ 40 := by
  have hflags : devFlags &&& pteAddr = 0#64 := by decide
  have hmask : pteAddr.toNat = (2 ^ 40 - 1) <<< 12 := by decide
  have hand : phys.toNat &&& (2 ^ 40 - 1) <<< 12 = phys.toNat / 4096 % 2 ^ 40 * 4096 := by
    have hshift : phys.toNat / 4096 % 2 ^ 40 * 4096 = (phys.toNat >>> 12 % 2 ^ 40) <<< 12 := by
      rw [Nat.shiftLeft_eq, Nat.shiftRight_eq_div_pow]
    rw [hshift]
    refine Nat.eq_of_testBit_eq fun i => ?_
    rw [Nat.testBit_and, Nat.testBit_shiftLeft, Nat.testBit_shiftLeft, Nat.testBit_mod_two_pow, Nat.testBit_shiftRight,
      Nat.testBit_two_pow_sub_one]
    by_cases hi : 12 ≤ i
    · rw [Nat.add_sub_cancel' hi]
      simp [hi, Bool.and_comm]
    · simp [hi]
  rw [pfn, entry, BitVec.and_or_distrib_right, hflags, BitVec.or_zero, BitVec.and_assoc, BitVec.and_self,
    BitVec.toNat_and, hmask, hand]
  omega

theorem pfn_page_iff (h : a1 &&& 0xFFF = 0) {n : Nat} (hpos : 0 < n) :
    (∀ i < n, pfn (entry (page a1 i) devFlags) * 4096 = a1.toNat + i * 4096) ↔ a1.toNat + n * 4096 ≤ 2 ^ 52 := by
  rw [aligned_iff] at h
  have hlt := a1.isLt
  simp only [pfn_device, page, BitVec.toNat_add, BitVec.toNat_ofNat]
  constructor
  · intro hall
    have hlast := hall (n - 1) (by omega)
    omega
  · intro hfits i hi
    omega

section

variable {v phys : BitVec 64} {m m' : Vm} {roots : Nat → Option Nat} {k r n d : Nat}

theorem DevMapped.lookup_page (h : DevMapped slots kernel roots k v phys n d m m') (hr : roots k = some r)
    (hslot : ∀ i < n, slots (idxL4 (page v i)) = false) {i : Nat} (hi : i < d) :
    lookup m' r (page v i) = some (entry (page phys i) devFlags) := by
  obtain ⟨base', hspace⟩ := h.space
  have hpresent : present devFlags = true := by decide
  have hle := h.le
  rw [lookup_eq hspace hr (hslot i (by omega)), h.entries i hi, present_entry, hpresent, if_pos rfl]

theorem DevMapped.lookup_other (h : DevMapped slots kernel roots k v phys n d m m')
    (hs : Space slots kernel roots base m)
    (hr : roots k = some r) {u : BitVec 64} (hu : slots (idxL4 u) = false) (hno : ∀ i < d, vpn u ≠ vpn (page v i)) :
    lookup m' r u = lookup m r u := by
  obtain ⟨base', hspace⟩ := h.space
  rw [lookup_eq hspace hr hu, lookup_eq hs hr hu, h.rest u hu hno]

end

theorem devMap_right_iff (h : Rooted slots kernel base s) (hrun : s.running = true)
    (hapart : DevMaps s a1 a2 → Apart slots (devMapAt s) (devMapCount a2)) :
    DevMapRight slots s a1 a2 ↔ DevMapFits s a1 a2 := by
  by_cases hmaps : DevMaps s a1 a2
  swap
  · have hcall := sysDevMap_refuses hmaps
    refine iff_of_true ⟨fun _ => ?_, fun hne => absurd (by rw [hcall]) hne⟩ fun hmaps' => absurd hmaps' hmaps
    rw [hcall]
    exact ⟨rfl, fun _ _ hu => hu⟩
  have hr := h.root hrun
  obtain ⟨hpos, hcount⟩ := devMapCount_bounds hmaps
  obtain ⟨ha1, -⟩ := not_or.mp hmaps.2
  rw [not_not] at ha1
  by_cases hv : devMapAt s &&& 0xFFF = 0
  swap
  · have heq : devPages (s.procs s.current).cr3 (devMapAt s) a1 (devMapCount a2) s.vm = (s.vm, false) := by
      obtain ⟨n, hn⟩ := Nat.exists_eq_add_of_lt hpos
      rw [hn, Nat.zero_add, devPages, mapUser, if_pos (.inr (.inl hv))]
    obtain ⟨hvm, hres, hused⟩ := sysDevMap_eq hmaps heq
    refine iff_of_true ⟨fun _ => ?_, fun hne => absurd hres hne⟩ fun _ hv' => absurd hv' hv
    rw [hvm]
    exact ⟨hused rfl, fun _ _ hu => hu⟩
  obtain ⟨vm, d, heq, hd⟩ := devPages_maps hv ha1 h.space hr (by omega) (hapart hmaps)
  obtain ⟨hvm, hres, hused⟩ := sysDevMap_eq hmaps heq
  have henough : ∀ j ≤ devMapCount a2, j ≤ d ↔ needs (roots s) s.vm s.current (devMapAt s) j ≤ freeFrames s.vm.pmm := by
    simpa [Enough] using hd.enough
  have hle := hd.le
  unfold DevMapFits
  by_cases hfull : d = devMapCount a2
  · -- all pages are mapped
    subst hfull
    have hne : devMapAt s ≠ err := by
      intro heq
      rw [heq] at hv
      revert hv
      decide
    simp only [decide_true, if_true] at hres
    rw [if_pos ((henough _ (Nat.le_refl _)).mp (Nat.le_refl _)), ← pfn_page_iff ha1 hpos]
    have hpages := fun i (hi : i < devMapCount a2) => hd.lookup_page hr (hapart hmaps) hi
    constructor
    · intro hright _ _
      obtain ⟨hlow, hhigh, hall⟩ := hright.done (by rwa [hres])
      rw [hres] at hlow hhigh hall
      refine ⟨hlow, hhigh, fun i hi => ?_, fun i hi => (hall i hi).1⟩
      obtain ⟨-, w, hw, -, hpfn⟩ := hall i hi
      rw [hvm, hpages i hi] at hw
      rwa [← Option.some.inj hw] at hpfn
    · intro hfits
      obtain ⟨hlow, hhigh, hpfn, hvacant⟩ := hfits hmaps hv
      refine ⟨fun hfailed => absurd (hres.symm.trans hfailed) hne, fun _ => ?_⟩
      rw [hres, hvm]
      have hmmio : mmio devFlags = true := by decide
      exact ⟨hlow, hhigh, fun i hi => ⟨hvacant i hi, _, hpages i hi, by rw [mmio_entry, hmmio], hpfn i hi⟩⟩
  · -- the pages before `d` are mapped, and the call fails
    simp only [hfull, decide_false, Bool.false_eq_true, if_false] at hres
    have hfew : ¬ needs (roots s) s.vm s.current (devMapAt s) (devMapCount a2) ≤ freeFrames s.vm.pmm :=
      fun hfree => hfull (Nat.le_antisymm hle ((henough _ (Nat.le_refl _)).mpr hfree))
    rw [if_neg hfew]
    constructor
    · intro hright _ _ i hi hneeds hnone
      have hid : i < d := (henough (i + 1) hi).mpr hneeds
      have hkept := (hright.failed hres).2 (page (devMapAt s) i) (hapart hmaps i hi) hnone
      rw [hvm, hd.lookup_page hr (hapart hmaps) hid] at hkept
      cases hkept
    · intro hfits
      refine ⟨fun _ => ⟨hused (by simp [hfull]), fun u hu hnone => ?_⟩, fun hne => absurd hres hne⟩
      rw [hvm, hd.lookup_other h.space hr hu, hnone]
      intro i hi hpage
      refine hfits hmaps hv i (by omega) ((henough (i + 1) (by omega)).mp hi) ?_
      rw [← lookup_congr hpage, hnone]

end

/-! ## Runs -/

theorem devMap_right {kernel : Nat} {boot : Nat → Prop} {others : List Nat} {s₀ s t : Sys} {ops : List Op}
    {a1 a2 : BitVec 64} (hboot : Booted kernel boot others s₀) (hreserved : Reserved kernel s₀.vm)
    (hrun : Run (Guarded (Contained (kernelSlots kernel s₀.vm) kernel) (Step kernel)) s₀ ops s)
    (hstep : Guarded (Contained (kernelSlots kernel s₀.vm) kernel) (Step kernel) s (.devMap a1 a2) t) :
    DevMapRight (kernelSlots kernel s₀.vm) s a1 a2 ↔ DevMapFits s a1 a2 := by
  obtain ⟨base, hrooted, -⟩ := (spaces_run hboot hreserved hrun).rooted
  exact devMap_right_iff hrooted hstep.2.1 hstep.1

theorem devMap_right_spaced : DevMapRight (kernelSlots 1 (identitySys 32).vm) (spaced.foldl (apply 1) (identitySys 32))
      0xE0000000 0x1000 ↔ DevMapFits (spaced.foldl (apply 1) (identitySys 32)) 0xE0000000 0x1000 := by
  refine devMap_right (identitySys_booted (by decide)) (identitySys_reserved 32) (Run.of_admits_guarded spaced_admitted)
    ⟨fun _ => ?_, ?_, rfl⟩
  · unfold Apart
    decide +kernel
  · decide +kernel

theorem sysDevMap_running (a1 a2 : BitVec 64) (s : Sys) : (sysDevMap a1 a2 s).1.running = s.running := by
  unfold sysDevMap
  dsimp only
  split
  · rfl
  · split
    · rfl
    · split <;> rfl

theorem devMaps_run {s₀ s : Sys} {ops : List Op} (h : Run (Step 1) s₀ ops s) (hrunning : s.running = true)
    (a1 a2 b1 b2 : BitVec 64) :
    Run (Step 1) s₀ (ops ++ [.devMap a1 a2, .devMap b1 b2]) ([Op.devMap a1 a2, .devMap b1 b2].foldl (apply 1) s) := by
  have hrunning' : (sysDevMap a1 a2 s).1.running = true := (sysDevMap_running a1 a2 s).trans hrunning
  exact h.append (.cons ⟨hrunning, rfl⟩ (.single ⟨hrunning', rfl⟩))

/-- The walk comes to the table `l` by tables that are there and are not `l`. -/
def leads (m : Vm) (l : Nat) : Nat → List Nat → Bool
  | t, [] => decide (t = l)
  | t, i :: path => decide (t ≠ l) && present (m.tables t i) && !large (m.tables t i) && decide
    (pfn (m.tables t i) ≠ 0) &&
      leads m l (pfn (m.tables t i)) path

theorem ensureTables_there {m : Vm} {l t : Nat} {path : List Nat} (h : leads m l t path = true) :
    ensureTables t path m = (m, l) := by
  induction path generalizing t with
  | nil => exact congrArg (m, ·) (of_decide_eq_true h)
  | cons i path ih =>
    simp only [leads, Bool.and_eq_true, decide_eq_true_eq, Bool.not_eq_true'] at h
    obtain ⟨⟨⟨⟨-, hpresent⟩, hlarge⟩, hchild⟩, hrest⟩ := h
    have hfound : ensureTable true t i m = (m, pfn (m.tables t i)) := by simp [ensureTable, hpresent, hlarge]
    rw [ensureTables, hfound]
    split
    · rename_i hzero
      exact absurd (congrArg Prod.snd hzero) hchild
    · rename_i heq
      obtain ⟨rfl, rfl⟩ := Prod.mk.inj heq
      exact ih hrest

theorem leads_congr {m m' : Vm} {l t : Nat} {path : List Nat} (h : leads m l t path = true)
    (htables : ∀ f, f ≠ l → ∀ i, m'.tables f i = m.tables f i) : leads m' l t path = true := by
  induction path generalizing t with
  | nil => exact h
  | cons i path ih =>
    simp only [leads, Bool.and_eq_true, decide_eq_true_eq] at h ⊢
    rw [htables t h.1.1.1.1 i]
    exact ⟨h.1, ih h.2⟩

/-- The entries of `n` pages of the device, in the table `l`. -/
def filled (m : Vm) (l : Nat) (v phys : BitVec 64) (n : Nat) : Vm :=
  { m with tables := fun t i =>
      if t = l ∧ idxL1 v ≤ i ∧ i < idxL1 v + n then entry (page phys (i - idxL1 v)) devFlags else m.tables t i }

theorem next_inside {v : BitVec 64} (h : idxL1 v + 1 < 512) :
    tablePath (v + 0x1000) = tablePath v ∧ idxL1 (v + 0x1000) = idxL1 v + 1 := by
  simp only [tablePath, idxL4, idxL3, idxL2, idxL1, idx_eq, BitVec.toNat_add] at h ⊢
  rw [show (0x1000 : BitVec 64).toNat = 4096 from rfl]
  have hlt := v.isLt
  have h4 : (v.toNat + 4096) % 2 ^ 64 / 2 ^ 39 % 512 = v.toNat / 2 ^ 39 % 512 := by omega
  have h3 : (v.toNat + 4096) % 2 ^ 64 / 2 ^ 30 % 512 = v.toNat / 2 ^ 30 % 512 := by omega
  have h2 : (v.toNat + 4096) % 2 ^ 64 / 2 ^ 21 % 512 = v.toNat / 2 ^ 21 % 512 := by omega
  have h1 : (v.toNat + 4096) % 2 ^ 64 / 2 ^ 12 % 512 = v.toNat / 2 ^ 12 % 512 + 1 := by omega
  exact ⟨by rw [h4, h3, h2], h1⟩

theorem devPages_inside {pml4 l : Nat} (hpml4 : pml4 ≠ 0) (hl : l ≠ 0) {v phys : BitVec 64} (hv : v &&& 0xFFF = 0)
    (hph : phys &&& 0xFFF = 0) {n : Nat} (hn : idxL1 v + n ≤ 512) {m : Vm} (h : leads m l pml4 (tablePath v) = true) :
    devPages pml4 v phys n m = (filled m l v phys n, true) := by
  induction n generalizing v phys m with
  | zero =>
    have hsame : filled m l v phys 0 = m := by
      rw [filled]
      congr 1
      funext t i
      exact if_neg (by omega)
    rw [hsame, devPages]
  | succ n ih =>
    have hmap : mapUser pml4 v phys devFlags m =
        ({ m with tables := Radix.write m.tables l (idxL1 v) (entry phys devFlags) }, true) := by
      rw [mapUser, if_neg (by rw [not_or, not_or, not_not, not_not]; exact ⟨hpml4, hv, hph⟩),
        show [idxL4 v, idxL3 v, idxL2 v] = tablePath v from rfl, ensureTables_there h]
      split
      · rename_i hzero
        exact absurd (congrArg Prod.snd hzero) hl
      · rename_i heq
        obtain ⟨rfl, rfl⟩ := Prod.mk.inj heq
        rfl
    rw [devPages, show (0x7 ||| nx ||| pteAvailMmio) = devFlags from rfl, hmap]
    rcases Nat.eq_zero_or_pos n with rfl | hpos
    · refine congrArg (·, true) ?_
      rw [filled]
      congr 1
      funext t i
      by_cases hat : t = l ∧ i = idxL1 v
      · obtain ⟨rfl, rfl⟩ := hat
        rw [Radix.write_same, if_pos ⟨rfl, by omega, by omega⟩, Nat.sub_self, page_zero]
      · rw [Radix.write_other (by omega), if_neg (by omega)]
    · obtain ⟨hpath, hnext⟩ := next_inside (v := v) (by omega)
      have hleads : leads { m with tables := Radix.write m.tables l (idxL1 v) (entry phys devFlags) } l pml4
          (tablePath (v + 0x1000)) = true := by
        rw [hpath]
        exact leads_congr h fun f hf i => Radix.write_other (.inl hf)
      have hstep : (0x1000 : BitVec 64) &&& 0xFFF = 0 := by decide
      dsimp only
      rw [ih (aligned_add hv hstep) (aligned_add hph hstep) (by omega) hleads]
      refine congrArg (fun tables => (({ m with tables } : Vm), true)) (funext fun t => funext fun i => ?_)
      rw [hnext]
      dsimp only
      by_cases hat : t = l ∧ idxL1 v ≤ i ∧ i < idxL1 v + (n + 1)
      · obtain ⟨rfl, hlo, hhi⟩ := hat
        rcases Nat.eq_or_lt_of_le hlo with rfl | hlo
        · rw [if_neg (by omega), Radix.write_same, if_pos ⟨rfl, hlo, hhi⟩, Nat.sub_self, page_zero]
        · rw [if_pos ⟨rfl, by omega, by omega⟩, if_pos ⟨rfl, by omega, hhi⟩, page_succ,
            show i - (idxL1 v + 1) + 1 = i - idxL1 v by omega]
      · rw [if_neg (by omega), if_neg hat, Radix.write_other (by omega)]

/-- What `SYS_DEV_MAP` makes of the state where its first page is mapped, and the others are in the same table. -/
def devMapped (s : Sys) (m : Vm) (l : Nat) (a1 a2 : BitVec 64) : Sys :=
  { s with vm := filled m l (devMapAt s + 0x1000) (a1 + 0x1000) (devMapCount a2 - 1) }.set s.current
    { s.procs s.current with
      devioBase := if (s.procs s.current).devioBase = 0 then userDevioBase else (s.procs s.current).devioBase
      devioUsed := (s.procs s.current).devioUsed + ((a2 + 0xFFF) &&& ~~~0xFFF) }

theorem sysDevMap_inside {s : Sys} {a1 a2 : BitVec 64} (hmaps : DevMaps s a1 a2) {m : Vm} {l : Nat}
    (hcr3 : (s.procs s.current).cr3 ≠ 0) (hl : l ≠ 0) (hat : devMapAt s &&& 0xFFF = 0) (hcount : 0 < devMapCount a2)
    (hfew : idxL1 (devMapAt s + 0x1000) + (devMapCount a2 - 1) ≤ 512)
    (hfirst : mapUser (s.procs s.current).cr3 (devMapAt s) a1 devFlags s.vm = (m, true))
    (hleads : leads m l (s.procs s.current).cr3 (tablePath (devMapAt s + 0x1000)) = true) :
    (sysDevMap a1 a2 s).1 = devMapped s m l a1 a2 := by
  have hargs := hmaps.2
  rw [not_or, not_not] at hargs
  have hstep : (0x1000 : BitVec 64) &&& 0xFFF = 0 := by decide
  have hloop : devPages (s.procs s.current).cr3 (devMapAt s) a1 (devMapCount a2) s.vm =
      (filled m l (devMapAt s + 0x1000) (a1 + 0x1000) (devMapCount a2 - 1), true) := by
    rw [← devPages_inside hcr3 hl (aligned_add hat hstep) (aligned_add hargs.1 hstep) hfew hleads]
    obtain ⟨n, hn⟩ := Nat.exists_eq_add_of_le' hcount
    unfold devFlags at hfirst
    rw [hn, devPages, hfirst, Nat.add_sub_cancel]
  unfold devMapAt devMapCount at hloop
  unfold sysDevMap devMapped devMapAt devMapCount
  dsimp only
  rw [if_neg (by simp [hmaps.1]), if_neg hmaps.2, hloop]

/-- A process that has all but the last page of the first table of its region. -/
def spanning : List Op := spaced ++ [.devMap 0xE0000000 0x100000, .devMap 0xE0100000 0xFF000]

def spanned : Sys := spanning.foldl (apply 1) (identitySys 27)

theorem spanned_run : Run (Step 1) (identitySys 27) spanning spanned := by
  have hrunning : (spaced.foldl (apply 1) (identitySys 27)).running = true := by decide +kernel
  have hspaced : Run (Step 1) (identitySys 27) spaced (spaced.foldl (apply 1) (identitySys 27)) :=
    Run.of_admits (by decide +kernel)
  rw [spanned, spanning, List.foldl_append]
  exact devMaps_run hspaced hrunning _ _ _ _

/-- The process with its first 256 pages, and with 511. Their table is page 26. -/
def spanned₀ : Sys := spaced.foldl (apply 1) (identitySys 27)

def spanned₁ : Sys :=
  devMapped spanned₀ (mapUser (spanned₀.procs 0).cr3
    (devMapAt spanned₀) 0xE0000000 devFlags spanned₀.vm).1 26 0xE0000000 0x100000

def spanned₂ : Sys :=
  devMapped spanned₁ (mapUser (spanned₁.procs 0).cr3
    (devMapAt spanned₁) 0xE0100000 devFlags spanned₁.vm).1 26 0xE0100000 0xFF000

theorem mapped_of_snd {r : Vm × Bool} (h : r.2 = true) : r = (r.1, true) := Prod.ext rfl h

theorem devMaps_foldl (s : Sys) (a1 a2 b1 b2 : BitVec 64) :
    [Op.devMap a1 a2, .devMap b1 b2].foldl (apply 1) s = (sysDevMap b1 b2 (sysDevMap a1 a2 s).1).1 := rfl

theorem spanned_eq : spanned = spanned₂ := by
  have hfirst : (sysDevMap 0xE0000000 0x100000 spanned₀).1 = spanned₁ := by
    refine sysDevMap_inside (by unfold DevMaps; decide +kernel) (by decide +kernel) (by decide) (by decide +kernel)
      (by decide +kernel) (by decide +kernel) (mapped_of_snd (by decide +kernel))
      (by decide +kernel)
  have hsecond : (sysDevMap 0xE0100000 0xFF000 spanned₁).1 = spanned₂ := by
    refine sysDevMap_inside (by unfold DevMaps; decide +kernel) (by decide +kernel) (by decide) (by decide +kernel)
      (by decide +kernel) (by decide +kernel) (mapped_of_snd (by decide +kernel))
      (by decide +kernel)
  rw [spanned, spanning, List.foldl_append, devMaps_foldl, ← hsecond, ← hfirst, spanned₀]

theorem spanned_leaves : (sysDevMap 0xE01FF000 0x2000 spanned).2 = err ∧
    lookup spanned.vm (spanned.procs spanned.current).cr3 0x7ff0001ff000 = none ∧
    lookup (sysDevMap 0xE01FF000 0x2000 spanned).1.vm (spanned.procs spanned.current).cr3 0x7ff0001ff000 ≠ none := by
  rw [spanned_eq]
  decide +kernel

theorem devMap_leaves_page : Booted 1 (fun f => f < 3) [] (identitySys 27) ∧
    Run (Step 1) (identitySys 27) spanning spanned ∧
    ¬ DevMapRight (kernelSlots 1 (identitySys 27).vm) spanned 0xE01FF000 0x2000 := by
  have hslot : kernelSlots 1 (identitySys 27).vm (idxL4 0x7ff0001ff000) = false := by decide +kernel
  have hleaves := spanned_leaves
  have hrun := spanned_run
  generalize spanned = s at hleaves hrun ⊢
  refine ⟨identitySys_booted (by decide), hrun, fun h => hleaves.2.2 ?_⟩
  exact (h.failed hleaves.1).2 _ hslot hleaves.2.1

end Siathos.Proc.Memory
