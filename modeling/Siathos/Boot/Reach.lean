import Siathos.Boot.Handoff
import Siathos.Proc.Entries

/-!
# What ring 3 reaches (`paging.c`, `syscall.c`)

By its own tables a process comes to pages that were free at boot and that no one else has, or to those of a device. The
same holds of the physical addresses that `SYS_V2P` tells.
-/

open Lib Siathos.Paging Siathos.Frames Siathos.Proc.Memory

namespace Siathos.Boot

/-- Ring 3 reaches `x` at the address `v` of the process. -/
structure Reached (s : Sys) (i : Nat) (v : BitVec 64) (x : Reach) : Prop where
  present : (s.procs i).present = true
  walk : translate s.vm.tables (s.procs i).cr3 v = some x
  user : x.user = true

/-- The address is that of a page of a device, which `SYS_DEV_MAP` has mapped. -/
def OfDevice (s : Sys) (i : Nat) (v : BitVec 64) : Prop := ∃ w ∈ lookup s.vm (s.procs i).cr3 v, mmio w = true

/-- The page `f` is memory that was free at boot, that is in no table and not in the kernel's heap, and that nothing but
this page of the process is mapped to. -/
structure Alone (kernel : Nat) (start s : Sys) (i : Nat) (v : BitVec 64) (f : Nat) : Prop where
  used : s.vm.pmm.used f = true
  free : start.vm.pmm.used f = false
  heap : f ∉ s.chunks
  kernel : ¬ Reaches s.vm kernel f
  table : ∀ j, (s.procs j).present = true → ¬ Reaches s.vm (s.procs j).cr3 f
  shared : ∀ j u y, Reached s j u y → ¬ OfDevice s j u → y.phys / 4096 = f → j = i ∧ vpn u = vpn v

/-! ## The part of the kernel -/

theorem translate_kernel {tables : Nat → Nat → BitVec 64} {root : Nat} {v : BitVec 64} {x : Reach}
    (h : translate tables root v = some x) (huser : user (tables root (idxL4 v)) = false) : x.user = false := by
  unfold translate at h
  dsimp only at h
  rw [huser] at h
  simp only [Bool.false_and] at h
  split at h
  · cases h
  · split at h
    · cases h
    · split at h
      · exact Option.some.inj h ▸ rfl
      · split at h
        · cases h
        · split at h
          · exact Option.some.inj h ▸ rfl
          · split at h
            · cases h
            · exact Option.some.inj h ▸ rfl

theorem built_kernel {t : Pages} (ht : t.Placed) (kphys img2mb : BitVec 64) (m : Nat → Nat → BitVec 64) (i : Nat) :
    user (buildTables t kphys img2mb m t.pml4 i) = false := by
  have htable : ∀ c ∈ t.list, user (tableEntry c) = false := fun c hc => (tableEntry_bits (ht.bound c hc)).2.2.2
  rw [pml4_at ht.nodup]
  split_ifs
  · exact htable _ (by simp [Pages.list])
  · exact htable _ (by simp [Pages.list])
  · decide

/-! ## The part of the process -/

section

variable {slots : Nat → Bool} {kernel : Nat} {roots : Nat → Option Nat} {base : Nat → Prop} {m : Vm} {k r : Nat}

/-- The entry names a table, and forbids ring 3 nothing. -/
structure Inner (w : BitVec 64) : Prop where
  present : present w = true
  small : large w = false
  user : user w = true
  writable : writable w = true
  exec : noExec w = false

theorem inner_child (h : Space slots kernel roots base m) {p : List Nat} {t i : Nat}
    (hp : (own slots).Ok (p ++ [i])) (hlen : p.length < 3) (hs : seat roots m k p = some t) :
    present (m.tables t i) = false ∧ seat roots m k (p ++ [i]) = none ∨
      Inner (m.tables t i) ∧ seat roots m k (p ++ [i]) = some (pfn (m.tables t i)) := by
  rcases h.child hp hlen hs with hnone | ⟨hpresent, hsmall, huser, hseat⟩
  · exact .inl hnone
  · obtain ⟨c, -, heq⟩ := h.inner k p t i hp hlen hs hpresent
    refine .inr ⟨⟨hpresent, hsmall, huser, ?_, ?_⟩, hseat⟩
    · rw [heq, writable_entry]
      decide
    · rw [heq, noExec_entry]
      decide

theorem walk_own (h : Space slots kernel roots base m) (hr : roots k = some r) {v : BitVec 64}
    (hslot : slots (idxL4 v) = false) :
    let e4 := m.tables r (idxL4 v)
    let e3 := m.tables (pfn e4) (idxL3 v)
    let e2 := m.tables (pfn e3) (idxL2 v)
    present (pte roots m k v) = false ∧
        (present e4 = false ∨ Inner e4 ∧ (present e3 = false ∨ Inner e3 ∧ present e2 = false)) ∨
      pte roots m k v = m.tables (pfn e2) (idxL1 v) ∧ Inner e4 ∧ Inner e3 ∧ Inner e2 := by
  have hok3 := (own slots).init _ _ (own_tablePath hslot)
  have hok2 := (own slots).init [idxL4 v, idxL3 v] _ hok3
  have hok1 := (own slots).init [idxL4 v] _ hok2
  have hnone : seat roots m k (tablePath v) = none → present (pte roots m k v) = false := by
    intro hs
    rw [pte, leafAt, hs]
    exact present_zero
  dsimp only
  rcases inner_child h hok1 (by simp) ((seat_nil roots m k).trans hr) with ⟨h4, hs⟩ | ⟨h4, hs⟩
  · exact .inl ⟨hnone (seat_below (seat_below hs _) _), .inl h4⟩
  rcases inner_child h hok2 (by simp) hs with ⟨h3, hs⟩ | ⟨h3, hs⟩
  · exact .inl ⟨hnone (seat_below hs _), .inr ⟨h4, .inl h3⟩⟩
  rcases inner_child h hok3 (by simp) hs with ⟨h2, hs⟩ | ⟨h2, hs⟩
  · exact .inl ⟨hnone hs, .inr ⟨h4, .inr ⟨h3, h2⟩⟩⟩
  refine .inr ⟨?_, h4, h3, h2⟩
  rw [pte, leafAt, show seat roots m k (tablePath v) = _ from hs]
  rfl

/-- The processor executes code at the address: no entry on its walk has the NX bit. -/
def executes (tables : Nat → Nat → BitVec 64) (pml4 : Nat) (v : BitVec 64) : Bool :=
  let e4 := tables pml4 (idxL4 v)
  let e3 := tables (pfn e4) (idxL3 v)
  let e2 := tables (pfn e3) (idxL2 v)
  !noExec e4 && !noExec e3 && !noExec e2 && !noExec (tables (pfn e2) (idxL1 v))

theorem translate_own (h : Space slots kernel roots base m) (hr : roots k = some r) {v : BitVec 64}
    (hslot : slots (idxL4 v) = false) : translate m.tables r v =
      if canonical v && present (pte roots m k v) then
        some ⟨inPage 12 (pte roots m k v) v, writable (pte roots m k v), user (pte roots m k v)⟩
      else none := by
  unfold translate
  rcases walk_own h hr hslot with ⟨hpte, habs⟩ | ⟨hpte, h4, h3, h2⟩
  · rcases habs with h4 | ⟨h4, h3 | ⟨h3, h2⟩⟩
    · simp [hpte, h4]
    · simp [hpte, h3]
    · simp [hpte, h3.small, h2]
  · rw [hpte]
    cases canonical v with
    | false => simp
    | true =>
      simp only [h4.present, h4.small, h4.user, h4.writable, h3.present, h3.small, h3.user, h3.writable, h2.present,
        h2.small, h2.user, h2.writable, Bool.not_true, Bool.or_false, Bool.false_eq_true, if_false, Bool.true_and]
      split <;> simp_all

theorem executes_own (h : Space slots kernel roots base m) (hr : roots k = some r) {v : BitVec 64}
    (hslot : slots (idxL4 v) = false) (hpresent : present (pte roots m k v) = true) :
    executes m.tables r v = !noExec (pte roots m k v) := by
  unfold executes
  rcases walk_own h hr hslot with ⟨hpte, -⟩ | ⟨hpte, h4, h3, h2⟩
  · rw [hpresent] at hpte
    cases hpte
  · simp only [hpte, h4.exec, h3.exec, h2.exec, Bool.not_false, Bool.true_and]

theorem own_reach (h : Space slots kernel roots base m) (hr : roots k = some r) {v : BitVec 64}
    (hslot : slots (idxL4 v) = false) {x : Reach} (hx : translate m.tables r v = some x) :
    canonical v = true ∧ present (pte roots m k v) = true ∧ x.phys = inPage 12 (pte roots m k v) v ∧
      x.user = user (pte roots m k v) := by
  rw [translate_own h hr hslot] at hx
  split at hx
  · rename_i hpresent
    obtain rfl := Option.some.inj hx
    rw [Bool.and_eq_true] at hpresent
    exact ⟨hpresent.1, hpresent.2, rfl, rfl⟩
  · cases hx

theorem inPage_page (w v : BitVec 64) : inPage 12 w v / 4096 = pfn w := by
  unfold inPage pfn
  omega

end

section

variable {slots : Nat → Bool} {kernel : Nat} {base : Nat → Prop} {s₀ s : Sys} {i : Nat} {v : BitVec 64}

theorem owned_cases (h : Rooted slots kernel base s) (hentries : Entries slots s) (hi : (s.procs i).present = true)
    (hslot : slots (idxL4 v) = false) {x : Reach} (hx : translate s.vm.tables (s.procs i).cr3 v = some x) :
    OfDevice s i v ∨ seat (roots s) s.vm i (tablePath v ++ [idxL1 v]) = some (x.phys / 4096) := by
  have hr := roots_some hi
  obtain ⟨-, hpresent, hphys, -⟩ := own_reach h.space hr hslot hx
  cases hmmio : mmio (pte (roots s) s.vm i v) with
  | true =>
    refine .inl ⟨pte (roots s) s.vm i v, ?_, hmmio⟩
    rw [lookup_eq h.space hr hslot, if_pos hpresent]
    rfl
  | false =>
    have hsmall := (hentries i hi v hslot).not_large
    refine .inr ?_
    rw [seat_page, hphys, inPage_page, next]
    simp [hpresent, hmmio, hsmall]

theorem seat_alone (h : Spaces slots kernel s₀ s) (hentries : Entries slots s) (hreserved : Reserved kernel s₀.vm)
    (hkernel : ∀ j u y, Reached s j u y → slots (idxL4 u) = false) (hslot : slots (idxL4 v) = false) {f : Nat}
    (hseat : seat (roots s) s.vm i (tablePath v ++ [idxL1 v]) = some f) : Alone kernel s₀ s i v f := by
  obtain ⟨base, hs, hbase⟩ := h.rooted
  have hok := own_tablePath hslot
  have hout : ∀ g, s₀.vm.pmm.used g = true ∨ g ∈ s.chunks → g ≠ f := by
    rintro g hg rfl
    exact hs.space.apart g (hbase g hg) i _ hok hseat
  have hkept : ¬ Reaches s.vm kernel f := fun hf => hout f (.inl (h.kernel_reaches hreserved f hf)) rfl
  refine ⟨hs.space.seated_used hok hseat, ?_, fun hf => hout f (.inr hf) rfl, hkept, fun j hj hf => ?_,
    fun j u y hy hdevice heq => ?_⟩
  · by_contra hused
    exact hout f (.inl (by simpa using hused)) rfl
  · rcases reaches_cases hs.space (roots_some hj) hf with hf | ⟨q, hq, hlen, hseat'⟩
    · exact hkept hf
    · obtain ⟨-, rfl⟩ := hs.space.unshared i _ j q f hok hq hseat hseat'
      simp [tablePath] at hlen
  · have hu := hkernel j u y hy
    obtain hdev | hseat' := owned_cases hs hentries hy.present hu hy.walk
    · exact absurd hdev hdevice
    · rw [heq] at hseat'
      obtain ⟨rfl, hpath⟩ := hs.space.unshared i _ j _ f hok (own_tablePath hu) hseat hseat'
      obtain ⟨htable, hindex⟩ := List.append_inj' hpath rfl
      exact ⟨rfl, page_inj.mp ⟨htable.symm, (List.singleton_inj.mp hindex).symm⟩⟩

end

/-! ## `SYS_V2P` -/

/-- `paging_phys_of_user`. The call gives no `is_mmio`. -/
def physOfUser (m : Vm) (pml4 : Nat) (virt : BitVec 64) : BitVec 64 :=
  if pml4 = 0 ∨ virt > 0x00007fffffffffff then 0
  else
    let e4 := m.tables pml4 (idxL4 virt)
    if !present e4 then 0
    else
      let e3 := m.tables (pfn e4) (idxL3 virt)
      if !present e3 then 0
      else
        let e2 := m.tables (pfn e3) (idxL2 virt)
        if !present e2 then 0
        else if large e2 then 0
        else
          let e1 := m.tables (pfn e2) (idxL1 virt)
          if !present e1 then 0
          else (e1 &&& pteAddr) + (virt &&& 0xFFF)

/-- `SYS_V2P` of the current process, which holds `CAP_DEV_IO`. -/
def sysV2p (a1 : BitVec 64) (s : Sys) : BitVec 64 :=
  let p := s.procs s.current
  if !p.isUser then err
  else
    let pa := physOfUser s.vm p.cr3 a1
    if pa ≠ 0 then pa else err

/-- The call tells where the processor finds the address, for pages of a device and pages that are the process's
alone, and it tells of every address that ring 3 reaches. -/
structure V2pRight (kernel : Nat) (start s : Sys) (v : BitVec 64) : Prop where
  told : sysV2p v s ≠ err → ∃ x, translate s.vm.tables s.active v = some x ∧ (sysV2p v s).toNat = x.phys ∧
    (OfDevice s s.current v ∨ Alone kernel start s s.current v (x.phys / 4096))
  reached : (s.procs s.current).isUser = true → ∀ x, Reached s s.current v x → v.toNat < 2 ^ 47 → x.phys ≠ 0 →
    (sysV2p v s).toNat = x.phys

theorem toNat_phys (w v : BitVec 64) : ((w &&& pteAddr) + (v &&& 0xFFF)).toNat = inPage 12 w v := by
  have hfloor : w &&& pteAddr &&& ~~~0xFFF = w &&& pteAddr := by
    rw [BitVec.and_assoc]
    rfl
  have hpage : (w &&& pteAddr).toNat = (w &&& pteAddr).toNat / 4096 * 4096 := by
    rw [← toNat_pageFloor, hfloor]
  have hle : (w &&& pteAddr).toNat ≤ pteAddr.toNat := by
    rw [BitVec.toNat_and]
    exact Nat.and_le_right
  have hmask : pteAddr.toNat < 2 ^ 52 := by decide
  have hoffset : (v &&& 0xFFF).toNat = v.toNat % 4096 := by
    rw [BitVec.toNat_and]
    exact Nat.and_two_pow_sub_one_eq_mod _ 12
  unfold inPage
  rw [BitVec.toNat_add, hoffset]
  omega

theorem canonical_low {v : BitVec 64} (h : v.toNat < 2 ^ 47) : canonical v = true := by
  rw [canonical, Bool.or_eq_true]
  exact .inl (decide_eq_true h)

theorem high_iff (v : BitVec 64) : v > 0x00007fffffffffff ↔ ¬ v.toNat < 2 ^ 47 := by
  rw [gt_iff_lt, BitVec.lt_def, show (0x00007fffffffffff : BitVec 64).toNat = 2 ^ 47 - 1 from rfl]
  omega

theorem physOfUser_own {slots : Nat → Bool} {kernel : Nat} {roots : Nat → Option Nat} {base : Nat → Prop} {m : Vm}
    {k r : Nat}
    (h : Space slots kernel roots base m) (hr : roots k = some r) (hne : r ≠ 0) {v : BitVec 64}
    (hslot : slots (idxL4 v) = false) : physOfUser m r v =
      if v.toNat < 2 ^ 47 ∧
        present (pte roots m k v) = true then (pte roots m k v &&& pteAddr) + (v &&& 0xFFF) else 0 := by
  unfold physOfUser
  by_cases hlow : v.toNat < 2 ^ 47
  swap
  · rw [if_pos (.inr ((high_iff v).mpr hlow)), if_neg fun hboth => hlow hboth.1]
  rw [if_neg (not_or.mpr ⟨hne, fun hhigh => (high_iff v).mp hhigh hlow⟩)]
  rcases walk_own h hr hslot with ⟨hpte, habs⟩ | ⟨hpte, h4, h3, h2⟩
  · rcases habs with h4 | ⟨-, h3 | ⟨-, h2⟩⟩
    · simp [hpte, h4]
    · simp [hpte, h3]
    · simp [hpte, h2]
  · simp only [h4.present, h3.present, h2.present, h2.small, hpte, hlow, true_and, Bool.not_true, Bool.false_eq_true,
      if_false]
    split <;> simp_all

/-! ## Runs from boot -/

section

variable {ds : List Descriptor} (hs : Sane ds) {gop : Option Mode} {k : Loaded} {t : Pages} (ht : t.Placed)
  (htables : ∀ f ∈ t.list, Described ds f) {addr : BitVec 64} {mem : Memory}
  (hinit : pmmInit addr (bootInfo gop ds k) = some mem)
  {m : Nat → Nat → BitVec 64} {start s : Sys} {bytes : Nat → BitVec 8} {chunks : Nat} {blocks : List Nat}
  {ops : List Op}
  (hstart : start = started t mem (buildTables t k.kphys k.extent.img2mb m) bytes chunks blocks)
  (hrun : Run (Guarded (Contained (kernelSlots t.pml4 start.vm) t.pml4) (Step t.pml4)) start ops s)
include hs ht htables hinit hstart hrun

theorem reached_own {i : Nat} {v : BitVec 64} {x : Reach} (h : Reached s i v x) :
    kernelSlots t.pml4 start.vm (idxL4 v) = false := by
  subst hstart
  obtain ⟨hboot, hreserved⟩ := started_booted hs ht htables hinit m bytes chunks blocks
  by_contra hslot
  rw [Bool.not_eq_false] at hslot
  have hwalk := h.walk
  rw [process_translates hboot hreserved hrun h.present hslot] at hwalk
  have hkernel := translate_kernel hwalk (built_kernel ht k.kphys k.extent.img2mb m _)
  rw [h.user] at hkernel
  cases hkernel

theorem own_isolated {i : Nat} (hi : (s.procs i).present = true) {v : BitVec 64}
    (hslot : kernelSlots t.pml4 start.vm (idxL4 v) = false) {x : Reach}
    (hx : translate s.vm.tables (s.procs i).cr3 v = some x) :
    OfDevice s i v ∨ Alone t.pml4 start s i v (x.phys / 4096) := by
  have hown : ∀ j u y, Reached s j u y → kernelSlots t.pml4 start.vm (idxL4 u) = false :=
    fun j u y hy => reached_own hs ht htables hinit hstart hrun hy
  subst hstart
  obtain ⟨hboot, hreserved⟩ := started_booted hs ht htables hinit m bytes chunks blocks
  have hspaces := spaces_run hboot hreserved hrun
  have hentries := entries_run hboot hreserved hrun
  obtain ⟨base, hrooted, -⟩ := hspaces.rooted
  rcases owned_cases hrooted hentries hi hslot hx with hdevice | hseat
  · exact .inl hdevice
  · exact .inr (seat_alone hspaces hentries hreserved hown hslot hseat)

/-- Whatever the processes do, ring 3 comes to no page of the kernel and of other processes, but by a page of a
device. -/
theorem ring3_isolated {i : Nat} {v : BitVec 64} {x : Reach} (h : Reached s i v x) :
    OfDevice s i v ∨ Alone t.pml4 start s i v (x.phys / 4096) :=
  own_isolated hs ht htables hinit hstart hrun h.present (reached_own hs ht htables hinit hstart hrun h) h.walk

theorem physOfUser_kernel {i : Nat} (hi : (s.procs i).present = true) {v : BitVec 64}
    (hslot : kernelSlots t.pml4 start.vm (idxL4 v) = true) : physOfUser s.vm (s.procs i).cr3 v = 0 := by
  have hused : ∀ f ∈ t.list, start.vm.pmm.used f = true := by
    intro f hf
    rw [hstart]
    exact started_used t mem _ bytes chunks blocks (tables_used hs htables hinit hf)
  have hbooted : Proc.Memory.Booted t.pml4 (fun f => start.vm.pmm.used f = true) blocks start ∧
    Reserved t.pml4 start.vm := by
    rw [hstart]
    exact started_booted hs ht htables hinit m bytes chunks blocks
  have hspaces := spaces_run hbooted.1 hbooted.2 hrun
  have hbuilt : ∀ f ∈ t.list, ∀ j, s.vm.tables f j = buildTables t k.kphys k.extent.img2mb m f j := by
    intro f hf j
    rw [hspaces.kept f (hused f hf), hstart]
    rfl
  obtain ⟨base, hrooted, -⟩ := hspaces.rooted
  unfold physOfUser
  by_cases hlow : v.toNat < 2 ^ 47
  swap
  · exact if_pos (.inr ((high_iff v).mpr hlow))
  rw [if_neg (not_or.mpr ⟨hrooted.cr3_ne_zero hi, fun hhigh => (high_iff v).mp hhigh hlow⟩)]
  dsimp only
  have hindex : idxL4 v ≠ 0x1FF := by
    rw [idxL4, idx_eq]
    omega
  have hfirst : s.vm.tables (s.procs i).cr3 (idxL4 v) = if idxL4 v = 0 then tableEntry t.pdptId else 0 := by
    rw [hrooted.space.shared i _ (roots_some hi) _ (idxL4_lt v) hslot, hbuilt t.pml4 (by simp [Pages.list]),
      pml4_at ht.nodup, if_neg hindex]
  have htable : ∀ c ∈ t.list, present (tableEntry c) = true ∧ pfn (tableEntry c) = c :=
    fun c hc => ⟨(tableEntry_bits (ht.bound c hc)).1, pfn_tableEntry (ht.bound c hc)⟩
  have habsent : (!present (0 : BitVec 64)) = true := by rw [present_zero, Bool.not_false]
  by_cases hzero : idxL4 v = 0
  swap
  · rw [hfirst, if_neg hzero]
    exact if_pos habsent
  obtain ⟨hp4, hc4⟩ := htable t.pdptId (by simp [Pages.list])
  rw [hfirst, if_pos hzero, hp4, hc4, hbuilt t.pdptId (by simp [Pages.list])]
  by_cases hfour : idxL3 v < 4
  swap
  · have hnone : buildTables t k.kphys k.extent.img2mb m t.pdptId (idxL3 v) = 0 := by
      rw [pdptId_at ht.nodup, if_neg (by omega), if_neg (by omega), if_neg (by omega), if_neg (by omega)]
    rw [hnone, if_neg (by simp), if_pos habsent]
  obtain ⟨hdirectory, hleaf⟩ := pdId_at ht.nodup k.kphys k.extent.img2mb m (idxL2 v) hfour (idxL2_lt v)
  have hmem : t.pdId (idxL3 v) ∈ t.list := by
    generalize idxL3 v = n at hfour
    obtain rfl | rfl | rfl | rfl : n = 0 ∨ n = 1 ∨ n = 2 ∨ n = 3 := by omega
    all_goals simp [Pages.pdId, Pages.list]
  obtain ⟨hp3, hc3⟩ := htable _ hmem
  rw [hdirectory, hp3, hc3, hbuilt _ hmem, hleaf]
  have hlarge : large (identityEntry (512 * idxL3 v + idxL2 v)) = true := by simp [identityEntry, leafEntry, large]
  rw [hlarge]
  simp

/-- `SYS_V2P` tells where the processor finds the address, and reveals no page of the kernel and of other processes. -/
theorem v2p_right (hrunning : s.running = true) (v : BitVec 64) : V2pRight t.pml4 start s v := by
  have hbooted : Proc.Memory.Booted t.pml4 (fun f => start.vm.pmm.used f = true) blocks start ∧
    Reserved t.pml4 start.vm := by
    rw [hstart]
    exact started_booted hs ht htables hinit m bytes chunks blocks
  obtain ⟨base, hrooted, -⟩ := (spaces_run hbooted.1 hbooted.2 hrun).rooted
  obtain ⟨⟨-, hpresent, -⟩, hactive⟩ := hrooted.current hrunning
  have hr := roots_some hpresent
  have hne := hrooted.cr3_ne_zero hpresent
  refine ⟨fun htold => ?_, fun huser x hx hlow hphys => ?_⟩
  · unfold sysV2p at htold ⊢
    dsimp only at htold ⊢
    by_cases huser : (s.procs s.current).isUser = true
    swap
    · exact absurd (if_pos (by simpa using huser)) htold
    rw [if_neg (by simp [huser])] at htold ⊢
    by_cases hpa : physOfUser s.vm (s.procs s.current).cr3 v = 0
    · exact absurd (if_neg (not_not.mpr hpa)) htold
    rw [if_pos hpa]
    have hslot : kernelSlots t.pml4 start.vm (idxL4 v) = false := by
      by_contra hslot
      exact hpa (physOfUser_kernel hs ht htables hinit hstart hrun hpresent (by simpa using hslot))
    have hphys := physOfUser_own hrooted.space hr hne hslot
    rw [hphys] at hpa
    split at hpa
    swap
    · exact absurd rfl hpa
    rename_i hfound
    have hwalk := translate_own hrooted.space hr hslot
    rw [canonical_low hfound.1, hfound.2, Bool.and_self, if_pos rfl] at hwalk
    refine ⟨_, hactive ▸ hwalk, ?_, own_isolated hs ht htables hinit hstart hrun hpresent hslot hwalk⟩
    rw [hphys, if_pos hfound, toNat_phys]
  · have hslot := reached_own hs ht htables hinit hstart hrun hx
    obtain ⟨-, hfound, heq, -⟩ := own_reach hrooted.space hr hslot hx.walk
    have hpa := physOfUser_own hrooted.space hr hne hslot
    rw [if_pos ⟨hlow, hfound⟩] at hpa
    have htold : (physOfUser s.vm (s.procs s.current).cr3 v).toNat = x.phys := by rw [hpa, toNat_phys, heq]
    unfold sysV2p
    dsimp only
    rw [if_neg (by simp [huser]), if_pos]
    · exact htold
    · intro hzero
      rw [hzero] at htold
      exact hphys htold.symm

end

theorem ring3_isolated_small :
    OfDevice smallUser 0 0x200000000010 ∨ Alone 16 smallStart smallUser 0 0x200000000010 33 := by
  have hreached : Reached smallUser 0 0x200000000010 ⟨0x21010, false, true⟩ :=
    ⟨by decide +kernel, by decide +kernel, rfl⟩
  exact ring3_isolated smallMap_sane lowPages_placed lowPages_described smallMemory_init rfl smallUser_run hreached

theorem v2p_right_small : V2pRight 16 smallStart smallUser 0x200000000010 :=
  v2p_right smallMap_sane lowPages_placed lowPages_described smallMemory_init rfl smallUser_run (by decide +kernel) _

end Siathos.Boot
