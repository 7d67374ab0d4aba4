import Siathos.Proc.Creation
import Siathos.Proc.Growth

/-!
# What is written to pages

The kernel fills the pages that it has just been given. Pages in use keep their bytes as long as no segment
is longer than its pages.
-/

open Lib Siathos.Paging

namespace Siathos.Proc.Memory

/-- The bytes of the file go into the pages of the segment. -/
def Ureg.Fits (r : Ureg) : Prop := r.off.toNat + r.fileSz.toNat ≤ r.pages * 0x1000

instance (r : Ureg) : Decidable r.Fits := inferInstanceAs (Decidable (_ ≤ _))

/-- Pages in use stay in use and keep their bytes. -/
structure Fills (m m' : Vm) : Prop where
  total : m'.pmm.total = m.pmm.total
  mono : ∀ f, m.pmm.used f = true → m'.pmm.used f = true
  bytes : ∀ a, m.pmm.used (a / 4096) = true → m'.bytes a = m.bytes a

theorem Fills.refl (m : Vm) : Fills m m := ⟨rfl, fun _ h => h, fun _ _ => rfl⟩

theorem Fills.trans {m m' m'' : Vm} (h : Fills m m') (h' : Fills m' m'') : Fills m m'' :=
  ⟨h'.total.trans h.total, fun f hf => h'.mono f (h.mono f hf),
  fun a ha => (h'.bytes a (h.mono _ ha)).trans (h.bytes a ha)⟩

/-! ## Frames and tables -/

theorem pmmAlloc_fills {m : Vm} {pmm : Pmm} {why : Purpose} {pages f : Nat} (h : pmmAlloc m.pmm why pages = (pmm, f)) :
    Fills m { m with pmm } := by
  unfold pmmAlloc at h
  split at h
  · cases h
    exact Fills.refl m
  · split at h
    · cases h
      exact ⟨rfl, fun g hg => by simp [hg], fun _ _ => rfl⟩
    · cases h
      exact ⟨rfl, fun _ hg => hg, fun _ _ => rfl⟩

theorem Takes.outside {pmm pmm' : Pmm} {f n a : Nat} (h : Takes pmm pmm' f n) (ha : pmm.used (a / 4096) = true) :
    a < f * 4096 ∨ f * 4096 + n * 4096 ≤ a := by
  rw [← Nat.add_mul]
  by_contra hin
  have hfree := (h.free (a / 4096) (by omega) (by omega)).1
  rw [ha] at hfree
  cases hfree

theorem Takes.fills {m m' : Vm} {f n : Nat} (h : Takes m.pmm m'.pmm f n)
    (hbytes : ∀ a, a < f * 4096 ∨ f * 4096 + n * 4096 ≤ a → m'.bytes a = m.bytes a) : Fills m m' :=
  ⟨h.total, fun g hg => (h.used g).mpr (.inl hg), fun a ha => hbytes a (Takes.outside h ha)⟩

theorem fill_other {m : Vm} {dst len a : Nat} {v : Nat → BitVec 8} (h : a < dst ∨ dst + len ≤ a) :
    (fill m dst len v).bytes a = m.bytes a :=
  if_neg (by omega)

/-- What is filled is in the block of this size from `lo` on. -/
theorem fill_outside {m : Vm} {lo size off len a : Nat} {v : Nat → BitVec 8} (h : off + len ≤ size)
    (ha : a < lo ∨ lo + size ≤ a) : (fill m (lo + off) len v).bytes a = m.bytes a :=
  fill_other (by omega)

theorem ensureTable_fills (u : Bool) (t i : Nat) (m : Vm) : Fills m (ensureTable u t i m).1 := by
  unfold ensureTable
  dsimp only
  split
  · split <;> exact Fills.refl m
  · cases halloc : pmmAlloc m.pmm .table 1 with
    | mk pmm f =>
      have hfills := pmmAlloc_fills (m := m) halloc
      cases f with
      | zero => exact hfills
      | succ f => exact ⟨hfills.total, hfills.mono, hfills.bytes⟩

theorem ensureTables_fills (t : Nat) (path : List Nat) (m : Vm) : Fills m (ensureTables t path m).1 := by
  induction path generalizing t m with
  | nil => exact Fills.refl m
  | cons i path ih =>
    have hfills := ensureTable_fills true t i m
    unfold ensureTables
    split
    · rename_i m' heq
      rw [heq] at hfills
      exact hfills
    · rename_i m' child hchild heq
      rw [heq] at hfills
      exact hfills.trans (ih child m')

theorem mapUser_fills (pml4 : Nat) (virt phys flags : BitVec 64) (m : Vm) :
    Fills m (mapUser pml4 virt phys flags m).1 := by
  unfold mapUser
  split
  · exact Fills.refl m
  · have hfills := ensureTables_fills pml4 [idxL4 virt, idxL3 virt, idxL2 virt] m
    split
    · rename_i m' heq
      rw [heq] at hfills
      exact hfills
    · rename_i m' l1 hl1 heq
      rw [heq] at hfills
      exact ⟨hfills.total, hfills.mono, hfills.bytes⟩

theorem mapPages_fills (pml4 : Nat) (v : BitVec 64) (f : Nat) (flags : BitVec 64) (n : Nat) (m : Vm) :
    Fills m (mapPages pml4 v f flags n m) := by
  induction n with
  | zero => exact Fills.refl m
  | succ n ih =>
    rw [mapPages_succ]
    exact ih.trans (mapUser_fills ..)

theorem newAddressSpace_fills (kernel : Nat) (m : Vm) : Fills m (newAddressSpace kernel m).1 := by
  unfold newAddressSpace
  cases halloc : pmmAlloc m.pmm .pml4 1 with
  | mk pmm f =>
    have hfills := pmmAlloc_fills (m := m) halloc
    cases f with
    | zero => exact hfills
    | succ f => exact ⟨hfills.total, hfills.mono, hfills.bytes⟩

theorem kmalloc_fills (room : Option Nat) (s : Sys) : Fills s.vm (kmalloc room s).1.vm := by
  cases room with
  | some p => exact Fills.refl s.vm
  | none =>
    unfold kmalloc
    cases halloc : pmmAlloc s.vm.pmm .heap 256 with
    | mk pmm f =>
      dsimp only
      split <;> exact pmmAlloc_fills halloc

/-! ## Creation -/

theorem Ureg.off_lt (r : Ureg) : r.off.toNat < 4096 := by
  have hfloor : r.base.toNat = r.vaddr.toNat / 4096 * 4096 := toNat_pageFloor r.vaddr
  have hle : r.base.toNat ≤ r.vaddr.toNat := by
    rw [hfloor]
    omega
  rw [Ureg.off, BitVec.toNat_sub_of_le hle, hfloor]
  omega

theorem loadRegions_fills (pml4 : Nat) (img : Nat → BitVec 8) {regs : List Ureg} (code : List Region) {m : Vm}
    (hfits : ∀ g ∈ loadable m.pmm.total regs, g.Fits) : Fills m (loadRegions pml4 img regs code m).1 := by
  induction regs generalizing code m with
  | nil => exact Fills.refl m
  | cons g regs ih =>
    unfold loadRegions
    split
    · exact Fills.refl m
    · rename_i hbase
      cases halloc : pmmAlloc m.pmm .segment g.pages with
      | mk pmm f =>
        dsimp only
        split
        · exact pmmAlloc_fills halloc
        · rename_i hf
          have htakes : Takes m.pmm pmm f g.pages := pmmAlloc_takes halloc hf
          rw [loadable_cons (loadable_of_takes hbase htakes)] at hfits
          obtain ⟨hfit, hfits⟩ := List.forall_mem_cons.mp hfits
          have hfilled : Fills m (fill (fill { m with pmm } (f * 0x1000) (g.pages * 0x1000) fun _ => 0)
              (f * 0x1000 + g.off.toNat) g.fileSz.toNat fun a => img (g.src.toNat + a)) :=
            Takes.fills htakes fun a ha => (fill_outside hfit ha).trans (fill_other ha)
          have hmapped := hfilled.trans (mapPages_fills pml4 g.base f g.pageFlags g.pages _)
          exact hmapped.trans (ih _ (hmapped.total.symm ▸ hfits))

theorem enterUser_fills (pml4 : Nat) (code : List Region) (zone : Nat → BitVec 8) (p : Pcb) (m : Vm) :
    Fills m (enterUser pml4 code zone p m).1 := by
  unfold enterUser
  cases halloc : pmmAlloc m.pmm .userStack userStackPages with
  | mk pmm f =>
    dsimp only
    split
    · exact pmmAlloc_fills halloc
    · rename_i hf
      have htakes : Takes m.pmm pmm f 16 := pmmAlloc_takes halloc hf
      have hmaps := mapPages_fills pml4 (maxEnd code + 0x10000) f (0x7 ||| nx) userStackPages { m with pmm }
      refine ⟨hmaps.total.trans htakes.total, fun g hg => hmaps.mono g ((htakes.used g).mpr (.inl hg)), fun a ha => ?_⟩
      have hlast : (f + 15) * 0x1000 = f * 0x1000 + 15 * 0x1000 := Nat.add_mul ..
      rw [hlast]
      exact (fill_outside (by decide) (Takes.outside htakes ha)).trans (hmaps.bytes a ((htakes.used _).mpr (.inl ha)))

theorem createArgv_bytes (kernel : Nat) (room : Option Nat) (s : Sys) {a : Nat} (ha : s.vm.pmm.used (a / 4096) = true) :
    (createArgv kernel room s).1.vm.bytes a = s.vm.bytes a := by
  unfold createArgv
  cases findFree s with
  | none => rfl
  | some idx =>
    dsimp only
    have hfills := kmalloc_fills room { s with nextPid := s.nextPid + 1 }
    generalize kmalloc room { s with nextPid := s.nextPid + 1 } = r at hfills ⊢
    obtain ⟨s', stack⟩ := r
    dsimp only at hfills ⊢
    split
    · exact hfills.bytes a ha
    · exact (hfills.trans (newAddressSpace_fills kernel s'.vm)).bytes a ha

theorem createUserArgs_bytes (kernel : Nat) (room : Option Nat) (userCode : Nat → BitVec 8) {userSize : Nat}
    (hfits : userSize ≤ codePages userSize * 0x1000) (zone : Nat → BitVec 8) (s : Sys) {a : Nat}
    (ha : s.vm.pmm.used (a / 4096) = true) :
    (createUserArgs kernel room userCode userSize zone s).1.vm.bytes a = s.vm.bytes a := by
  have hpages : (if (userSize + 0xFFF) / 0x1000 = 0 ∨ (userSize + 0xFFF) / 0x1000 > 512 then 512 else
      (userSize + 0xFFF) / 0x1000) = codePages userSize := rfl
  unfold createUserArgs
  cases findFree s with
  | none => rfl
  | some idx =>
    dsimp only
    have hfills := kmalloc_fills room { s with nextPid := s.nextPid + 1 }
    generalize kmalloc room { s with nextPid := s.nextPid + 1 } = r at hfills ⊢
    obtain ⟨s', stack⟩ := r
    dsimp only at hfills ⊢
    split
    · exact hfills.bytes a ha
    · have hfills := hfills.trans (newAddressSpace_fills kernel s'.vm)
      generalize newAddressSpace kernel s'.vm = r at hfills ⊢
      obtain ⟨m, pm⟩ := r
      dsimp only at hfills ⊢
      split
      · rw [Sys.set_vm, kfree_vm]
        exact hfills.bytes a ha
      · rw [hpages]
        cases halloc : pmmAlloc m.pmm .code (codePages userSize) with
        | mk pmm f =>
          dsimp only
          split
          · rw [Sys.set_vm, kfree_vm]
            exact hfills.bytes a ha
          · rename_i hf
            have htakes : Takes m.pmm pmm f (codePages userSize) := pmmAlloc_takes halloc hf
            have hcode : Fills m (fill { m with pmm } (f * 0x1000) userSize userCode) := by
              exact Takes.fills htakes fun a ha => fill_other (ha.imp id (Nat.le_trans (Nat.add_le_add_left hfits _)))
            have hmaps := hcode.trans (mapPages_fills pm userVaddrBase f 0x5 (codePages userSize) _)
            generalize mapPages pm userVaddrBase f 0x5 (codePages userSize)
              (fill { m with pmm } (f * 0x1000) userSize userCode) = m' at hmaps ⊢
            have hall := hfills.trans (hmaps.trans (enterUser_fills pm
              [⟨userVaddrBase, BitVec.ofNat 64 (codePages userSize * 0x1000)⟩] zone
              { s.procs idx with present := true, terminated := false, pid := s.nextPid, stack, cr3 := pm } m'))
            split
            · rename_i vm heq
              rw [heq] at hall
              rw [Sys.set_vm, kfree_vm]
              exact hall.bytes a ha
            · rename_i vm p heq
              rw [heq] at hall
              exact hall.bytes a ha

theorem freeAddressSpace_bytes (kernel r : Nat) (m : Vm) : (freeAddressSpace kernel r m).bytes = m.bytes := by
  unfold freeAddressSpace
  split <;> rfl

theorem createUserRegions_bytes (kernel : Nat) (room : Option Nat) (img : Nat → BitVec 8) {regs : List Ureg}
    {s : Sys} (hfits : ∀ g ∈ loadable s.vm.pmm.total regs, g.Fits) (zone : Nat → BitVec 8) {a : Nat}
    (ha : s.vm.pmm.used (a / 4096) = true) :
    (createUserRegions kernel room img regs zone s).1.vm.bytes a = s.vm.bytes a := by
  unfold createUserRegions
  split
  · rfl
  · cases findFree s with
    | none => rfl
    | some idx =>
      dsimp only
      have hfills := kmalloc_fills room { s with nextPid := s.nextPid + 1 }
      generalize kmalloc room { s with nextPid := s.nextPid + 1 } = r at hfills ⊢
      obtain ⟨s', stack⟩ := r
      dsimp only at hfills ⊢
      split
      · exact hfills.bytes a ha
      · have hfills := hfills.trans (newAddressSpace_fills kernel s'.vm)
        generalize newAddressSpace kernel s'.vm = r at hfills ⊢
        obtain ⟨m, pm⟩ := r
        dsimp only at hfills ⊢
        split
        · rw [Sys.set_vm, kfree_vm]
          exact hfills.bytes a ha
        · rw [← hfills.total] at hfits
          have hfills := hfills.trans (loadRegions_fills pm img [] hfits)
          generalize loadRegions pm img regs [] m = r at hfills ⊢
          obtain ⟨m, e | code⟩ := r
          · dsimp only at hfills ⊢
            rw [Sys.set_vm, kfree_vm]
            exact (congrFun (freeAddressSpace_bytes ..) a).trans (hfills.bytes a ha)
          · dsimp only at hfills ⊢
            have hall := hfills.trans (enterUser_fills pm code zone
              { s.procs idx with present := true, terminated := false, pid := s.nextPid, stack, cr3 := pm } m)
            split
            · rename_i vm heq
              rw [heq] at hall
              rw [Sys.set_vm, kfree_vm]
              exact hall.bytes a ha
            · rename_i vm p heq
              rw [heq] at hall
              exact hall.bytes a ha

/-! ## The other calls write no bytes -/

theorem mmapPages_bytes (pml4 : Nat) (b : BitVec 64) (done n : Nat) (m : Vm) {a : Nat}
    (ha : m.pmm.used (a / 4096) = true) : (mmapPages pml4 b done n m).1.bytes a = m.bytes a := by
  induction n generalizing done m with
  | zero => rfl
  | succ n ih =>
    unfold mmapPages
    cases halloc : pmmAlloc m.pmm .mmap 1 with
    | mk pmm f =>
      dsimp only
      have hfills := pmmAlloc_fills (m := m) halloc
      split
      · rfl
      · have hfills := hfills.trans (mapUser_fills pml4 (b + BitVec.ofNat 64 (done * 0x1000)) (pageAddr f) (0x7 ||| nx)
          { m with pmm })
        split
        · rename_i m' heq
          rw [heq] at hfills
          exact (ih (done + 1) m' (hfills.mono _ ha)).trans (hfills.bytes a ha)
        · rename_i m' heq
          rw [heq] at hfills
          exact hfills.bytes a ha

theorem unmapPages_bytes (pml4 : Nat) (b : BitVec 64) (n : Nat) (m : Vm) : (unmapPages pml4 b n m).bytes = m.bytes := by
  induction n with
  | zero => rfl
  | succ n ih =>
    have hunmap : ∀ (v : BitVec 64) (m : Vm), (unmapUser pml4 v m).1.bytes = m.bytes := by
      intro v m
      unfold unmapUser
      split
      · rfl
      · dsimp only
        repeat' split
        all_goals rfl
    rw [unmapPages_succ]
    dsimp only
    split
    · exact (hunmap _ _).trans ih
    · exact (hunmap _ _).trans ih

theorem devPages_fills (pml4 : Nat) (va phys : BitVec 64) (n : Nat) (m : Vm) :
    Fills m (devPages pml4 va phys n m).1 := by
  induction n generalizing va phys m with
  | zero => exact Fills.refl m
  | succ n ih =>
    have hfills := mapUser_fills pml4 va phys (0x7 ||| nx ||| pteAvailMmio) m
    unfold devPages
    split
    · rename_i m' heq
      rw [heq] at hfills
      exact hfills
    · rename_i m' heq
      rw [heq] at hfills
      exact hfills.trans (ih ..)

theorem sysMmap_bytes (a1 : BitVec 64) (s : Sys) {a : Nat} (ha : s.vm.pmm.used (a / 4096) = true) :
    (sysMmap a1 s).1.vm.bytes a = s.vm.bytes a := by
  by_cases hmaps : Mmaps s a1
  · have hbytes := mmapPages_bytes (s.procs s.current).cr3 (mmapAt s) 0 (mmapCount a1) s.vm ha
    cases heq : mmapPages (s.procs s.current).cr3 (mmapAt s) 0 (mmapCount a1) s.vm with
    | mk vm done =>
      rw [heq] at hbytes
      cases done with
      | none =>
        rw [sysMmap_maps hmaps heq]
        exact hbytes
      | some done =>
        rw [sysMmap_fails hmaps heq]
        exact (congrFun (unmapPages_bytes ..) a).trans hbytes
  · rw [sysMmap_refuses hmaps]

theorem sysDevMap_bytes (a1 a2 : BitVec 64) (s : Sys) {a : Nat} (ha : s.vm.pmm.used (a / 4096) = true) :
    (sysDevMap a1 a2 s).1.vm.bytes a = s.vm.bytes a := by
  by_cases hmaps : DevMaps s a1 a2
  · have hfills := devPages_fills (s.procs s.current).cr3 (devMapAt s) a1 (devMapCount a2) s.vm
    cases heq : devPages (s.procs s.current).cr3 (devMapAt s) a1 (devMapCount a2) s.vm with
    | mk vm ok =>
      rw [heq] at hfills
      obtain ⟨devioBase, devioUsed, hstate⟩ := sysDevMap_maps hmaps heq
      rw [hstate]
      exact hfills.bytes a ha
  · rw [sysDevMap_refuses hmaps]

theorem procGcRun_bytes (kernel : Nat) (s : Sys) : (procGcRun kernel s).vm.bytes = s.vm.bytes := by
  unfold procGcRun
  generalize List.range maxProcs = l
  induction l generalizing s with
  | nil => rfl
  | cons i l ih =>
    have hcollect : (collect kernel s i).vm.bytes = s.vm.bytes := by
      unfold collect
      dsimp only
      repeat' split
      all_goals simp only [Sys.set_vm, freeAddressSpace_bytes, kfree_vm]
    rw [List.foldl_cons, ih, hcollect]

end Siathos.Proc.Memory
