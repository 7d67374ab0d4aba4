import Siathos.Proc.Argv

/-!
# The bytes decide nothing

What pages, tables and processes there are does not depend on what the pages hold. Each call does the same over other
contents.
-/

open Lib Siathos.Paging

namespace Siathos.Paging

/-- The same memory, where the pages hold other bytes. -/
def Vm.holding (m : Vm) (b : Nat → BitVec 8) : Vm := { m with bytes := b }

variable (b : Nat → BitVec 8) (m : Vm)

theorem Vm.holding_bytes : (m.holding b).bytes = b := rfl

theorem Vm.holding_holding (b' : Nat → BitVec 8) : (m.holding b).holding b' = m.holding b' := rfl

theorem ensureTable_holding (u : Bool) (t i : Nat) :
    ensureTable u t i (m.holding b) = ((ensureTable u t i m).1.holding b, (ensureTable u t i m).2) := by
  unfold ensureTable Vm.holding
  dsimp only
  split
  · split <;> rfl
  · obtain ⟨pmm, f⟩ := pmmAlloc m.pmm .table 1
    cases f <;> rfl

theorem ensureTables_holding (t : Nat) (path : List Nat) :
    ensureTables t path (m.holding b) = ((ensureTables t path m).1.holding b, (ensureTables t path m).2) := by
  induction path generalizing t m with
  | nil => rfl
  | cons i path ih =>
    unfold ensureTables
    rw [ensureTable_holding]
    obtain ⟨m', child⟩ := ensureTable true t i m
    cases child with
    | zero => rfl
    | succ child => exact ih m' (child + 1)

theorem mapUser_holding (pml4 : Nat) (virt phys flags : BitVec 64) :
    mapUser pml4 virt phys flags (m.holding b) =
      ((mapUser pml4 virt phys flags m).1.holding b, (mapUser pml4 virt phys flags m).2) := by
  unfold mapUser
  split
  · rfl
  · rw [ensureTables_holding]
    obtain ⟨m', l1⟩ := ensureTables pml4 [idxL4 virt, idxL3 virt, idxL2 virt] m
    cases l1 <;> rfl

theorem unmapUser_holding (pml4 : Nat) (virt : BitVec 64) :
    unmapUser pml4 virt (m.holding b) = ((unmapUser pml4 virt m).1.holding b, (unmapUser pml4 virt m).2) := by
  unfold unmapUser Vm.holding
  dsimp only
  repeat' split
  all_goals rfl

theorem newAddressSpace_holding (kernel : Nat) :
    newAddressSpace kernel (m.holding b) = ((newAddressSpace kernel m).1.holding b, (newAddressSpace kernel m).2) := by
  unfold newAddressSpace Vm.holding
  obtain ⟨pmm, f⟩ := pmmAlloc m.pmm .pml4 1
  cases f <;> rfl

theorem freeAddressSpace_holding (kernel pml4 : Nat) :
    freeAddressSpace kernel pml4 (m.holding b) = (freeAddressSpace kernel pml4 m).holding b := by
  have htables : (m.holding b).tables = m.tables := rfl
  have hpmm : (m.holding b).pmm = m.pmm := rfl
  unfold freeAddressSpace
  rw [htables, hpmm]
  split
  · rfl
  · generalize List.foldl _ m.pmm (List.range 512) = pmm
    rfl

end Siathos.Paging

namespace Siathos.Proc.Memory

def Sys.holding (s : Sys) (b : Nat → BitVec 8) : Sys := { s with vm := s.vm.holding b }

variable (b : Nat → BitVec 8) (m : Vm) (s : Sys)

theorem mapPages_holding (pml4 : Nat) (v : BitVec 64) (f : Nat) (flags : BitVec 64) (n : Nat) :
    mapPages pml4 v f flags n (m.holding b) = (mapPages pml4 v f flags n m).holding b := by
  induction n with
  | zero => rfl
  | succ n ih => rw [mapPages_succ, mapPages_succ, ih, mapUser_holding]

theorem unmapPages_holding (pml4 : Nat) (base : BitVec 64) (n : Nat) :
    unmapPages pml4 base n (m.holding b) = (unmapPages pml4 base n m).holding b := by
  induction n with
  | zero => rfl
  | succ n ih =>
    rw [unmapPages_succ, unmapPages_succ, ih, unmapUser_holding]
    dsimp only
    split <;> rfl

theorem mmapPages_holding (pml4 : Nat) (base : BitVec 64) (done n : Nat) :
    mmapPages pml4 base done n (m.holding b) =
      ((mmapPages pml4 base done n m).1.holding b, (mmapPages pml4 base done n m).2) := by
  induction n generalizing done m with
  | zero => rfl
  | succ n ih =>
    unfold mmapPages
    have halloc : (m.holding b).pmm = m.pmm := rfl
    rw [halloc]
    obtain ⟨pmm, f⟩ := pmmAlloc m.pmm .mmap 1
    dsimp only
    split
    · rfl
    · have hmap := mapUser_holding b { m with pmm } pml4 (base + BitVec.ofNat 64 (done * 0x1000)) (pageAddr f)
        (0x7 ||| nx)
      rw [show { m.holding b with pmm } = ({ m with pmm } : Vm).holding b from rfl, hmap]
      obtain ⟨m', ok⟩ := mapUser pml4 (base + BitVec.ofNat 64 (done * 0x1000)) (pageAddr f) (0x7 ||| nx) { m with pmm }
      cases ok with
      | true => exact ih m' (done + 1)
      | false => rfl

theorem devPages_holding (pml4 : Nat) (va phys : BitVec 64) (n : Nat) :
    devPages pml4 va phys n (m.holding b) =
      ((devPages pml4 va phys n m).1.holding b, (devPages pml4 va phys n m).2) := by
  induction n generalizing va phys m with
  | zero => rfl
  | succ n ih =>
    unfold devPages
    rw [mapUser_holding]
    obtain ⟨m', ok⟩ := mapUser pml4 va phys (0x7 ||| nx ||| pteAvailMmio) m
    cases ok with
    | true => exact ih m' _ _
    | false => rfl

theorem kmalloc_holding (room : Option Nat) :
    kmalloc room (s.holding b) = ((kmalloc room s).1.holding b, (kmalloc room s).2) := by
  cases room with
  | some p => rfl
  | none =>
    unfold kmalloc
    have halloc : (s.holding b).vm.pmm = s.vm.pmm := rfl
    rw [halloc]
    obtain ⟨pmm, f⟩ := pmmAlloc s.vm.pmm .heap 256
    dsimp only
    split <;> rfl

theorem kfree_holding (p : Nat) : kfree p (s.holding b) = (kfree p s).holding b := by
  unfold kfree
  split <;> rfl

theorem kfree_set_holding (b' : Nat → BitVec 8) (p i : Nat) (q : Pcb) :
    (kfree p { s with vm := m.holding b }).set i q = ((kfree p { s with vm := m.holding b' }).set i q).holding b := by
  unfold kfree
  split <;> rfl

theorem createArgv_holding (kernel : Nat) (room : Option Nat) :
    createArgv kernel room (s.holding b) = ((createArgv kernel room s).1.holding b, (createArgv kernel room s).2) := by
  unfold createArgv
  have hfind : findFree (s.holding b) = findFree s := rfl
  rw [hfind]
  cases findFree s with
  | none => rfl
  | some idx =>
    dsimp only
    have halloc := kmalloc_holding b { s with nextPid := s.nextPid + 1 } room
    rw [show { s.holding b with nextPid := (s.holding b).nextPid + 1 } =
      ({ s with nextPid := s.nextPid + 1 } : Sys).holding b from rfl, halloc]
    obtain ⟨s', stack⟩ := kmalloc room { s with nextPid := s.nextPid + 1 }
    dsimp only
    split
    · rfl
    · rw [show (s'.holding b).vm = s'.vm.holding b from rfl, newAddressSpace_holding]
      rfl

theorem sysMmap_holding (a1 : BitVec 64) :
    sysMmap a1 (s.holding b) = ((sysMmap a1 s).1.holding b, (sysMmap a1 s).2) := by
  by_cases hmaps : Mmaps s a1
  · have hpages := mmapPages_holding b s.vm (s.procs s.current).cr3 (mmapAt s) 0 (mmapCount a1)
    have hmaps' : Mmaps (s.holding b) a1 := hmaps
    cases heq : mmapPages (s.procs s.current).cr3 (mmapAt s) 0 (mmapCount a1) s.vm with
    | mk vm done =>
      rw [heq] at hpages
      cases done with
      | none =>
        rw [sysMmap_maps hmaps heq, sysMmap_maps hmaps' hpages]
        rfl
      | some done =>
        rw [sysMmap_fails hmaps heq, sysMmap_fails hmaps' hpages, unmapPages_holding]
        rfl
  · have hmaps' : ¬Mmaps (s.holding b) a1 := hmaps
    rw [sysMmap_refuses hmaps, sysMmap_refuses hmaps']

theorem sysDevMap_holding (a1 a2 : BitVec 64) :
    sysDevMap a1 a2 (s.holding b) = ((sysDevMap a1 a2 s).1.holding b, (sysDevMap a1 a2 s).2) := by
  unfold sysDevMap
  have hprocs : (s.holding b).procs (s.holding b).current = s.procs s.current := rfl
  have hvm : (s.holding b).vm = s.vm.holding b := rfl
  simp only [hprocs, hvm, devPages_holding]
  split
  · rfl
  · split
    · rfl
    · generalize devPages (s.procs s.current).cr3 _ a1 _ s.vm = r
      obtain ⟨m, ok⟩ := r
      cases ok <;> rfl

theorem collect_holding (kernel i : Nat) : collect kernel (s.holding b) i = (collect kernel s i).holding b := by
  unfold collect
  have hprocs : (s.holding b).procs i = s.procs i := rfl
  simp only [hprocs, kfree_holding]
  split
  · rfl
  · generalize hs : (if (s.procs i).stack = 0 then s else kfree (s.procs i).stack s) = s'
    have hpush : (if (s.procs i).stack = 0 then s.holding b else (kfree (s.procs i).stack s).holding b) =
      s'.holding b := by
      rw [← hs]
      split <;> rfl
    rw [hpush, show (s'.holding b).vm = s'.vm.holding b from rfl, show (s'.holding b).active = s'.active from rfl,
      freeAddressSpace_holding]
    split <;> rfl

theorem procGcRun_holding (kernel : Nat) : procGcRun kernel (s.holding b) = (procGcRun kernel s).holding b := by
  unfold procGcRun
  generalize List.range maxProcs = l
  induction l generalizing s with
  | nil => rfl
  | cons i l ih => rw [List.foldl_cons, List.foldl_cons, collect_holding, ih]

end Siathos.Proc.Memory

/-! ## Copies -/

namespace Siathos.Proc.Argv

open Memory

variable (b : Nat → BitVec 8) (m : Vm) (s : Sys)

theorem fill_eq (dst len : Nat) (v : Nat → BitVec 8) :
    fill m dst len v = m.holding (Copy.put ⟨dst, len, v⟩ m.bytes) := rfl

/-- The copies of the loop over the regions: each segment is cleared as a whole before its bytes of the file. -/
def regionCopies (pm : Nat) (img : Nat → BitVec 8) : List Ureg → Vm → List Copy
  | [], _ => []
  | r :: rest, m =>
    if r.base < userVaddrBase then []
    else
      let (pmm, phys) := pmmAlloc m.pmm .segment r.pages
      if phys = 0 then []
      else
        ⟨phys * 0x1000, r.pages * 0x1000, fun _ => 0⟩ ::
          ⟨phys * 0x1000 + r.off.toNat, r.fileSz.toNat, fun a => img (r.src.toNat + a)⟩ ::
          regionCopies pm img rest (mapPages pm r.base phys r.pageFlags r.pages { m with pmm })

theorem loadRegions_holding (pm : Nat) (img : Nat → BitVec 8) (regs : List Ureg) (code : List Region) :
    loadRegions pm img regs code (m.holding b) =
      ((loadRegions pm img regs code m).1.holding (putAll (regionCopies pm img regs m) b),
        (loadRegions pm img regs code m).2) := by
  induction regs generalizing code m b with
  | nil => rfl
  | cons r regs ih =>
    unfold loadRegions regionCopies
    have hpmm : (m.holding b).pmm = m.pmm := rfl
    rw [hpmm]
    by_cases hbase : r.base < userVaddrBase
    · simp only [if_pos hbase]
      rfl
    · simp only [if_neg hbase]
      obtain ⟨pmm, phys⟩ := pmmAlloc m.pmm .segment r.pages
      dsimp only
      by_cases hphys : phys = 0
      · simp only [if_pos hphys]
        rfl
      · have hpush : ∀ c : Nat → BitVec 8, { m.holding c with pmm } = ({ m with pmm } : Vm).holding c := fun _ => rfl
        simp only [if_neg hphys]
        rw [hpush]
        simp only [fill_eq, Vm.holding_holding, Vm.holding_bytes, mapPages_holding, ih, putAll_cons]

/-- The copies of `proc_enter_user`. -/
def enterCopies (code : List Region) (aVa : Nat → BitVec 64) (argv : List (Option CStr)) (m : Vm) : List Copy :=
  let (_, userStack) := pmmAlloc m.pmm .userStack userStackPages
  if userStack = 0 then [] else argvCopies (maxEnd code + 0x10000) (userStack * 0x1000) aVa argv

theorem enterUser_holding (pm : Nat) (code : List Region) (aVa : Nat → BitVec 64) (argv : List (Option CStr))
    (p : Pcb) :
    enterUser pm code aVa argv p (m.holding b) =
      ((enterUser pm code aVa argv p m).1.holding (putAll (enterCopies code aVa argv m) b),
        (enterUser pm code aVa argv p m).2) := by
  unfold enterUser enterCopies
  have hpmm : (m.holding b).pmm = m.pmm := rfl
  rw [hpmm]
  obtain ⟨pmm, userStack⟩ := pmmAlloc m.pmm .userStack userStackPages
  dsimp only
  split
  · rfl
  · rw [show { m.holding b with pmm } = ({ m with pmm } : Vm).holding b from rfl, mapPages_holding]
    rfl

/-- The copies of `proc_create_user_args`. -/
def userArgsCopies (kernel : Nat) (room : Option Nat) (userCode : Nat → BitVec 8) (userSize : Nat)
    (aVa : Nat → BitVec 64) (argv : List (Option CStr)) (s : Sys) : List Copy :=
  match findFree s with
  | none => []
  | some _ =>
    let (s, stack) := kmalloc room { s with nextPid := s.nextPid + 1 }
    let (vm, pm) := newAddressSpace kernel s.vm
    let (pmm, codePhys) := pmmAlloc vm.pmm .code (codePages userSize)
    if stack = 0 ∨ pm = 0 ∨ codePhys = 0 then []
    else
      ⟨codePhys * 0x1000, userSize, userCode⟩ ::
        enterCopies [⟨userVaddrBase, BitVec.ofNat 64 (codePages userSize * 0x1000)⟩] aVa argv
          (mapPages pm userVaddrBase codePhys 0x5 (codePages userSize) { vm with pmm })

theorem createUserArgs_holding (kernel : Nat) (room : Option Nat) (userCode : Nat → BitVec 8) (userSize : Nat)
    (aVa : Nat → BitVec 64) (argv : List (Option CStr)) :
    createUserArgs kernel room userCode userSize aVa argv (s.holding b) =
      ((createUserArgs kernel room userCode userSize aVa argv s).1.holding
          (putAll (userArgsCopies kernel room userCode userSize aVa argv s) b),
        (createUserArgs kernel room userCode userSize aVa argv s).2) := by
  unfold createUserArgs userArgsCopies
  rw [show findFree (s.holding b) = findFree s from rfl]
  cases findFree s with
  | none => rfl
  | some idx =>
    dsimp only
    rw [show { s.holding b with nextPid := (s.holding b).nextPid + 1 } =
      ({ s with nextPid := s.nextPid + 1 } : Sys).holding b from rfl, kmalloc_holding,
      show (s.holding b).procs = s.procs from rfl, show (s.holding b).nextPid = s.nextPid from rfl]
    generalize kmalloc room { s with nextPid := s.nextPid + 1 } = r
    obtain ⟨s', stack⟩ := r
    dsimp only
    by_cases hstack : stack = 0
    · rw [if_pos hstack, if_pos hstack, if_pos (.inl hstack)]
      rfl
    · rw [if_neg hstack, if_neg hstack, show (s'.holding b).vm = s'.vm.holding b from rfl, newAddressSpace_holding]
      generalize newAddressSpace kernel s'.vm = r
      obtain ⟨m, pm⟩ := r
      dsimp only
      by_cases hpm : pm = 0
      · rw [if_pos hpm, if_pos hpm, if_pos (.inr (.inl hpm))]
        exact congrArg (·, (-3 : Int)) (kfree_set_holding b m s' m.bytes stack idx _)
      · rw [if_neg hpm, if_neg hpm, show (m.holding b).pmm = m.pmm from rfl]
        generalize pmmAlloc m.pmm .code (codePages userSize) = r
        obtain ⟨pmm, codePhys⟩ := r
        dsimp only
        by_cases hcode : codePhys = 0
        · rw [if_pos hcode, if_pos hcode, if_pos (.inr (.inr hcode))]
          exact congrArg (·, (-4 : Int)) (kfree_set_holding b { m with pmm } s' m.bytes stack idx _)
        · rw [if_neg hcode, if_neg hcode, if_neg (by simp [hstack, hpm, hcode]),
            show { m.holding b with pmm } = ({ m with pmm } : Vm).holding b from rfl]
          simp only [fill_eq, Vm.holding_holding, Vm.holding_bytes, mapPages_holding, enterUser_holding, putAll_cons]
          generalize mapPages pm userVaddrBase codePhys 0x5 (codePages userSize) { m with pmm } = m
          generalize enterUser pm [⟨userVaddrBase, BitVec.ofNat 64 (codePages userSize * 0x1000)⟩] aVa argv
            { s.procs idx with present := true, terminated := false, pid := s.nextPid, stack, cr3 := pm } m = r
          obtain ⟨m', _ | q⟩ := r
          · exact congrArg (·, (-5 : Int)) (kfree_set_holding _ m' s' _ stack idx _)
          · rfl

/-- The copies of `proc_create_user_regions`. -/
def userRegionsCopies (kernel : Nat) (room : Option Nat) (img : Nat → BitVec 8) (regs : List Ureg)
    (aVa : Nat → BitVec 64) (argv : List (Option CStr)) (s : Sys) : List Copy :=
  if regs.length = 0 ∨ regs.length > 7 then []
  else match findFree s with
  | none => []
  | some _ =>
    let (s, stack) := kmalloc room { s with nextPid := s.nextPid + 1 }
    let (vm, pm) := newAddressSpace kernel s.vm
    if stack = 0 ∨ pm = 0 then []
    else
      regionCopies pm img regs vm ++
        match loadRegions pm img regs [] vm with
        | (_, .error _) => []
        | (vm, .ok code) => enterCopies code aVa argv vm

theorem createUserRegions_holding (kernel : Nat) (room : Option Nat) (img : Nat → BitVec 8) (regs : List Ureg)
    (aVa : Nat → BitVec 64) (argv : List (Option CStr)) :
    createUserRegions kernel room img regs aVa argv (s.holding b) =
      ((createUserRegions kernel room img regs aVa argv s).1.holding
          (putAll (userRegionsCopies kernel room img regs aVa argv s) b),
        (createUserRegions kernel room img regs aVa argv s).2) := by
  unfold createUserRegions userRegionsCopies
  by_cases hregs : regs.length = 0 ∨ regs.length > 7
  · simp only [if_pos hregs]
    rfl
  · simp only [if_neg hregs]
    rw [show findFree (s.holding b) = findFree s from rfl]
    cases findFree s with
    | none => rfl
    | some idx =>
      dsimp only
      rw [show { s.holding b with nextPid := (s.holding b).nextPid + 1 } =
        ({ s with nextPid := s.nextPid + 1 } : Sys).holding b from rfl, kmalloc_holding,
        show (s.holding b).procs = s.procs from rfl, show (s.holding b).nextPid = s.nextPid from rfl]
      generalize kmalloc room { s with nextPid := s.nextPid + 1 } = r
      obtain ⟨s', stack⟩ := r
      dsimp only
      by_cases hstack : stack = 0
      · rw [if_pos hstack, if_pos hstack, if_pos (.inl hstack)]
        rfl
      · rw [if_neg hstack, if_neg hstack, show (s'.holding b).vm = s'.vm.holding b from rfl, newAddressSpace_holding]
        generalize newAddressSpace kernel s'.vm = r
        obtain ⟨m, pm⟩ := r
        dsimp only
        by_cases hpm : pm = 0
        · rw [if_pos hpm, if_pos hpm, if_pos (.inr hpm)]
          exact congrArg (·, (-3 : Int)) (kfree_set_holding b m s' m.bytes stack idx _)
        · rw [if_neg hpm, if_neg hpm, if_neg (by simp [hstack, hpm]), loadRegions_holding]
          generalize loadRegions pm img regs [] m = r
          obtain ⟨m', e | code⟩ := r
          · dsimp only
            rw [freeAddressSpace_holding, List.append_nil]
            exact congrArg (·, e)
              (kfree_set_holding _ (freeAddressSpace kernel pm m') s' (freeAddressSpace kernel pm m').bytes stack idx _)
          · dsimp only
            rw [enterUser_holding, putAll_append]
            generalize enterUser pm code aVa argv
              { s.procs idx with present := true, terminated := false, pid := s.nextPid, stack, cr3 := pm } m' = r
            obtain ⟨m'', _ | q⟩ := r
            · exact congrArg (·, (-5 : Int)) (kfree_set_holding _ m'' s' m''.bytes stack idx _)
            · rfl

end Siathos.Proc.Argv
