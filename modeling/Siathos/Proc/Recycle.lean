import Siathos.Context.Sched
import Siathos.Lib.CStr
import Siathos.Proc.Atomic
import Siathos.Proc.System

/-!
# What a process inherits from its slot (`proc.c`)

The fields of `process_t` that `proc_create_argv`, `proc_create_user_args` and
`proc_create_user_regions` write, next to those that name memory. A slot is not cleared when it is
given away, so a field that no constructor writes is the previous owner's.
-/

open Lib

namespace Siathos.Proc.Recycle

open Context (CpuContext)
open Memory

def procNameMax : Nat := 64

def procStackSize : Nat := 16 * 1024

def appsArgcMax : Nat := 16

inductive State
  | created
  | ready
  | running
  | blocked
  | terminated
  deriving DecidableEq, Repr

/-- The fields of `process_t` behind those of `Pcb`. `elf` has the first `elf_rcount` regions. -/
structure Rest where
  name : CStr
  rights : BitVec 64
  state : State
  ctx : CpuContext
  parent : Nat
  blockedOn : Nat
  ipcAvail : Bool
  exitCode : Nat
  schedulerSeq : Nat
  userKstackTop : Nat
  elf : List Region
  waitPid : Nat
  waitCode : Nat
  deriving DecidableEq, Repr

structure Table where
  sys : Sys
  rest : Nat → Rest

/-- The addresses of `proc_crash_dummy` and `enter_user`. -/
structure Symbols where
  procCrashDummy : Nat
  enterUser : Nat
  deriving DecidableEq, Repr

def align16 (n : Nat) : Nat := (n + 15) / 16 * 16

def nameOf (name : Option CStr) : CStr := cut procNameMax (name.getD (ascii "anomimo"))

/-- The pid of `current_proc`, or 0 where there is none. -/
def creator (s : Sys) : Nat := if s.running then (s.procs s.current).pid else 0

/-! ## Ring 0 -/

/-- How many arguments fit below `limit`, from the offset `strp` in the stack on. -/
def argvUsed (limit : Nat) : Nat → List CStr → Nat
  | _, [] => 0
  | strp, a :: rest =>
    let l := min a.length 511
    if strp + l + 1 > limit then 0 else argvUsed limit (strp + l + 1) rest + 1

/-- `proc_setup_stack`, where `kmalloc` and `paging_new_address_space` gave `stack` and `cr3`. -/
def setupStack (stack cr3 entry : Nat) (argv : List CStr) (ctx : CpuContext) : CpuContext :=
  let ctx := { ctx with
    rbp := 0, rbx := 0, r12 := 0, r13 := 0, r14 := 0, r15 := 0, r8 := 0, r9 := 0, r10 := 0, r11 := 0
    arg1 := 0, arg2 := 0, ran := 0, style := 0, hwRsp := 0 }
  if stack = 0 then ctx
  else
    let top := (align16 stack + procStackSize - 16) / 16 * 16
    let ctx := { ctx with rsp := top, rip := entry }
    let argv := argv.take 64
    let ctx := if argv.length > 0 then
        { ctx with
          arg1 := argvUsed (procStackSize - 4096) ((argv.length + 1) * 8) argv
          arg2 := stack }
      else ctx
    { ctx with cr3 := cr3, ran := 0, style := 0, hwRsp := 0 }

/-! ## Ring 3 -/

/-- What `proc_enter_user` writes behind the memory, for the code regions `code`. -/
def enterUser (sym : Symbols) (stack : Nat) (code : List Region) (argv : List CStr) (p : Rest) : Rest :=
  let argc := if argv.length > appsArgcMax then appsArgcMax else argv.length
  let argvVa := if argv.length > 0 then
      (maxEnd code + 0x10000).toNat + userStackPages * 0x1000 - (argc + 1) * 8
    else 0
  let kend := (align16 stack + procStackSize) / 16 * 16
  let frameBase := (kend - 40) / 8 * 8
  { p with
    ctx := { p.ctx with
      rsp := frameBase - 8, rip := sym.enterUser
      rbp := 0, rbx := 0, r12 := 0, r13 := 0, r14 := 0, r15 := 0, r8 := 0, r9 := 0, r10 := 0, r11 := 0
      arg1 := argc, arg2 := argvVa, style := 0, hwRsp := 0, ran := 0 }
    userKstackTop := kend
    elf := [] }

/-! ## The registers, as the scheduler sees them -/

section

variable {stack : Nat} (s : Context.Sys) (i : Nat) (p : Context.Proc)

theorem align16_eq (haligned : 16 ∣ stack) : align16 stack = stack := by
  unfold align16
  omega

theorem setupStack_context (hstack : stack ≠ 0) (haligned : 16 ∣ stack) (cr3 entry : Nat) (argv : List CStr)
    (ctx : CpuContext)
    (args : Context.Mem) :
    let q := setupStack stack cr3 entry argv ctx
    ((Context.procSetupStack s i { p with ctx } stack entry q.arg1 q.arg2 cr3 args).procs i).map (·.ctx) = some q := by
  have htop : (align16 stack + procStackSize - 16) / 16 * 16 = Context.stackTop stack := by
    have hadd := Context.stackTop_add stack
    unfold Context.procStackSize at hadd
    rw [align16_eq haligned]
    unfold procStackSize
    omega
  simp only [Context.procSetupStack, Context.setProc, Function.update_self, Option.map_some, setupStack,
    if_neg hstack, htop]
  split <;> rfl

/-- `rip` apart, which is set for debugging only. -/
theorem enterUser_context (haligned : 16 ∣ stack) (sym : Symbols) (code : List Region) (argv : List CStr) (r : Rest)
    (entry userRsp : Nat) :
    let q := enterUser sym stack code argv r
    ((Context.procEnterUser s i
      { p with ctx := r.ctx } stack entry userRsp q.ctx.arg1 q.ctx.arg2 r.ctx.cr3).procs i).map
      (fun p => (p.ctx, p.userKstackTop)) = some ({ q.ctx with rip := r.ctx.rip }, q.userKstackTop) := by
  have hend : (align16 stack + procStackSize) / 16 * 16 = stack + procStackSize := by
    rw [align16_eq haligned]
    unfold procStackSize
    omega
  have hframe : (stack + procStackSize - 40) / 8 * 8 = Context.frameBase stack := by
    have hadd := Context.frameBase_add stack
    unfold Context.procStackSize at hadd
    unfold procStackSize
    omega
  simp only [Context.procEnterUser, Context.setProc, Function.update_self, Option.map_some, enterUser, hend, hframe]
  rfl

end

/-! ## The constructors -/

/-- What both constructors write before they allocate. -/
def beginUser (name : Option CStr) (rights : BitVec 64) (parent : Nat) (p : Rest) : Rest :=
  { p with
    name := nameOf name, rights := rights, state := .ready, parent := parent
    blockedOn := 0, ipcAvail := false, exitCode := 0, schedulerSeq := 0, waitPid := 0, waitCode := 0 }

/-- A call of a constructor. -/
inductive Creation
  | createArgv (name : Option CStr) (rights : BitVec 64) (argv : List CStr) (entry : Option Nat)
  | createUserArgs (name : Option CStr) (rights : BitVec 64) (userCode : Nat → BitVec 8) (userSize : Nat)
      (argv : List CStr) (zone : Nat → BitVec 8)
  | createUserRegions (name : Option CStr) (rights : BitVec 64) (img : Nat → BitVec 8) (regs : List Ureg)
      (argv : List CStr) (zone : Nat → BitVec 8)

/-- The memory that the call takes, and what it returns. -/
def Creation.memory (kernel : Nat) (room : Option Nat) (s : Sys) : Creation → Sys × Int
  | createArgv .. => Memory.createArgv kernel room s
  | createUserArgs _ _ userCode userSize _ zone => Memory.createUserArgs kernel room userCode userSize zone s
  | createUserRegions _ _ img regs _ zone => Memory.createUserRegions kernel room img regs zone s

/-- What the call writes to the slot, where `q` is what it wrote of the memory and `ok` whether it
succeeds. -/
def Creation.write (sym : Symbols) (parent : Nat) (q : Pcb) (ok : Bool) (p : Rest) : Creation → Rest
  | createArgv name rights argv entry =>
    { p with
      name := nameOf name, rights := rights, state := .ready, parent := 0
      blockedOn := 0, ipcAvail := false, exitCode := 0, schedulerSeq := 0, userKstackTop := 0, elf := []
      waitPid := 0, waitCode := 0
      ctx := setupStack q.stack q.cr3 (entry.getD sym.procCrashDummy) argv p.ctx }
  | createUserArgs name rights _ userSize argv _ =>
    let p := beginUser name rights parent { p with ctx := { p.ctx with cr3 := q.cr3 } }
    if ok then enterUser sym q.stack [region userVaddrBase (codePages userSize)] argv p else p
  | createUserRegions name rights _ regs argv _ =>
    if regs.length = 0 ∨ regs.length > 7 then p
    else
      let p := beginUser name rights parent { p with ctx := { p.ctx with cr3 := q.cr3 } }
      if ok then enterUser sym q.stack (regs.map Ureg.region) argv p else p

def create (sym : Symbols) (kernel : Nat) (room : Option Nat) (c : Creation) (t : Table) : Table × Int :=
  let (sys, r) := c.memory kernel room t.sys
  match findFree t.sys with
  | none => ({ t with sys }, r)
  | some idx =>
    let rest := c.write sym (creator t.sys) (sys.procs idx) (0 ≤ r) (t.rest idx)
    ({ sys, rest := Function.update t.rest idx rest }, r)

/-! ## Up to fresh addresses -/

@[ext] structure Process where
  mem : Pcb
  rest : Rest
  deriving DecidableEq, Repr

def Table.process (t : Table) (i : Nat) : Process := ⟨t.sys.procs i, t.rest i⟩

/-- The process without its pid and its address space, and with its kernel stack at 0. -/
def Process.rebase (p : Process) : Process where
  mem := { p.mem with pid := 0, stack := 0, cr3 := 0 }
  rest := { p.rest with
    ctx := { p.rest.ctx with
      cr3 := 0
      rsp := p.rest.ctx.rsp - align16 p.mem.stack
      arg2 := if p.mem.isUser then p.rest.ctx.arg2 else p.rest.ctx.arg2 - p.mem.stack }
    userKstackTop := p.rest.userKstackTop - align16 p.mem.stack }

/-- Two processes that differ only in their pids and in fresh addresses. -/
def Alike (p q : Process) : Prop := p.rebase = q.rebase

/-! ## What the constructors write of the memory -/

section

variable {kernel idx : Nat} {room : Option Nat} {s s' : Sys} {r : Int}

/-- A new process, with what is left of the slot's previous owner `old`. -/
def made (pid stack cr3 : Nat) (isUser : Bool) (umap : List Region) (old : Pcb) : Pcb :=
  { present := true, terminated := false, pid, stack, cr3, isUser, umap, umapHeap := none
    devioBase := old.devioBase, devioUsed := old.devioUsed }

theorem createArgv_made (hfree : findFree s = some idx) (h : Memory.createArgv kernel room s = (s', r))
    (hr : 0 ≤ r) : ∃ stack cr3, stack ≠ 0 ∧ s'.procs idx = made s.nextPid stack cr3 false [] (s.procs idx) := by
  simp only [Memory.createArgv, hfree] at h
  cases hk : kmalloc room { s with nextPid := s.nextPid + 1 } with
  | mk s₁ stack =>
    simp only [hk] at h
    split at h
    next hstack =>
      obtain ⟨-, rfl⟩ := Prod.mk.inj h
      exact absurd hr (by decide)
    next hstack =>
      obtain ⟨rfl, -⟩ := Prod.mk.inj h
      exact ⟨stack, _, hstack, if_pos rfl⟩

theorem enterUser_made {pm : Nat} {code : List Region} {zone : Nat → BitVec 8} {p p' : Pcb} {m m' : Paging.Vm}
    (h : Memory.enterUser pm code zone p m = (m', some p')) :
    p' = { p with isUser := true, umap := code ++ [userStack code], umapHeap := none } := by
  simp only [Memory.enterUser] at h
  split at h
  next hstack => simp at h
  next hstack =>
    obtain ⟨-, h⟩ := Prod.mk.inj h
    exact (Option.some.inj h).symm

theorem createUserArgs_made {userCode zone : Nat → BitVec 8} {userSize : Nat} (hfree : findFree s = some idx)
    (h : Memory.createUserArgs kernel room userCode userSize zone s = (s', r)) (hr : 0 ≤ r) :
    ∃ stack cr3, s'.procs idx = made s.nextPid stack cr3 true (argsUmap userSize) (s.procs idx) := by
  simp only [Memory.createUserArgs, hfree] at h
  cases hk : kmalloc room { s with nextPid := s.nextPid + 1 } with
  | mk s₁ stack =>
    simp only [hk] at h
    split at h
    next hstack =>
      obtain ⟨-, rfl⟩ := Prod.mk.inj h
      exact absurd hr (by decide)
    next hstack =>
      split at h
      next hpm =>
        obtain ⟨-, rfl⟩ := Prod.mk.inj h
        exact absurd hr (by decide)
      next hpm =>
        have hpages : (if (userSize + 0xFFF) / 0x1000 = 0 ∨ (userSize + 0xFFF) / 0x1000 > 512 then 512
            else (userSize + 0xFFF) / 0x1000) = codePages userSize := rfl
        simp only [hpages] at h
        split at h
        next hcode =>
          obtain ⟨-, rfl⟩ := Prod.mk.inj h
          exact absurd hr (by decide)
        next hcode =>
          split at h
          next vm henter =>
            obtain ⟨-, rfl⟩ := Prod.mk.inj h
            exact absurd hr (by decide)
          next vm p' henter =>
            obtain ⟨rfl, -⟩ := Prod.mk.inj h
            rw [enterUser_made henter]
            exact ⟨stack, _, if_pos rfl⟩

theorem loadRegions_error {pm : Nat} {img : Nat → BitVec 8} {regs : List Ureg} {code : List Region} {e : Int}
    {m m' : Paging.Vm} (h : loadRegions pm img regs code m = (m', .error e)) : e < 0 := by
  induction regs generalizing code m with
  | nil => simp [loadRegions] at h
  | cons g rest ih =>
    simp only [loadRegions] at h
    split at h
    next hbase =>
      obtain ⟨-, h⟩ := Prod.mk.inj h
      rw [← Except.error.inj h]
      decide
    next hbase =>
      split at h
      next hphys =>
        obtain ⟨-, h⟩ := Prod.mk.inj h
        rw [← Except.error.inj h]
        decide
      next hphys => exact ih h

theorem loadRegions_code {pm : Nat} {img : Nat → BitVec 8} {regs : List Ureg} {code code' : List Region}
    {m m' : Paging.Vm} (h : loadRegions pm img regs code m = (m', .ok code')) :
    code' = code ++ regs.map Ureg.region := by
  induction regs generalizing code m with
  | nil =>
    obtain ⟨-, h⟩ := Prod.mk.inj h
    simpa using (Except.ok.inj h).symm
  | cons g rest ih =>
    simp only [loadRegions] at h
    split at h
    next hbase => simp at h
    next hbase =>
      split at h
      next hphys => simp at h
      next hphys => exact (ih h).trans (by simp [Ureg.region, region])

theorem createUserRegions_made {img zone : Nat → BitVec 8} {regs : List Ureg} (hfree : findFree s = some idx)
    (h : Memory.createUserRegions kernel room img regs zone s = (s', r)) (hr : 0 ≤ r) :
    ¬(regs.length = 0 ∨ regs.length > 7) ∧
      ∃ stack cr3, s'.procs idx = made s.nextPid stack cr3 true (regionsUmap regs) (s.procs idx) := by
  simp only [Memory.createUserRegions, hfree] at h
  split at h
  next hregs =>
    obtain ⟨-, rfl⟩ := Prod.mk.inj h
    exact absurd hr (by decide)
  next hregs =>
    refine ⟨hregs, ?_⟩
    cases hk : kmalloc room { s with nextPid := s.nextPid + 1 } with
    | mk s₁ stack =>
      simp only [hk] at h
      split at h
      next hstack =>
        obtain ⟨-, rfl⟩ := Prod.mk.inj h
        exact absurd hr (by decide)
      next hstack =>
        split at h
        next hpm =>
          obtain ⟨-, rfl⟩ := Prod.mk.inj h
          exact absurd hr (by decide)
        next hpm =>
          split at h
          next vm e hload =>
            obtain ⟨-, rfl⟩ := Prod.mk.inj h
            exact absurd hr (Int.not_le.mpr (loadRegions_error hload))
          next vm code hload =>
            split at h
            next vm' henter =>
              obtain ⟨-, rfl⟩ := Prod.mk.inj h
              exact absurd hr (by decide)
            next vm' p' henter =>
              obtain ⟨rfl, -⟩ := Prod.mk.inj h
              rw [enterUser_made henter, loadRegions_code hload]
              exact ⟨stack, _, if_pos rfl⟩

end

/-! ## Two histories of a slot -/

def Creation.isUser : Creation → Bool
  | createArgv .. => false
  | createUserArgs .. => true
  | createUserRegions .. => true

def Creation.umap : Creation → List Region
  | createArgv .. => []
  | createUserArgs _ _ _ userSize _ _ => argsUmap userSize
  | createUserRegions _ _ _ regs _ _ => regionsUmap regs

theorem process_create {sym : Symbols} {kernel idx : Nat} {room : Option Nat} {c : Creation} {t : Table}
    (hfree : findFree t.sys = some idx) (hr : 0 ≤ (create sym kernel room c t).2) :
    ∃ stack cr3, (c.isUser = false → stack ≠ 0) ∧
      (∀ name rights img regs argv zone, c = .createUserRegions name rights img regs argv zone →
        ¬(regs.length = 0 ∨ regs.length > 7)) ∧
      (create sym kernel room c t).1.process idx =
        ⟨made t.sys.nextPid stack cr3 c.isUser c.umap (t.sys.procs idx),
          c.write sym (creator t.sys) (made t.sys.nextPid stack cr3 c.isUser c.umap (t.sys.procs idx)) true
            (t.rest idx)⟩ := by
  unfold create at hr ⊢
  cases hm : c.memory kernel room t.sys with
  | mk sys r =>
    simp only [hm, hfree] at hr ⊢
    have hok : decide (0 ≤ r) = true := decide_eq_true hr
    simp only [Table.process, Function.update_self, hok]
    cases c with
    | createArgv name rights argv entry =>
      obtain ⟨stack, cr3, hstack, hmade⟩ := createArgv_made hfree hm hr
      exact ⟨stack, cr3, fun _ => hstack, by simp, by rw [hmade]; rfl⟩
    | createUserArgs name rights userCode userSize argv zone =>
      obtain ⟨stack, cr3, hmade⟩ := createUserArgs_made hfree hm hr
      exact ⟨stack, cr3, by simp [Creation.isUser], by simp, by rw [hmade]; rfl⟩
    | createUserRegions name rights img regs argv zone =>
      obtain ⟨hregs, stack, cr3, hmade⟩ := createUserRegions_made hfree hm hr
      refine ⟨stack, cr3, by simp [Creation.isUser], ?_, by rw [hmade]; rfl⟩
      intro _ _ _ _ _ _ heq
      cases heq
      exact hregs

theorem align16_mul (n : Nat) : ∃ q, align16 n = 16 * q := ⟨(n + 15) / 16, by rw [align16, Nat.mul_comm]⟩

theorem stack_offsets (n : Nat) :
    (align16 n + procStackSize - 16) / 16 * 16 - align16 n = 16368 ∧
    (align16 n + procStackSize) / 16 * 16 - align16 n = 16384 ∧
    ((align16 n + procStackSize) / 16 * 16 - 40) / 8 * 8 - 8 - align16 n = 16336 := by
  obtain ⟨q, hq⟩ := align16_mul n
  rw [hq, procStackSize]
  omega

theorem setupStack_eq {stack : Nat} (h : stack ≠ 0) (cr3 entry : Nat) (argv : List CStr) (ctx : CpuContext) :
    setupStack stack cr3 entry argv ctx =
      { r15 := 0, r14 := 0, r13 := 0, r12 := 0, r11 := 0, r10 := 0, r9 := 0, r8 := 0, rbp := 0, rbx := 0
        rip := entry, rsp := (align16 stack + procStackSize - 16) / 16 * 16, cr3 := cr3
        arg1 := if (argv.take 64).length > 0 then
            argvUsed (procStackSize - 4096) (((argv.take 64).length + 1) * 8) (argv.take 64)
          else 0
        arg2 := if (argv.take 64).length > 0 then stack else 0
        ran := 0, style := 0, hwRsp := 0 } := by
  unfold setupStack
  rw [if_neg h]
  by_cases hargv : (argv.take 64).length > 0
  · simp only [if_pos hargv]
  · simp only [if_neg hargv]

theorem rest_rebase (sym : Symbols) {c : Creation} (parent pid pid' : Nat) {stack stack' : Nat} (cr3 cr3' : Nat)
    (hregs : ∀ name rights img regs argv zone, c = .createUserRegions name rights img regs argv zone →
      ¬(regs.length = 0 ∨ regs.length > 7))
    (hstack : c.isUser = false → stack ≠ 0) (hstack' : c.isUser = false → stack' ≠ 0)
    (old old' : Pcb) (p p' : Rest) :
    (Process.rebase ⟨made pid stack cr3 c.isUser c.umap old,
      c.write sym parent (made pid stack cr3 c.isUser c.umap old) true p⟩).rest =
    (Process.rebase ⟨made pid' stack' cr3' c.isUser c.umap old',
      c.write sym parent (made pid' stack' cr3' c.isUser c.umap old') true p'⟩).rest := by
  obtain ⟨htop, hkend, hframe⟩ := stack_offsets stack
  obtain ⟨htop', hkend', hframe'⟩ := stack_offsets stack'
  cases c with
  | createArgv name rights argv entry =>
    have hne := hstack rfl
    have hne' := hstack' rfl
    simp only [Process.rebase, Creation.write, made, Creation.isUser, setupStack_eq hne, setupStack_eq hne', htop,
      htop']
    split
    · simp
    · simp
  | createUserArgs name rights userCode userSize argv zone =>
    simp [Process.rebase, Creation.write, made, Creation.isUser, enterUser, beginUser, hkend, hkend', hframe, hframe']
  | createUserRegions name rights img regs argv zone =>
    have hregs := hregs _ _ _ _ _ _ rfl
    simp only [Process.rebase, Creation.write, made, Creation.isUser, if_neg hregs]
    simp [enterUser, beginUser, hkend, hkend', hframe, hframe']

/-- The device fields that a slot's previous owners left. -/
def devio (t : Table) (i : Nat) : BitVec 64 × BitVec 64 := ((t.sys.procs i).devioBase, (t.sys.procs i).devioUsed)

theorem slot_forgotten_iff {sym : Symbols} {kernel idx idx' : Nat} {room room' : Option Nat} {c : Creation}
    {t t' : Table} (hcreator : creator t.sys = creator t'.sys)
    (hfree : findFree t.sys = some idx) (hr : 0 ≤ (create sym kernel room c t).2)
    (hfree' : findFree t'.sys = some idx') (hr' : 0 ≤ (create sym kernel room' c t').2) :
    Alike ((create sym kernel room c t).1.process idx) ((create sym kernel room' c t').1.process idx') ↔
      devio t idx = devio t' idx' := by
  obtain ⟨stack, cr3, hstack, hregs, hmade⟩ := process_create hfree hr
  obtain ⟨stack', cr3', hstack', -, hmade'⟩ := process_create hfree' hr'
  rw [Alike, hmade, hmade', ← hcreator]
  have hrest := rest_rebase sym (creator t.sys) t.sys.nextPid t'.sys.nextPid cr3 cr3' hregs hstack hstack'
    (t.sys.procs idx) (t'.sys.procs idx') (t.rest idx) (t'.rest idx')
  constructor
  · intro halike
    have hmem := congrArg Process.mem halike
    simp only [Process.rebase, made, Pcb.mk.injEq, true_and] at hmem
    exact Prod.ext hmem.1 hmem.2
  · intro hdevio
    have hpair := Prod.mk.inj hdevio
    refine Process.ext ?_ hrest
    simp only [Process.rebase, made, hpair.1, hpair.2]

/-! ## A driver's slot -/

def noRest : Rest :=
  ⟨[], 0, .created, ⟨0, 0, 0, 0, 0, 0, 0, 0, 0, 0, 0, 0, 0, 0, 0, 0, 0, 0⟩, 0, 0, false, 0, 0, 0, [], 0, 0⟩

/-- A user process and one of ring 0. The first may map device memory, and then ends. -/
def owned (calls : List Op) : List Op :=
  [.createUserArgs (some 0x200020) (fun _ => 0) 0x1000 (fun _ => 0), .createArgv (some 0x204020), .start 0] ++ calls ++
    [.exit 1]

def history (calls : List Op) : Table := ⟨(owned calls).foldl (apply 1) (freshSys 32), fun _ => noRest⟩

def heir : Creation := .createArgv none 0 [] none

theorem slot_forgotten_plain :
    Alike ((create ⟨1, 2⟩ 1 (some 0x208020) heir (history [])).1.process 0)
        ((create ⟨1, 2⟩ 1 (some 0x20C020) heir (history [.mmap 1])).1.process 0) ↔
      devio (history []) 0 = devio (history [.mmap 1]) 0 :=
  slot_forgotten_iff (by decide +kernel) (by decide +kernel) (by decide +kernel) (by decide +kernel) (by decide +kernel)

theorem slot_remembered :
    ¬∀ (sym : Symbols) (kernel total idx idx' : Nat) (ops ops' : List Op) (room room' : Option Nat) (c : Creation)
        (t t' : Table),
      Run (Step kernel) (freshSys total) ops t.sys → Run (Step kernel) (freshSys total) ops' t'.sys →
      creator t.sys = creator t'.sys → findFree t.sys = some idx → findFree t'.sys = some idx' →
      0 ≤ (create sym kernel room c t).2 → 0 ≤ (create sym kernel room' c t').2 →
      Alike ((create sym kernel room c t).1.process idx) ((create sym kernel room' c t').1.process idx') := by
  intro h
  have hrun : ∀ calls, Admits Allowed (apply 1) (freshSys 32) (owned calls) →
      Run (Step 1) (freshSys 32) (owned calls) (history calls).sys := by
    intro calls hadmits
    have hrun := Run.of_admits hadmits
    simpa only [history] using hrun
  have hplain := hrun [] (by decide +kernel)
  have hdriver := hrun [.devMap 0xC0000000 0x1000] (by decide +kernel)
  have halike := h ⟨1, 2⟩ 1 32 0 0 _ _ (some 0x208020) (some 0x208020) heir _ _ hplain hdriver
    (by decide +kernel) (by decide +kernel) (by decide +kernel) (by decide +kernel) (by decide +kernel)
  have hused := congrArg (fun p => p.mem.devioUsed) halike
  revert hused
  decide +kernel

end Siathos.Proc.Recycle
