import Siathos.Context.Machine
import Siathos.Lib.Run

/-!
# The scheduler (`proc.c`)

The process table, `sched_yield`, `sched_block`, `sched_preempt_pick` and `proc_exit`. Ghost
state records where each process was parked and what every resume found.
-/

open Lib Lib.Span

namespace Siathos.Context

def maxProcs : Nat := 64

def procStackSize : Nat := 16 * 1024

inductive ProcState
  | ready
  | running
  | blocked
  | terminated
  deriving DecidableEq, Repr

/-- Where a process stands. This is ghost state. -/
inductive Park
  /-- `proc_create` has not set up its context yet. -/
  | unbuilt
  /-- It never ran. -/
  | entry (rip argc argv : Nat)
  /-- It called `context_switch`: the registers just after that call returns. -/
  | call (c : Cpu)
  /-- An interrupt stopped it: the registers at that point. -/
  | irq (c : Cpu)
  | running
  deriving DecidableEq, Repr

/-- The fields of `process_t` that the scheduler reads. `park` and `serial` are ghost state. -/
structure Proc where
  state : ProcState
  stack : Span
  ctx : CpuContext
  isUser : Bool
  userKstackTop : Nat
  park : Park
  serial : Nat
  deriving DecidableEq, Repr

/-- A resume: who it was, where it was parked, and the registers it went on with. -/
structure Resume where
  serial : Nat
  park : Park
  cpu : Cpu
  deriving DecidableEq, Repr

structure Sys where
  cpu : Cpu
  mem : Mem
  procs : Nat → Option Proc
  /-- `current_proc`, which is null before `sched_run_first`. -/
  current : Option Nat
  currentIndex : Nat
  schedulerRunning : Bool
  tssRsp0 : Nat
  /-- The address of `user_trampoline`. -/
  userTrampoline : Nat
  /-- In `proc_exit`, `current_proc` is the next process and `cli` did not run yet. -/
  exiting : Bool
  born : Nat
  log : List Resume

/-! ## The process table -/

def isReady (procs : Nat → Option Proc) (i : Nat) : Bool :=
  (procs i).any (fun p => p.state = .ready)

/-- `next_ready_from`. -/
def nextReadyFrom (procs : Nat → Option Proc) (start : Nat) : Option Nat :=
  ((List.range maxProcs).map (fun c => (start + c) % maxProcs)).find? (isReady procs)

/-- A slot that `find_free` may return. -/
def isFree (procs : Nat → Option Proc) (i : Nat) : Bool :=
  (procs i).all (fun p => p.state = .terminated)

def findFree (procs : Nat → Option Proc) : Option Nat :=
  (List.range maxProcs).find? (isFree procs)

/-- `proc_gc_run`. -/
def procGcRun (procs : Nat → Option Proc) : Nat → Option Proc := fun i =>
  (procs i).filter (fun p => p.state ≠ .terminated)

/-- The state after `proc_gc_run`. -/
def Sys.gc (s : Sys) : Sys := { s with procs := procGcRun s.procs }

def setProc (procs : Nat → Option Proc) (i : Nat) (p : Proc) : Nat → Option Proc :=
  Function.update procs i (some p)

def setState (procs : Nat → Option Proc) (i : Nat) (st : ProcState) : Nat → Option Proc :=
  Function.update procs i ((procs i).map fun p => { p with state := st })

/-! ## Resuming a process -/

/-- Where the `ret` of a first entry leads to `user_trampoline`, the process goes on through it. -/
def settle (s : Sys) (dst : Proc) (c : Cpu) : Cpu :=
  if dst.ctx.ran = 0 ∧ c.rip = s.userTrampoline then enterUser s.mem c else c

/-- `sched_prep`. -/
def schedPrep (s : Sys) (dst : Proc) : Sys :=
  if dst.isUser && decide (dst.userKstackTop ≠ 0) then { s with tssRsp0 := dst.userKstackTop } else s

/-- The process `dst` of slot `i` becomes the current one, and the assembly `switch` resumes it. -/
def resume (s : Sys) (i : Nat) (dst : Proc)
    (switch : Mem → Cpu → CpuContext → Cpu × CpuContext) : Sys :=
  let r := switch s.mem s.cpu dst.ctx
  { s with
    cpu := settle s dst r.1
    procs := setProc s.procs i { dst with state := .running, ctx := r.2, park := .running }
    current := some i
    currentIndex := i
    log := ⟨dst.serial, dst.park, settle s dst r.1⟩ :: s.log }

/-- `sched_switch` up to its return in the other process. -/
def schedSwitch (s : Sys) (i j : Nat) (src dst : Proc) : Sys :=
  let c := s.cpu.cli
  let src := { src with ctx := saveContext s.mem c src.ctx, park := .call (ret s.mem c) }
  resume (schedPrep { s with cpu := c, procs := setProc s.procs i src } dst) j dst restoreContext

/-- `sched_yield`. -/
def schedYield (s : Sys) : Sys :=
  let s := s.gc
  if !s.schedulerRunning then s
  else match s.current with
    | none =>
      match nextReadyFrom s.procs (s.currentIndex + 1) with
      | none => s
      | some j =>
        match s.procs j with
        | none => s
        | some dst => resume (schedPrep { s with cpu := s.cpu.cli } dst) j dst contextSwitchFirst
    | some i =>
      match s.procs i with
      | none => s
      | some src =>
        let src := { src with state := if src.state = .running then .ready else src.state }
        let s := { s with procs := setProc s.procs i src }
        match nextReadyFrom s.procs (s.currentIndex + 1) with
        | none => { s with procs := setProc s.procs i { src with state := .running } }
        | some j =>
          if j = i then { s with procs := setProc s.procs i { src with state := .running } }
          else match s.procs j with
            | none => s
            | some dst => schedSwitch s i j { src with state := .ready } dst

/-- `sched_block`. -/
def schedBlock (s : Sys) : Sys :=
  match s.current with
  | none => s
  | some i =>
    match s.procs i with
    | none => s
    | some src =>
      let src := { src with state := .blocked }
      let s := { s with procs := setProc s.procs i src }
      match nextReadyFrom s.procs (s.currentIndex + 1) with
      | none => { s with procs := setProc s.procs i { src with state := .running } }
      | some j =>
        match s.procs j with
        | none => s
        | some dst => schedSwitch s i j src dst

/-- `sched_wakeup` of the process in slot `i`. -/
def schedWakeup (s : Sys) (i : Nat) : Sys :=
  match s.procs i with
  | none => s
  | some p =>
    if p.state = .blocked then { s with procs := setProc s.procs i { p with state := .ready } } else s

/-- The slot of the process that `sched_preempt_pick` returns, and the table it leaves. -/
def schedPreemptPick (s : Sys) : Option (Nat × Nat) × (Nat → Option Proc) :=
  let procs := procGcRun s.procs
  match s.current with
  | none => (none, procs)
  | some i =>
    if !s.schedulerRunning || !(procs i).any (fun p => p.state = .running) then (none, procs)
    else
      let ready := setState procs i .ready
      match nextReadyFrom ready (s.currentIndex + 1) with
      | none => (none, procs)
      | some j => if j = s.currentIndex then (none, procs) else (some (i, j), ready)

/-- `irq_common_handler` for the timer. -/
def irqCommonHandler (s : Sys) : Option (Nat × Nat) × (Nat → Option Proc) :=
  if (s.current.bind s.procs).any (fun p => p.state = .running) && s.schedulerRunning then
    schedPreemptPick s
  else (none, s.procs)

/-- `isr_common_stub` after its call of the handler, which left `regs` in the registers that a call
may change. The frame starts at `base`. -/
def isrCommonStub (s : Sys) (base : Nat) (regs : Gprs) :
    Option (Nat × Nat) × (Nat → Option Proc) → Sys
  | (none, procs) =>
    { s with
      procs
      cpu := popFrame s.mem base
        { s.cpu.cli with gprs := afterCall regs s.cpu.gprs, rsp := base } }
  | (some (i, j), procs) =>
    match procs i, procs j with
    | some src, some dst =>
      let src := { src with ctx := parkIrq base s.cpu src.ctx, park := .irq s.cpu }
      let c := { s.cpu.cli with gprs := afterCall regs s.cpu.gprs, rsp := base }
      resume (schedPrep { s with cpu := c, procs := setProc procs i src } dst) j dst isrSwitch
    | _, _ => { s with procs }

/-- The timer interrupt, up to the `iretq` or `ret` of the stub. `scratch` are the words below the
frame when the C handlers return. -/
def timerIrq (s : Sys) (scratch : Mem) (regs : Gprs) : Sys :=
  let (mem, base) := isrEntry s.tssRsp0 s.mem s.cpu
  let s := { s with mem := fun a => if a < base then scratch a else mem a }
  isrCommonStub s base regs (irqCommonHandler s)

/-- `sched_run_first`. -/
def schedRunFirst (s : Sys) : Sys :=
  let s := { s with schedulerRunning := true }
  match nextReadyFrom s.procs 0 with
  | none => s
  | some j =>
    match s.procs j with
    | none => s
    | some dst => resume (schedPrep { s with cpu := s.cpu.cli } dst) j dst contextSwitchFirst

/-! ## proc_exit -/

/-- `proc_exit` up to its `cli`. Nothing where it halts. The wakeup of the parent is a step of its own. -/
def procExit (s : Sys) : Option Sys := do
  let i ← s.current
  let procs := setState s.procs i .terminated
  let j ← nextReadyFrom procs (s.currentIndex + 1)
  let dst ← procs j
  let dst := { dst with state := .running }
  pure (schedPrep { s with
    procs := setProc procs j dst
    current := some j
    currentIndex := j
    exiting := true } dst)

/-- The rest of `proc_exit`. -/
def procExitSwitch (s : Sys) : Option Sys := do
  let j ← s.current
  let dst ← s.procs j
  pure (resume { s with cpu := s.cpu.cli, exiting := false } j dst contextSwitchFirst)

/-! ## Creating a process -/

/-- The start of `proc_create_argv` and of `proc_create_user_regions`: the slot is READY, and the
rest is what its last owner left. -/
def procCreateBegin (s : Sys) (stale : Proc) : Option Sys := do
  let i ← findFree s.procs
  pure { s with procs := setProc s.procs i { stale with state := .ready, park := .unbuilt } }

/-- `top` of `proc_setup_stack`, for an aligned stack. -/
@[irreducible] def stackTop (stack : Nat) : Nat := stack + procStackSize - 16

theorem stackTop_add (stack : Nat) : stackTop stack + 16 = stack + procStackSize := by
  unfold stackTop procStackSize
  omega

/-- The stack of a new kernel process: `args` at its low end, and the entry at its top. -/
def setupMem (mem : Mem) (stack entry : Nat) (args : Mem) : Mem :=
  Function.update
    (fun a => if stack ≤ a ∧ a < stack + procStackSize - 4096 then args a else mem a)
    (stackTop stack) entry

/-- `proc_setup_stack`. -/
def procSetupStack (s : Sys) (i : Nat) (p : Proc) (stack entry argc argv cr3 : Nat) (args : Mem) : Sys :=
  let ctx := { p.ctx with
    rbp := 0
    rbx := 0
    r12 := 0
    r13 := 0
    r14 := 0
    r15 := 0
    r8 := 0
    r9 := 0
    r10 := 0
    r11 := 0
    rsp := stackTop stack
    rip := entry
    arg1 := argc
    arg2 := argv
    cr3 := cr3
    ran := 0
    style := 0
    hwRsp := 0 }
  { s with
    mem := setupMem s.mem stack entry args
    procs := setProc s.procs i { p with
      stack := ⟨stack, procStackSize⟩
      ctx
      isUser := false
      userKstackTop := 0
      park := .entry entry argc argv
      serial := s.born }
    born := s.born + 1 }

/-- `frame_base` of `proc_enter_user`. -/
@[irreducible] def frameBase (stack : Nat) : Nat := stack + procStackSize - 40

theorem frameBase_add (stack : Nat) : frameBase stack + 40 = stack + procStackSize := by
  unfold frameBase procStackSize
  omega

/-- The frame for `iretq`, and below it `user_trampoline`, `argv` and `argc`. -/
def userFrameMem (mem : Mem) (frame entry userRsp trampoline argc argv : Nat) : Mem :=
  let mem := store mem frame [entry, 0x1B, 0x202, userRsp, 0x23]
  let mem := Function.update mem (frame - 8) trampoline
  let mem := Function.update mem (frame - 24) argc
  Function.update mem (frame - 16) argv

/-- `proc_enter_user`, the part that sets up the kernel stack. -/
def procEnterUser (s : Sys) (i : Nat) (p : Proc) (stack entry userRsp argc argv cr3 : Nat) : Sys :=
  let ctx := { p.ctx with
    rsp := frameBase stack - 8
    rbp := 0
    rbx := 0
    r12 := 0
    r13 := 0
    r14 := 0
    r15 := 0
    r8 := 0
    r9 := 0
    r10 := 0
    r11 := 0
    arg1 := argc
    arg2 := argv
    cr3 := cr3
    style := 0
    hwRsp := 0
    ran := 0 }
  { s with
    mem := userFrameMem s.mem (frameBase stack) entry userRsp s.userTrampoline argc argv
    procs := setProc s.procs i { p with
      stack := ⟨stack, procStackSize⟩
      ctx
      isUser := true
      userKstackTop := stack + procStackSize
      park := .entry entry argc argv
      serial := s.born }
    born := s.born + 1 }

/-! ## Steps -/

inductive Op
  /-- Code of the current process, or of the boot. -/
  | run (cpu : Cpu) (mem : Mem)
  | createBegin (stale : Proc)
  | createFail (i : Nat)
  | createKernel (i stack entry argc argv cr3 : Nat) (args : Mem)
  | createUser (i stack entry userRsp argc argv cr3 : Nat)
  | runFirst
  | wakeup (i : Nat)
  | yield
  | block
  | timer (scratch : Mem) (regs : Gprs)
  | exit
  | exitSwitch

/-- Its stack holds what a resume needs. -/
def Proc.Built (p : Proc) : Prop := p.state ≠ .terminated ∧ p.park ≠ .unbuilt

/-- It has to be resumed before it runs on. -/
def Parked (s : Sys) (i : Nat) (p : Proc) : Prop :=
  s.procs i = some p ∧ p.Built ∧ (s.current ≠ some i ∨ s.exiting = true)

/-- The memory `mem` has the stacks of the parked processes as they are. -/
def KeepsStacks (s : Sys) (mem : Mem) : Prop :=
  ∀ i p, Parked s i p → ∀ a ∈ p.stack, mem a = s.mem a

/-- `kmalloc(PROC_STACK_SIZE)` answers an aligned block that is no stack of another process. -/
def FreshStack (s : Sys) (stack : Nat) : Prop :=
  stack % 16 = 0 ∧
    ∀ i p, s.procs i = some p → p.Built → Apart ⟨stack, procStackSize⟩ p.stack

/-- The process calls `context_switch` on its own stack. -/
def OnOwnStack (s : Sys) : Prop :=
  ∀ i p, s.current = some i → s.procs i = some p → Within ⟨s.cpu.rsp, 8⟩ p.stack

/-- There is room for the frame of an interrupt: on the own stack, and in `proc_exit` on the stack
of the process that ends. -/
def RoomForFrame (s : Sys) : Prop :=
  192 ≤ isrTop s.tssRsp0 s.cpu ∧
    (s.exiting = true → s.cpu.cs % 4 ≠ 3 ∧
      ∀ i p, Parked s i p → Apart ⟨s.cpu.rsp - 192, 192⟩ p.stack) ∧
    (s.exiting = false → ∀ i p, s.current = some i → s.procs i = some p →
      (s.cpu.cs % 4 = 3 → p.isUser = true) ∧
      (s.cpu.cs % 4 ≠ 3 → Within ⟨s.cpu.rsp - 192, 192⟩ p.stack))

/-- What code, compiler and allocator guarantee at a step. -/
def Allowed (s : Sys) : Op → Prop
  | .run cpu mem => s.exiting = false ∧ cpu.cr3 = s.cpu.cr3 ∧ KeepsStacks s mem
  | .createBegin _ => s.exiting = false
  | .createFail i => s.exiting = false ∧ ∃ p, s.procs i = some p ∧ p.park = .unbuilt
  | .createKernel i stack entry _ _ _ _ =>
    s.exiting = false ∧ (∃ p, s.procs i = some p ∧ p.park = .unbuilt) ∧ FreshStack s stack ∧
      entry ≠ s.userTrampoline
  | .createUser i stack _ _ _ _ _ =>
    s.exiting = false ∧ (∃ p, s.procs i = some p ∧ p.park = .unbuilt) ∧ FreshStack s stack
  | .runFirst => s.current = none ∧ s.exiting = false
  | .wakeup _ => True
  | .yield => s.exiting = false ∧ OnOwnStack s
  | .block => s.exiting = false ∧ OnOwnStack s
  | .timer scratch _ =>
    s.current ≠ none ∧ flagsIf s.cpu.rflags = true ∧ RoomForFrame s ∧ KeepsStacks s scratch
  | .exit => s.exiting = false
  | .exitSwitch => s.exiting = true

def apply (s : Sys) : Op → Option Sys
  | .run cpu mem => some { s with cpu, mem }
  | .createBegin stale => procCreateBegin s stale
  | .createFail i => some { s with procs := Function.update s.procs i none }
  | .createKernel i stack entry argc argv cr3 args =>
    (s.procs i).map fun p => procSetupStack s i p stack entry argc argv cr3 args
  | .createUser i stack entry userRsp argc argv cr3 =>
    (s.procs i).map fun p => procEnterUser s i p stack entry userRsp argc argv cr3
  | .runFirst => some (schedRunFirst s)
  | .wakeup i => some (schedWakeup s i)
  | .yield => some (schedYield s)
  | .block => some (schedBlock s)
  | .timer scratch regs => some (timerIrq s scratch regs)
  | .exit => procExit s
  | .exitSwitch => procExitSwitch s

def Step (s : Sys) (o : Op) (t : Sys) : Prop := Allowed s o ∧ apply s o = some t

/-- The kernel before `sched_run_first`, with an empty table. -/
def boot (userTrampoline : Nat) (cpu : Cpu) (mem : Mem) : Sys where
  cpu := cpu
  mem := mem
  procs := fun _ => none
  current := none
  currentIndex := 0
  schedulerRunning := false
  tssRsp0 := 0
  userTrampoline := userTrampoline
  exiting := false
  born := 0
  log := []

/-! ## What a resume owes the process -/

/-- A process that was parked so goes on with the registers `c`. -/
def Continues : Park → Cpu → Prop
  | .unbuilt, _ => False
  | .entry rip argc argv, c => c.rip = rip ∧ c.gprs.rdi = argc ∧ c.gprs.rsi = argv
  | .call d, c => c.rip = d.rip ∧ c.rsp = d.rsp ∧ c.cr3 = d.cr3 ∧ c.gprs.saved = d.gprs.saved
  | .irq d, c => c = d
  | .running, _ => False

def Park.isEntry : Park → Bool
  | .entry _ _ _ => true
  | _ => false

/-- Every resume so far went on where the process was parked, and none entered a process twice. -/
structure Preserved (s : Sys) : Prop where
  continues : ∀ r ∈ s.log, Continues r.park r.cpu
  once : ((s.log.filter (fun r => r.park.isEntry)).map (·.serial)).Nodup

end Siathos.Context
