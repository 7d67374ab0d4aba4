import Siathos.Lib.Stack

/-!
# Registers and context switches (`ctxswitch.asm`, `usermode.asm`, `idt.asm`)

The assembly that saves and restores a process. The memory holds the kernel stacks as 8-byte
words. A `cpu_context_t` is a record, and its fields stand in the order of the source.
-/

open Lib

namespace Siathos.Context

abbrev Mem := Nat → Nat

/-- The 15 general registers, in the order in which the ISR stub leaves them on the stack. -/
structure Gprs where
  rdi : Nat
  rsi : Nat
  rcx : Nat
  rdx : Nat
  rbx : Nat
  rbp : Nat
  r8 : Nat
  r9 : Nat
  r10 : Nat
  r11 : Nat
  r12 : Nat
  r13 : Nat
  r14 : Nat
  r15 : Nat
  rax : Nat
  deriving DecidableEq, Repr

/-- The registers that a C function keeps for its caller. -/
structure Saved where
  rbx : Nat
  rbp : Nat
  r12 : Nat
  r13 : Nat
  r14 : Nat
  r15 : Nat
  deriving DecidableEq, Repr

def Gprs.saved (g : Gprs) : Saved := ⟨g.rbx, g.rbp, g.r12, g.r13, g.r14, g.r15⟩

structure Cpu where
  gprs : Gprs
  rsp : Nat
  rip : Nat
  rflags : Nat
  cs : Nat
  ss : Nat
  cr3 : Nat
  deriving DecidableEq, Repr

/-- `cpu_context_t`. -/
structure CpuContext where
  r15 : Nat
  r14 : Nat
  r13 : Nat
  r12 : Nat
  r11 : Nat
  r10 : Nat
  r9 : Nat
  r8 : Nat
  rbp : Nat
  rbx : Nat
  rip : Nat
  rsp : Nat
  cr3 : Nat
  arg1 : Nat
  arg2 : Nat
  ran : Nat
  style : Nat
  hwRsp : Nat
  deriving DecidableEq, Repr

def CpuContext.saved (x : CpuContext) : Saved := ⟨x.rbx, x.rbp, x.r12, x.r13, x.r14, x.r15⟩

/-- Bit 9 of RFLAGS. -/
def flagsIf (rflags : Nat) : Bool := rflags / 512 % 2 = 1

def Cpu.cli (c : Cpu) : Cpu := { c with rflags := if flagsIf c.rflags then c.rflags - 512 else c.rflags }

def ret (mem : Mem) (c : Cpu) : Cpu := { c with rip := mem c.rsp, rsp := c.rsp + 8 }

/-- Pops RIP, CS, RFLAGS, RSP and SS. -/
def iretq (mem : Mem) (c : Cpu) : Cpu :=
  { c with
    rip := mem c.rsp
    cs := mem (c.rsp + 8)
    rflags := mem (c.rsp + 16)
    rsp := mem (c.rsp + 24)
    ss := mem (c.rsp + 32) }

/-- `test rax, rax; jz .no_cr3; mov cr3, rax`. -/
def loadCr3 (v : Nat) (c : Cpu) : Cpu := if v = 0 then c else { c with cr3 := v }

/-- `pop rdi` to `pop rax`, with `rsp` at `base`. -/
def popGprs (mem : Mem) (base : Nat) : Gprs where
  rdi := mem base
  rsi := mem (base + 8)
  rcx := mem (base + 16)
  rdx := mem (base + 24)
  rbx := mem (base + 32)
  rbp := mem (base + 40)
  r8 := mem (base + 48)
  r9 := mem (base + 56)
  r10 := mem (base + 64)
  r11 := mem (base + 72)
  r12 := mem (base + 80)
  r13 := mem (base + 88)
  r14 := mem (base + 96)
  r15 := mem (base + 104)
  rax := mem (base + 112)

/-- The pops, `add rsp, 16` over the vector and the error code, and `iretq`. -/
def popFrame (mem : Mem) (base : Nat) (c : Cpu) : Cpu :=
  iretq mem { c with gprs := popGprs mem base, rsp := base + 120 + 16 }

/-- `user_trampoline` jumps to `enter_user`, which takes RDI and RSI from below the frame. -/
def enterUser (mem : Mem) (c : Cpu) : Cpu :=
  iretq mem { c with gprs := { c.gprs with rdi := mem (c.rsp - 24), rsi := mem (c.rsp - 16) } }

/-! ## context_switch -/

/-- The first half of `context_switch`: parks the caller for a resume by `ret`. -/
def saveContext (mem : Mem) (c : Cpu) (src : CpuContext) : CpuContext :=
  { src with
    r15 := c.gprs.r15
    r14 := c.gprs.r14
    r13 := c.gprs.r13
    r12 := c.gprs.r12
    r11 := c.gprs.r11
    r10 := c.gprs.r10
    r9 := c.gprs.r9
    r8 := c.gprs.r8
    rbp := c.gprs.rbp
    rbx := c.gprs.rbx
    style := 0
    rsp := c.rsp
    rip := mem c.rsp
    cr3 := c.cr3 }

/-- The second half of `context_switch`: what runs next, and the context it leaves. -/
def restoreContext (mem : Mem) (c : Cpu) (dst : CpuContext) : Cpu × CpuContext :=
  let c := { c with
    gprs := { c.gprs with
      r15 := dst.r15
      r14 := dst.r14
      r13 := dst.r13
      r12 := dst.r12
      r11 := dst.r11
      r10 := dst.r10
      r9 := dst.r9
      r8 := dst.r8
      rbp := dst.rbp
      rbx := dst.rbx
      rax := dst.ran } }
  let c := loadCr3 dst.cr3 c
  if dst.ran = 0 then
    (ret mem { c with
      gprs := { c.gprs with r8 := dst.arg1, r9 := dst.arg2, rdi := dst.arg1, rsi := dst.arg2 }
      rsp := dst.rsp }, { dst with ran := 1 })
  else if dst.style = 1 then (popFrame mem dst.hwRsp c, dst)
  else (ret mem { c with rsp := dst.rsp }, dst)

/-- `context_switch_first`. -/
def contextSwitchFirst (mem : Mem) (c : Cpu) (dst : CpuContext) : Cpu × CpuContext :=
  if dst.style = 1 then
    (popFrame mem dst.hwRsp (loadCr3 dst.cr3 { c with gprs := { c.gprs with rdx := dst.cr3 } }), dst)
  else
    let c := { c with
      gprs := { c.gprs with
        rax := dst.rip
        r8 := dst.arg1
        r9 := dst.arg2
        rbp := 0
        rbx := 0
        r12 := 0
        r13 := 0
        r14 := 0
        r15 := 0
        rcx := dst.cr3
        rdi := dst.arg1
        rsi := dst.arg2 }
      rsp := dst.rsp }
    (ret mem (loadCr3 dst.cr3 c), { dst with style := 0, ran := 1 })

/-! ## isr_common_stub -/

/-- What the CPU pushes on an interrupt, with vector 32 and no error code, and what the stub
pushes, in the order of the pushes. -/
def isrPushes (c : Cpu) : List Nat :=
  [c.ss, c.rsp, c.rflags, c.cs, c.rip, 0, 32, c.gprs.rax, c.gprs.r15, c.gprs.r14, c.gprs.r13,
    c.gprs.r12, c.gprs.r11, c.gprs.r10, c.gprs.r9, c.gprs.r8, c.gprs.rbp, c.gprs.rbx, c.gprs.rdx,
    c.gprs.rcx, c.gprs.rsi, c.gprs.rdi]

/-- Where the CPU starts to push: `tss.rsp0` from ring 3, aligned to 16 bytes. -/
def isrTop (tssRsp0 : Nat) (c : Cpu) : Nat := (if c.cs % 4 = 3 then tssRsp0 else c.rsp) / 16 * 16

/-- The memory and the stack pointer after all pushes. -/
def isrEntry (tssRsp0 : Nat) (mem : Mem) (c : Cpu) : Mem × Nat :=
  pushAll mem (isrTop tssRsp0 c) (isrPushes c)

/-- The stub parks the process that ran when the interrupt came. -/
def parkIrq (base : Nat) (c : Cpu) (src : CpuContext) : CpuContext :=
  { src with hwRsp := base, style := 1, cr3 := c.cr3 }

/-- From the label `.tgt_only` on. -/
def isrSwitch (mem : Mem) (c : Cpu) (dst : CpuContext) : Cpu × CpuContext :=
  if dst.ran = 0 then
    let c := loadCr3 dst.cr3 { c with gprs := { c.gprs with rcx := dst.cr3 } }
    (ret mem { c with
      gprs := { c.gprs with
        r8 := dst.arg1
        r9 := dst.arg2
        rbp := 0
        rbx := 0
        r12 := 0
        r13 := 0
        r14 := 0
        r15 := 0
        rdi := dst.arg1
        rsi := dst.arg2 }
      rsp := dst.rsp }, { dst with style := 0, ran := 1 })
  else
    let c := loadCr3 dst.cr3 { c with gprs := { c.gprs with rdx := dst.cr3 } }
    if dst.style = 1 then (popFrame mem dst.hwRsp c, dst)
    else (ret mem { c with rsp := dst.rsp }, dst)

/-- What a call of a C function keeps: `scratch` replaces the other registers. -/
def afterCall (scratch g : Gprs) : Gprs :=
  { scratch with
    rbx := g.rbx
    rbp := g.rbp
    r12 := g.r12
    r13 := g.r13
    r14 := g.r14
    r15 := g.r15 }

end Siathos.Context
