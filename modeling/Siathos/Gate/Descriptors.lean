import Mathlib.Data.List.Induction
import Siathos.Context.Machine
import Siathos.Lib.Records

/-!
# The way into the kernel (`gdt.c`, `idt.c`)

The descriptor tables as `gdt_init` and `idt_init` leave them in memory, and what the processor makes of them: where an
interrupt goes, on what stack, and what ring 3 may load and use.
-/

open Lib

namespace Siathos.Gate

/-! ## The segments -/

/-- `gdt_entry_t`. -/
structure GdtEntry where
  limitLow : BitVec 16
  baseLow : BitVec 16
  baseMid : BitVec 8
  access : BitVec 8
  flags : BitVec 8
  baseHigh : BitVec 8
  deriving DecidableEq, Repr

/-- `tss_t`. -/
structure Tss where
  reserved0 : BitVec 32
  rsp0 : BitVec 64
  rsp1 : BitVec 64
  rsp2 : BitVec 64
  reserved1 : BitVec 64
  ist : List (BitVec 64)
  reserved2 : BitVec 64
  reserved3 : BitVec 16
  iomapBase : BitVec 16
  deriving DecidableEq, Repr

abbrev Gdt := Nat → GdtEntry

def setGdtEntry (i : Nat) (base limit : BitVec 32) (access flags : BitVec 8) (gdt : Gdt) : Gdt :=
  Function.update gdt i {
    limitLow := (limit &&& 0xFFFF).setWidth 16
    baseLow := (base &&& 0xFFFF).setWidth 16
    baseMid := (base >>> 16 &&& 0xFF).setWidth 8
    access
    flags := (limit >>> 16 &&& 0x0F).setWidth 8 ||| flags &&& 0xF0
    baseHigh := (base >>> 24 &&& 0xFF).setWidth 8 }

def sizeofTss : Nat := 104

/-- The TSS after `memset` and `tss.iomap_base=sizeof(tss)`. -/
def tssInit : Tss := ⟨0, 0, 0, 0, 0, List.replicate 7 0, 0, 0, BitVec.ofNat 16 sizeofTss⟩

/-- The two halves of the descriptor of the TSS. -/
def setTssEntry (tssBase : BitVec 64) (gdt : Gdt) : Gdt :=
  let limit := BitVec.ofNat 32 (sizeofTss - 1)
  let baseHi := (tssBase >>> 32).setWidth 32
  let gdt := Function.update gdt 5 {
    limitLow := (limit &&& 0xFFFF).setWidth 16
    baseLow := (tssBase &&& 0xFFFF).setWidth 16
    baseMid := (tssBase >>> 16 &&& 0xFF).setWidth 8
    access := 0x89
    flags := (limit >>> 16 &&& 0x0F &&& 0x0F).setWidth 8
    baseHigh := (tssBase >>> 24 &&& 0xFF).setWidth 8 }
  Function.update gdt 6 {
    limitLow := baseHi.setWidth 16
    baseLow := (baseHi >>> 16).setWidth 16
    baseMid := (baseHi >>> 24).setWidth 8
    access := 0
    flags := 0
    baseHigh := 0 }

/-- `gdt_init`, where the TSS is at `tssBase`. -/
def gdtInit (tssBase : BitVec 64) : Gdt :=
  let gdt : Gdt := fun _ => ⟨0, 0, 0, 0, 0, 0⟩
  let gdt := setGdtEntry 0 0 0 0 0 gdt
  let gdt := setGdtEntry 1 0 0xFFFFF 0x9A 0xA0 gdt
  let gdt := setGdtEntry 2 0 0xFFFFF 0x92 0xA0 gdt
  let gdt := setGdtEntry 3 0 0xFFFFF 0xFA 0xA0 gdt
  let gdt := setGdtEntry 4 0 0xFFFFF 0xF2 0xA0 gdt
  setTssEntry tssBase gdt

def gdtSetKernelStack (rsp : BitVec 64) (tss : Tss) : Tss := { tss with rsp0 := rsp }

/-! ## The gates -/

/-- `idt_entry_t`. -/
structure IdtEntry where
  offsetLow : BitVec 16
  selector : BitVec 16
  ist : BitVec 8
  typeAttr : BitVec 8
  offsetMid : BitVec 16
  offsetHigh : BitVec 32
  zero : BitVec 32
  deriving DecidableEq, Repr

abbrev Idt := Nat → IdtEntry

def idtGate (base : BitVec 64) (attr : BitVec 8) : IdtEntry where
  offsetLow := (base &&& 0xFFFF).setWidth 16
  offsetMid := (base >>> 16 &&& 0xFFFF).setWidth 16
  offsetHigh := (base >>> 32 &&& 0xFFFFFFFF).setWidth 32
  selector := 0x08
  ist := 0
  typeAttr := attr
  zero := 0

def setIdtGate (n : Nat) (base : BitVec 64) (attr : BitVec 8) (idt : Idt) : Idt :=
  Function.update idt n (idtGate base attr)

/-- `idt_init`, where `handlers` gives `isr0` to `isr47`. -/
def idtInit (handlers : Nat → BitVec 64) (syscallGate : BitVec 64) : Idt :=
  let idt : Idt := fun _ => ⟨0, 0, 0, 0, 0, 0, 0⟩
  let idt := (List.range 48).foldl (fun idt i => setIdtGate i (handlers i) 0x8E idt) idt
  setIdtGate 0x80 syscallGate 0xEE idt

/-! ## In memory -/

def GdtEntry.fields (e : GdtEntry) : List (Nat × Nat) :=
  [(2, e.limitLow.toNat), (2, e.baseLow.toNat), (1, e.baseMid.toNat), (1, e.access.toNat), (1, e.flags.toNat),
    (1, e.baseHigh.toNat)]

def Tss.fields (t : Tss) : List (Nat × Nat) :=
  [(4, t.reserved0.toNat), (8, t.rsp0.toNat), (8, t.rsp1.toNat), (8, t.rsp2.toNat), (8, t.reserved1.toNat)] ++
    t.ist.map (fun r => (8, r.toNat)) ++
    [(8, t.reserved2.toNat), (2, t.reserved3.toNat), (2, t.iomapBase.toNat)]

def IdtEntry.fields (e : IdtEntry) : List (Nat × Nat) :=
  [(2, e.offsetLow.toNat), (2, e.selector.toNat), (1, e.ist.toNat), (1, e.typeAttr.toNat), (2, e.offsetMid.toNat),
    (4, e.offsetHigh.toNat), (4, e.zero.toNat)]

/-- `gdt[7]`. -/
def gdtBytes (gdt : Gdt) : List UInt8 := (List.range 7).flatMap fun i => fieldBytes (gdt i).fields

/-- `idt[256]`. -/
def idtBytes (idt : Idt) : List UInt8 := (List.range 256).flatMap fun i => fieldBytes (idt i).fields

/-! ## The processor -/

/-- Where a table is, and the offset of its last byte. -/
structure Table where
  base : Nat
  limit : Nat
  deriving DecidableEq, Repr

/-- What the processor does instead of what it is asked for. -/
inductive Fault
  | generalProtection
  | notPresent
  | invalidTss
  deriving DecidableEq, Repr

/-- The registers of the tables, and the part of the processor that decides. -/
structure Core where
  idtr : Table
  gdtr : Table
  tr : Table
  cpl : Nat
  rsp : Nat
  iopl : Nat
  deriving DecidableEq, Repr

/-- A descriptor of a segment, as far as it counts in 64-bit mode. -/
structure Segment where
  access : Nat
  flags : Nat
  deriving DecidableEq, Repr

namespace Segment

@[simp] def present (d : Segment) : Bool := d.access.testBit 7
@[simp] def dpl (d : Segment) : Nat := d.access / 32 % 4
/-- Code or data, and no descriptor of the system. -/
@[simp] def ordinary (d : Segment) : Bool := d.access.testBit 4
@[simp] def code (d : Segment) : Bool := d.access.testBit 3
@[simp] def conforming (d : Segment) : Bool := d.access.testBit 2
/-- Data that is written, or code that is read. -/
@[simp] def second (d : Segment) : Bool := d.access.testBit 1
@[simp] def long (d : Segment) : Bool := d.flags.testBit 5
@[simp] def db (d : Segment) : Bool := d.flags.testBit 6

end Segment

/-- The descriptor that a selector names. There is no LDT. -/
def segmentOf (mem : Nat → UInt8) (gdtr : Table) (sel : Nat) : Option Segment :=
  if sel / 4 % 2 = 1 ∨ sel / 8 = 0 ∨ gdtr.limit < 8 * (sel / 8) + 7 then none
  else some ⟨readNumber mem (gdtr.base + 8 * (sel / 8) + 5) 1, readNumber mem (gdtr.base + 8 * (sel / 8) + 6) 1⟩

/-- `ltr`. -/
def loadTask (mem : Nat → UInt8) (gdtr : Table) (sel : Nat) : Except Fault Table :=
  if sel / 4 % 2 = 1 ∨ sel / 8 = 0 ∨ gdtr.limit < 8 * (sel / 8) + 15 then .error .generalProtection
  else
    let a := gdtr.base + 8 * (sel / 8)
    let access := readNumber mem (a + 5) 1
    if access % 32 ≠ 9 then .error .generalProtection
    else if access < 128 then .error .notPresent
    else .ok {
      base := readNumber mem (a + 2) 2 + 2 ^ 16 * readNumber mem (a + 4) 1 + 2 ^ 24 * readNumber mem (a + 7) 1 +
        2 ^ 32 * readNumber mem (a + 8) 4
      limit := readNumber mem a 2 + 2 ^ 16 * (readNumber mem (a + 6) 1 % 16) }

/-- Where the processor goes on after an interrupt. -/
structure Entry where
  rip : Nat
  cs : Nat
  cpl : Nat
  /-- Where it starts to push. -/
  stack : Nat
  /-- Whether further interrupts are off. -/
  closed : Bool
  deriving DecidableEq, Repr

/-- A stack of the TSS, at the offset. -/
def taskStack (mem : Nat → UInt8) (tr : Table) (off : Nat) : Except Fault Nat :=
  if tr.limit < off + 7 then .error .invalidTss else .ok (readNumber mem (tr.base + off) 8)

/-- An interrupt: `int n` if it is `software`, and otherwise an exception or one of a device. -/
def deliver (mem : Nat → UInt8) (c : Core) (software : Bool) (n : Nat) : Except Fault Entry :=
  if c.idtr.limit < 16 * n + 15 then .error .generalProtection
  else
    let a := c.idtr.base + 16 * n
    let sel := readNumber mem (a + 2) 2
    let ist := readNumber mem (a + 4) 1 % 8
    let attr := readNumber mem (a + 5) 1
    if attr % 32 ≠ 14 ∧ attr % 32 ≠ 15 then .error .generalProtection
    else if software ∧ attr / 32 % 4 < c.cpl then .error .generalProtection
    else if attr < 128 then .error .notPresent
    else match segmentOf mem c.gdtr sel with
      | none => .error .generalProtection
      | some d =>
        if !d.ordinary ∨ !d.code ∨ c.cpl < d.dpl then .error .generalProtection
        else if !d.present then .error .notPresent
        else if !d.long ∨ d.db then .error .generalProtection
        else
          let cpl := if d.conforming then c.cpl else d.dpl
          let stack := if ist ≠ 0 then taskStack mem c.tr (8 * ist + 28)
            else if cpl < c.cpl then taskStack mem c.tr (8 * cpl + 4) else .ok c.rsp
          stack.map fun stack => {
            rip := readNumber mem a 2 + 2 ^ 16 * readNumber mem (a + 6) 2 + 2 ^ 32 * readNumber mem (a + 8) 4
            cs := sel / 4 * 4 + cpl
            cpl
            stack := stack / 16 * 16
            closed := decide (attr % 32 = 14) }

/-- The level after a jump or call to the selector. Of the descriptors of the system, only call gates do not fault. -/
def farTransfer (mem : Nat → UInt8) (c : Core) (sel : Nat) : Except Fault Nat :=
  match segmentOf mem c.gdtr sel with
  | none => .error .generalProtection
  | some d =>
    if !d.ordinary then
      if d.access % 32 = 12 ∧ c.cpl ≤ d.dpl ∧ sel % 4 ≤ d.dpl then
        match segmentOf mem c.gdtr (readNumber mem (c.gdtr.base + 8 * (sel / 8) + 2) 2) with
        | none => .error .generalProtection
        | some t =>
          if !t.ordinary ∨ !t.code ∨ c.cpl < t.dpl then .error .generalProtection
          else .ok (if t.conforming then c.cpl else t.dpl)
      else .error .generalProtection
    else if !d.code then .error .generalProtection
    else if d.conforming then (if c.cpl < d.dpl then .error .generalProtection else .ok c.cpl)
    else if c.cpl < sel % 4 ∨ d.dpl ≠ c.cpl then .error .generalProtection
    else if !d.present then .error .notPresent
    else .ok c.cpl

/-- A segment register for data. -/
def loadData (mem : Nat → UInt8) (c : Core) (sel : Nat) : Except Fault Unit :=
  if sel < 4 then .ok ()
  else match segmentOf mem c.gdtr sel with
    | none => .error .generalProtection
    | some d =>
      if !d.ordinary ∨ (d.code ∧ !d.second) then .error .generalProtection
      else if ¬ (d.code ∧ d.conforming) ∧ (d.dpl < sel % 4 ∨ d.dpl < c.cpl) then .error .generalProtection
      else if !d.present then .error .notPresent
      else .ok ()

/-- The level after `iretq` with these selectors. -/
def returnTo (mem : Nat → UInt8) (c : Core) (cs ss : Nat) : Except Fault Nat :=
  let rpl := cs % 4
  if rpl < c.cpl then .error .generalProtection
  else match segmentOf mem c.gdtr cs with
    | none => .error .generalProtection
    | some d =>
      if !d.ordinary ∨ !d.code ∨ (if d.conforming then rpl < d.dpl else d.dpl ≠ rpl) then .error .generalProtection
      else if !d.present then .error .notPresent
      else if ss % 4 ≠ rpl then .error .generalProtection
      else match segmentOf mem c.gdtr ss with
        | none => if ss < 4 ∧ rpl ≠ 3 then .ok rpl else .error .generalProtection
        | some t =>
          if !t.ordinary ∨ t.code ∨ !t.second ∨ t.dpl ≠ rpl then .error .generalProtection
          else if !t.present then .error .notPresent
          else .ok rpl

/-- Whether `width` ports may be used from `port` on. -/
def portAllowed (mem : Nat → UInt8) (c : Core) (port width : Nat) : Bool :=
  decide (c.cpl ≤ c.iopl) ||
    let a := readNumber mem (c.tr.base + 102) 2
    decide (103 ≤ c.tr.limit) && decide (a + port / 8 + 1 ≤ c.tr.limit) &&
      (List.range width).all fun i => !(readNumber mem (c.tr.base + a + (port + i) / 8) 1).testBit ((port + i) % 8)

/-! ## The tables are there -/

/-- `ltr` marks the descriptor of the TSS as busy. -/
def taskBusy (gdt : Gdt) : Gdt := Function.update gdt 5 { gdt 5 with access := (gdt 5).access ||| 2 }

/-- The tables after `gdt_init` and `idt_init`, and after the calls of `gdt_set_kernel_stack`. `lgdt`, `lidt`
and `ltr` have been executed, the last one with the GDT as it was before. -/
structure Installed (mem : Nat → UInt8) (c : Core) (handlers : Nat → BitVec 64) (syscallGate tssBase : BitVec 64)
    (tops : List (BitVec 64)) : Prop where
  gdt : Stored mem c.gdtr.base (gdtBytes (taskBusy (gdtInit tssBase)))
  gdtLimit : c.gdtr.limit = 55
  idt : Stored mem c.idtr.base (idtBytes (idtInit handlers syscallGate))
  idtLimit : c.idtr.limit = 4095
  task : ∃ before, Stored before c.gdtr.base (gdtBytes (gdtInit tssBase)) ∧ loadTask before c.gdtr 0x28 = .ok c.tr
  tss : Stored mem tssBase.toNat (fieldBytes (tops.foldl (fun t rsp => gdtSetKernelStack rsp t) tssInit).fields)

/-- The stack of the last call of `gdt_set_kernel_stack`. -/
def lastStack (tops : List (BitVec 64)) : BitVec 64 := tops.getLast?.getD 0

section

variable {mem : Nat → UInt8} {gdtr : Table} {tssBase : BitVec 64}

theorem GdtEntry.length_bytes (e : GdtEntry) : (fieldBytes e.fields).length = 8 := by
  simp [GdtEntry.fields, fieldBytes]

theorem IdtEntry.length_bytes (e : IdtEntry) : (fieldBytes e.fields).length = 16 := by
  simp [IdtEntry.fields, fieldBytes]

theorem GdtEntry.reads {e : GdtEntry} {a : Nat} (h : Stored mem a (fieldBytes e.fields)) :
    readNumber mem a 2 = e.limitLow.toNat ∧ readNumber mem (a + 2) 2 = e.baseLow.toNat ∧
      readNumber mem (a + 4) 1 = e.baseMid.toNat ∧ readNumber mem (a + 5) 1 = e.access.toNat ∧
      readNumber mem (a + 6) 1 = e.flags.toNat ∧ readNumber mem (a + 7) 1 = e.baseHigh.toNat := by
  obtain ⟨h₀, h₁, h₂, h₃, h₄, h₅, -⟩ := h.reads
  exact ⟨h₀.trans (Nat.mod_eq_of_lt e.limitLow.isLt), h₁.trans (Nat.mod_eq_of_lt e.baseLow.isLt),
    h₂.trans (Nat.mod_eq_of_lt e.baseMid.isLt), h₃.trans (Nat.mod_eq_of_lt e.access.isLt),
    h₄.trans (Nat.mod_eq_of_lt e.flags.isLt), h₅.trans (Nat.mod_eq_of_lt e.baseHigh.isLt)⟩

theorem IdtEntry.reads {e : IdtEntry} {a : Nat} (h : Stored mem a (fieldBytes e.fields)) :
    readNumber mem a 2 = e.offsetLow.toNat ∧ readNumber mem (a + 2) 2 = e.selector.toNat ∧
      readNumber mem (a + 4) 1 = e.ist.toNat ∧ readNumber mem (a + 5) 1 = e.typeAttr.toNat ∧
      readNumber mem (a + 6) 2 = e.offsetMid.toNat ∧ readNumber mem (a + 8) 4 = e.offsetHigh.toNat := by
  obtain ⟨h₀, h₁, h₂, h₃, h₄, h₅, -⟩ := h.reads
  exact ⟨h₀.trans (Nat.mod_eq_of_lt e.offsetLow.isLt), h₁.trans (Nat.mod_eq_of_lt e.selector.isLt),
    h₂.trans (Nat.mod_eq_of_lt e.ist.isLt), h₃.trans (Nat.mod_eq_of_lt e.typeAttr.isLt),
    h₄.trans (Nat.mod_eq_of_lt e.offsetMid.isLt), h₅.trans (Nat.mod_eq_of_lt e.offsetHigh.isLt)⟩

theorem gdt_stored {gdt : Gdt} (h : Stored mem gdtr.base (gdtBytes gdt)) {i : Nat} (hi : i < 7) :
    Stored mem (gdtr.base + 8 * i) (fieldBytes (gdt i).fields) :=
  h.record (fun _ _ => GdtEntry.length_bytes _) (List.getElem?_range hi)

theorem toNat_part (v : BitVec 64) (n w : Nat) {mask : BitVec 64} (hmask : mask.toNat = 2 ^ w - 1) :
    ((v >>> n &&& mask).setWidth w).toNat = v.toNat / 2 ^ n % 2 ^ w := by
  rw [BitVec.toNat_setWidth, BitVec.toNat_and, hmask, Nat.and_two_pow_sub_one_eq_mod, BitVec.toNat_ushiftRight,
    Nat.shiftRight_eq_div_pow, Nat.mod_mod]

theorem toNat_low (v : BitVec 64) (w : Nat) {mask : BitVec 64} (hmask : mask.toNat = 2 ^ w - 1) :
    ((v &&& mask).setWidth w).toNat = v.toNat % 2 ^ w := by
  rw [BitVec.toNat_setWidth, BitVec.toNat_and, hmask, Nat.and_two_pow_sub_one_eq_mod, Nat.mod_mod]

theorem toNat_taskBase (tssBase : BitVec 64) :
    (gdtInit tssBase 5).baseLow.toNat + 2 ^ 16 * (gdtInit tssBase 5).baseMid.toNat +
      2 ^ 24 * (gdtInit tssBase 5).baseHigh.toNat +
      2 ^ 32 * ((gdtInit tssBase 6).limitLow.toNat + 2 ^ 16 * (gdtInit tssBase 6).baseLow.toNat) = tssBase.toNat := by
  have hlt := tssBase.isLt
  have htop : (gdtInit tssBase 6).limitLow.toNat = tssBase.toNat / 2 ^ 32 % 2 ^ 16 := by
    show (((tssBase >>> 32).setWidth 32).setWidth 16).toNat = _
    rw [BitVec.toNat_setWidth, BitVec.toNat_setWidth, BitVec.toNat_ushiftRight, Nat.shiftRight_eq_div_pow]
    omega
  have htop' : (gdtInit tssBase 6).baseLow.toNat = tssBase.toNat / 2 ^ 48 := by
    show ((((tssBase >>> 32).setWidth 32) >>> 16).setWidth 16).toNat = _
    rw [BitVec.toNat_setWidth, BitVec.toNat_ushiftRight, BitVec.toNat_setWidth, BitVec.toNat_ushiftRight,
      Nat.shiftRight_eq_div_pow, Nat.shiftRight_eq_div_pow]
    omega
  rw [show (gdtInit tssBase 5).baseLow.toNat = _ from toNat_low tssBase 16 rfl,
    show (gdtInit tssBase 5).baseMid.toNat = _ from toNat_part tssBase 16 8 rfl,
    show (gdtInit tssBase 5).baseHigh.toNat = _ from toNat_part tssBase 24 8 rfl, htop, htop']
  omega

/-- `ltr` finds the TSS. -/
theorem loadTask_eq (h : Stored mem gdtr.base (gdtBytes (gdtInit tssBase))) (hlimit : gdtr.limit = 55) :
    loadTask mem gdtr 0x28 = .ok ⟨tssBase.toNat, 103⟩ := by
  have hfirst : Stored mem (gdtr.base + 40) (fieldBytes (gdtInit tssBase 5).fields) :=
    gdt_stored h (i := 5) (by decide)
  have hsecond : Stored mem (gdtr.base + 40 + 8) (fieldBytes (gdtInit tssBase 6).fields) :=
    gdt_stored h (i := 6) (by decide)
  obtain ⟨hlimit', hlow, hmid, haccess, hflags, hhigh⟩ := GdtEntry.reads hfirst
  obtain ⟨htop, htop', -⟩ := GdtEntry.reads hsecond
  have hupper : readNumber mem (gdtr.base + 40 + 8) 4 =
      (gdtInit tssBase 6).limitLow.toNat + 2 ^ 16 * (gdtInit tssBase 6).baseLow.toNat := by
    have hsplit : readNumber mem (gdtr.base + 40 + 8) (2 + 2) = _ := readNumber_add _ _ _
    rw [htop, htop'] at hsplit
    exact hsplit
  have hbase := toNat_taskBase tssBase
  rw [← hlow, ← hmid, ← hhigh, ← hupper] at hbase
  replace hlimit' : readNumber mem (gdtr.base + 40) 2 = 103 := hlimit'
  replace haccess : readNumber mem (gdtr.base + 40 + 5) 1 = 0x89 := haccess
  replace hflags : readNumber mem (gdtr.base + 40 + 6) 1 = 0 := hflags
  unfold loadTask
  rw [if_neg (by omega)]
  show (if readNumber mem (gdtr.base + 40 + 5) 1 % 32 ≠ 9 then _ else _) = _
  rw [haccess, if_neg (by decide), if_neg (by decide), hbase, hlimit', hflags]
  rfl

/-- The descriptors of `gdt_init`. -/
def descriptor : Nat → Option Segment
  | 1 => some ⟨0x9A, 0xAF⟩
  | 2 => some ⟨0x92, 0xAF⟩
  | 3 => some ⟨0xFA, 0xAF⟩
  | 4 => some ⟨0xF2, 0xAF⟩
  | 5 => some ⟨0x8B, 0⟩
  | 6 => some ⟨0, 0⟩
  | _ => none

theorem segmentOf_eq (h : Stored mem gdtr.base (gdtBytes (taskBusy (gdtInit tssBase)))) (hlimit : gdtr.limit = 55)
    (sel : Nat) :
    segmentOf mem gdtr sel = if sel / 4 % 2 = 1 then none else descriptor (sel / 8) := by
  unfold segmentOf
  rw [hlimit]
  generalize sel / 8 = i
  by_cases hldt : sel / 4 % 2 = 1
  · rw [if_pos (.inl hldt), if_pos hldt]
  have hfound : ∀ i, 0 < i → i < 7 → (if sel / 4 % 2 = 1 ∨ i = 0 ∨ 55 < 8 * i + 7 then none
      else some (⟨readNumber mem (gdtr.base + 8 * i + 5) 1, readNumber mem (gdtr.base + 8 * i + 6) 1⟩ : Segment)) =
        some ⟨(taskBusy (gdtInit tssBase) i).access.toNat, (taskBusy (gdtInit tssBase) i).flags.toNat⟩ := by
    intro i hpos hi
    obtain ⟨-, -, -, haccess, hflags, -⟩ := GdtEntry.reads (gdt_stored h hi)
    rw [if_neg (by omega), haccess, hflags]
  rw [if_neg hldt]
  match i with
  | 0 => exact if_pos (.inr (.inl rfl))
  | 1 | 2 | 3 | 4 | 6 => exact (hfound _ (by decide) (by decide)).trans rfl
  | 5 =>
    rw [hfound 5 (by decide) (by decide)]
    simp [taskBusy, gdtInit, setTssEntry, sizeofTss, descriptor]
  | n + 7 => exact if_pos (by omega)

theorem descriptor_cases {i : Nat} {d : Segment} (h : descriptor i = some d) :
    (i = 1 ∧ d = ⟨0x9A, 0xAF⟩) ∨ (i = 2 ∧ d = ⟨0x92, 0xAF⟩) ∨ (i = 3 ∧ d = ⟨0xFA, 0xAF⟩) ∨ (i = 4 ∧ d = ⟨0xF2, 0xAF⟩) ∨
      (i = 5 ∧ d = ⟨0x8B, 0⟩) ∨ (i = 6 ∧ d = ⟨0, 0⟩) := by
  match i, h with
  | 1, h | 2, h | 3, h | 4, h | 5, h | 6, h =>
    obtain rfl := Option.some.inj h
    decide

theorem setGates_eq (handlers : Nat → BitVec 64) (l : List Nat) (idt : Idt) (n : Nat) :
    l.foldl (fun idt i => setIdtGate i (handlers i) 0x8E idt) idt n =
      if n ∈ l then idtGate (handlers n) 0x8E else idt n := by
  induction l generalizing idt with
  | nil => rfl
  | cons i l ih =>
    rw [List.foldl_cons, ih, setIdtGate, Function.update_apply]
    by_cases hn : n ∈ l
    · rw [if_pos hn, if_pos (List.mem_cons_of_mem i hn)]
    · rw [if_neg hn]
      by_cases hi : n = i
      · rw [if_pos hi, if_pos (hi ▸ List.mem_cons_self), hi]
      · rw [if_neg hi, if_neg fun hmem => (List.mem_cons.mp hmem).elim hi hn]

theorem idtInit_eq (handlers : Nat → BitVec 64) (syscallGate : BitVec 64) (n : Nat) :
    idtInit handlers syscallGate n = if n = 0x80 then idtGate syscallGate 0xEE
      else if n < 48 then idtGate (handlers n) 0x8E else ⟨0, 0, 0, 0, 0, 0, 0⟩ := by
  unfold idtInit
  rw [setIdtGate, Function.update_apply, setGates_eq]
  simp only [List.mem_range]

theorem kernelStack_eq (tops : List (BitVec 64)) :
    tops.foldl (fun t rsp => gdtSetKernelStack rsp t) tssInit = { tssInit with rsp0 := lastStack tops } := by
  induction tops using List.reverseRecOn with
  | nil => rfl
  | append_singleton tops rsp ih =>
    rw [List.foldl_append, ih, show lastStack (tops ++ [rsp]) = rsp by simp [lastStack]]
    rfl

end

/-! ## What the processor does with them -/

section

variable {mem : Nat → UInt8} {c : Core} {handlers : Nat → BitVec 64} {syscallGate tssBase : BitVec 64}
  {tops : List (BitVec 64)}

theorem Installed.tr_eq (h : Installed mem c handlers syscallGate tssBase tops) : c.tr = ⟨tssBase.toNat, 103⟩ := by
  obtain ⟨before, hgdt, htask⟩ := h.task
  exact Except.ok.inj (htask.symm.trans (loadTask_eq hgdt h.gdtLimit))

theorem Installed.tss_reads (h : Installed mem c handlers syscallGate tssBase tops) :
    readNumber mem (c.tr.base + 4) 8 = (lastStack tops).toNat ∧ readNumber mem (c.tr.base + 102) 2 = 104 := by
  have hstored := h.tss
  rw [kernelStack_eq] at hstored
  obtain ⟨-, hrsp, -, -, -, -, -, -, -, -, -, -, -, -, hmap, -⟩ := hstored.reads
  rw [h.tr_eq]
  exact ⟨hrsp.trans (Nat.mod_eq_of_lt (lastStack tops).isLt), hmap⟩

/-- Where the processor pushes after an interrupt. -/
def entryStack (c : Core) (tops : List (BitVec 64)) : Nat :=
  (if 0 < c.cpl then (lastStack tops).toNat else c.rsp) / 16 * 16

/-- The interrupts of `Context` begin there. -/
theorem entryStack_isrTop {cpu : Context.Cpu} (hcpl : c.cpl = 0 ∨ c.cpl = 3) (hcs : cpu.cs % 4 = c.cpl)
    (hrsp : cpu.rsp = c.rsp) : entryStack c tops = Context.isrTop (lastStack tops).toNat cpu := by
  rw [entryStack, Context.isrTop, hcs, hrsp]
  obtain hcpl | hcpl := hcpl
  · rw [hcpl, if_neg (Nat.lt_irrefl 0), if_neg (by decide)]
  · rw [hcpl, if_pos (by decide), if_pos rfl]

theorem Installed.gate_stored (h : Installed mem c handlers syscallGate tssBase tops) {n : Nat} (hn : n < 256) :
    Stored mem (c.idtr.base + 16 * n) (fieldBytes (idtInit handlers syscallGate n).fields) :=
  h.idt.record (fun _ _ => IdtEntry.length_bytes _) (List.getElem?_range hn)

theorem toNat_offset (base : BitVec 64) (attr : BitVec 8) :
    (idtGate base attr).offsetLow.toNat + 2 ^ 16 * (idtGate base attr).offsetMid.toNat +
      2 ^ 32 * (idtGate base attr).offsetHigh.toNat = base.toNat := by
  have hlt := base.isLt
  rw [show (idtGate base attr).offsetLow.toNat = _ from toNat_low base 16 rfl,
    show (idtGate base attr).offsetMid.toNat = _ from toNat_part base 16 16 rfl,
    show (idtGate base attr).offsetHigh.toNat = _ from toNat_part base 32 32 rfl]
  omega

theorem Installed.gate (h : Installed mem c handlers syscallGate tssBase tops) {n : Nat} (hn : n < 256)
    (software : Bool)
    {base : BitVec 64} {attr : BitVec 8} (hgate : idtInit handlers syscallGate n = idtGate base attr)
    (hkind : attr.toNat % 32 = 14) (hpresent : 128 ≤ attr.toNat) :
    deliver mem c software n =
      if software = true ∧ attr.toNat / 32 % 4 < c.cpl then .error .generalProtection
      else .ok ⟨base.toNat, 8, 0, entryStack c tops, true⟩ := by
  have hstored := h.gate_stored hn
  rw [hgate] at hstored
  obtain ⟨hlow, hsel, hist, hattr, hmid, hhigh⟩ := IdtEntry.reads hstored
  have hcode : segmentOf mem c.gdtr 8 = some ⟨0x9A, 0xAF⟩ := (segmentOf_eq h.gdt h.gdtLimit 8).trans rfl
  have hstack : (if 0 < c.cpl then taskStack mem c.tr 4 else .ok c.rsp) =
      Except.ok (ε := Fault) (if 0 < c.cpl then (lastStack tops).toNat else c.rsp) := by
    split
    · rw [taskStack, h.tss_reads.1, h.tr_eq, if_neg (by simp)]
    · rfl
  have hrip := toNat_offset base attr
  rw [← hlow, ← hmid, ← hhigh] at hrip
  replace hsel : readNumber mem (c.idtr.base + 16 * n + 2) 2 = 8 := hsel
  replace hist : readNumber mem (c.idtr.base + 16 * n + 4) 1 = 0 := hist
  replace hattr : readNumber mem (c.idtr.base + 16 * n + 5) 1 = attr.toNat := hattr
  unfold deliver
  rw [h.idtLimit, if_neg (by omega)]
  simp only [hsel, hist, hattr, hrip, hcode, hkind]
  rw [if_neg (by decide)]
  split
  · rfl
  rw [if_neg (by omega)]
  simp [Nat.testBit, hstack, Except.map, entryStack]

/-- An interrupt enters at the handler of its number, on the stack of the last `gdt_set_kernel_stack`. -/
theorem kernel_entry (h : Installed mem c handlers syscallGate tssBase tops) (hcpl : c.cpl = 0 ∨ c.cpl = 3)
    {cpu : Context.Cpu} (hcs : cpu.cs % 4 = c.cpl) (hrsp : cpu.rsp = c.rsp) (software : Bool) {n : Nat} (hn : n < 256) :
    deliver mem c software n =
      if n = 0x80 then .ok ⟨syscallGate.toNat, 8, 0, Context.isrTop (lastStack tops).toNat cpu, true⟩
      else if n < 48 ∧ (software = true → c.cpl = 0) then
        .ok ⟨(handlers n).toNat, 8, 0, Context.isrTop (lastStack tops).toNat cpu, true⟩
      else .error .generalProtection := by
  rw [← entryStack_isrTop hcpl hcs hrsp]
  have hgate := idtInit_eq handlers syscallGate n
  by_cases hsyscall : n = 0x80
  · rw [if_pos hsyscall] at hgate ⊢
    rw [h.gate hn software hgate (by decide) (by decide), if_neg]
    rintro ⟨-, hlt⟩
    have hopen : (0xEE : BitVec 8).toNat / 32 % 4 = 3 := rfl
    omega
  rw [if_neg hsyscall] at hgate ⊢
  by_cases hvector : n < 48
  · rw [if_pos hvector] at hgate
    rw [h.gate hn software hgate (by decide) (by decide)]
    have hclosed : (0x8E : BitVec 8).toNat / 32 % 4 = 0 := rfl
    rw [hclosed]
    have hrefused : (software = true ∧ 0 < c.cpl) ↔ ¬(software = true → c.cpl = 0) := by
      rw [Classical.not_imp, Nat.pos_iff_ne_zero]
    by_cases hallowed : software = true → c.cpl = 0
    · rw [if_neg (hrefused.not.mpr (not_not.mpr hallowed)), if_pos ⟨hvector, hallowed⟩]
    · rw [if_pos (hrefused.mpr hallowed), if_neg fun hboth : n < 48 ∧ _ => hallowed hboth.2]
  · rw [if_neg hvector] at hgate
    rw [if_neg fun hboth => hvector hboth.1]
    have hstored := h.gate_stored hn
    rw [hgate] at hstored
    obtain ⟨-, -, -, hattr, -⟩ := IdtEntry.reads hstored
    replace hattr : readNumber mem (c.idtr.base + 16 * n + 5) 1 = 0 := hattr
    unfold deliver
    rw [h.idtLimit, if_neg (by omega)]
    simp only [hattr]
    rw [if_pos (by decide)]

/-- What ring 3 does with selectors and ports, without the gates. -/
structure Confined (mem : Nat → UInt8) (c : Core) : Prop where
  /-- No jump or call changes the level. -/
  transfer : ∀ sel cpl, farTransfer mem c sel = .ok cpl → cpl = 3
  /-- `iretq` goes back to the code and the stack of ring 3 only. -/
  back : ∀ cs ss cpl, returnTo mem c cs ss = .ok cpl → cpl = 3 ∧ cs = 0x1B ∧ ss = 0x23
  /-- The segments of the kernel are not loaded. -/
  data : ∀ sel, loadData mem c sel = .ok () → sel < 4 ∨ sel / 8 = 3 ∨ sel / 8 = 4
  /-- No port is open. -/
  ports : ∀ port width, portAllowed mem c port width = false

theorem Installed.segment (h : Installed mem c handlers syscallGate tssBase tops) {sel : Nat} {d : Segment}
    (hfound : segmentOf mem c.gdtr sel = some d) : sel / 4 % 2 = 0 ∧ descriptor (sel / 8) = some d := by
  rw [segmentOf_eq h.gdt h.gdtLimit] at hfound
  split at hfound
  · cases hfound
  · exact ⟨by omega, hfound⟩

theorem Installed.transfer (h : Installed mem c handlers syscallGate tssBase tops) (hcpl : c.cpl = 3) {sel cpl : Nat}
    (hok : farTransfer mem c sel = .ok cpl) : cpl = 3 := by
  unfold farTransfer at hok
  split at hok
  · cases hok
  next d hfound =>
  obtain ⟨-, hdesc⟩ := h.segment hfound
  obtain ⟨-, rfl⟩ | ⟨-, rfl⟩ | ⟨-, rfl⟩ | ⟨-, rfl⟩ | ⟨-, rfl⟩ | ⟨-, rfl⟩ := descriptor_cases hdesc <;>
    simp [Nat.testBit, hcpl] at hok
  split at hok
  · cases hok
  · exact (Except.ok.inj hok).symm

theorem Installed.back (h : Installed mem c handlers syscallGate tssBase tops) (hcpl : c.cpl = 3) {cs ss cpl : Nat}
    (hok : returnTo mem c cs ss = .ok cpl) : cpl = 3 ∧ cs = 0x1B ∧ ss = 0x23 := by
  unfold returnTo at hok
  simp only [hcpl] at hok
  split at hok
  · cases hok
  have hrpl : cs % 4 = 3 := by omega
  rw [hrpl] at hok
  split at hok
  · cases hok
  next d hcode =>
  obtain ⟨hti, hdesc⟩ := h.segment hcode
  obtain ⟨hi, rfl⟩ | ⟨hi, rfl⟩ | ⟨hi, rfl⟩ | ⟨hi, rfl⟩ | ⟨hi, rfl⟩ | ⟨hi, rfl⟩ := descriptor_cases hdesc <;>
    simp [Nat.testBit] at hok
  by_cases hss : ss % 4 = 3
  swap
  · rw [if_neg hss] at hok
    cases hok
  rw [if_pos hss] at hok
  split at hok
  · cases hok
  next t hstack =>
  obtain ⟨hti', hdesc'⟩ := h.segment hstack
  obtain ⟨hj, rfl⟩ | ⟨hj, rfl⟩ | ⟨hj, rfl⟩ | ⟨hj, rfl⟩ | ⟨hj, rfl⟩ | ⟨hj, rfl⟩ := descriptor_cases hdesc' <;>
    simp at hok
  omega

theorem Installed.data (h : Installed mem c handlers syscallGate tssBase tops) (hcpl : c.cpl = 3) {sel : Nat}
    (hok : loadData mem c sel = .ok ()) : sel < 4 ∨ sel / 8 = 3 ∨ sel / 8 = 4 := by
  unfold loadData at hok
  split at hok
  next hnull => exact .inl hnull
  split at hok
  · cases hok
  next d hfound =>
  obtain ⟨-, hdesc⟩ := h.segment hfound
  obtain ⟨hi, rfl⟩ | ⟨hi, rfl⟩ | ⟨hi, rfl⟩ | ⟨hi, rfl⟩ | ⟨hi, rfl⟩ | ⟨hi, rfl⟩ := descriptor_cases hdesc
  · simp [Nat.testBit, hcpl] at hok
  · simp [Nat.testBit, hcpl] at hok
  · exact .inr (.inl hi)
  · exact .inr (.inr hi)
  · simp [Nat.testBit] at hok
  · simp [Nat.testBit] at hok

theorem Installed.ports (h : Installed mem c handlers syscallGate tssBase tops) (hcpl : c.cpl = 3) (hiopl : c.iopl = 0)
    (port width : Nat) : portAllowed mem c port width = false := by
  have hbeyond : ¬ 104 + port / 8 + 1 ≤ 103 := by omega
  unfold portAllowed
  rw [h.tss_reads.2, h.tr_eq, hcpl, hiopl]
  simp [hbeyond]

theorem ring3_confined (h : Installed mem c handlers syscallGate tssBase tops) (hcpl : c.cpl = 3) (hiopl : c.iopl = 0) :
    Confined mem c where
  transfer _ _ := h.transfer hcpl
  back _ _ _ := h.back hcpl
  data _ := h.data hcpl
  ports := h.ports hcpl hiopl

end

/-! ## Three tables one after the other -/

/-- The GDT at 0, then the TSS and the IDT. -/
def smallBytes (gdt : Gdt) : List UInt8 :=
  gdtBytes gdt ++ fieldBytes (gdtSetKernelStack 0x9000 tssInit).fields ++
    idtBytes (idtInit (fun n => 0x1000 + BitVec.ofNat 64 n) 0x2000)

def smallTables (gdt : Gdt) (a : Nat) : UInt8 := (smallBytes gdt).getD a 0

def smallCore : Core := ⟨⟨160, 4095⟩, ⟨0, 55⟩, ⟨56, 103⟩, 3, 0x7000, 0⟩

/-- A process in ring 3, on its own stack. -/
def smallCpu : Context.Cpu := ⟨⟨0, 0, 0, 0, 0, 0, 0, 0, 0, 0, 0, 0, 0, 0, 0⟩, 0x7000, 0, 0x202, 0x1B, 0x23, 0⟩

theorem smallTables_gdt (gdt : Gdt) : Stored (smallTables gdt) 0 (gdtBytes gdt) := by
  have hstored := stored_getD [] (gdtBytes gdt) (fieldBytes (gdtSetKernelStack 0x9000 tssInit).fields ++
    idtBytes (idtInit (fun n => 0x1000 + BitVec.ofNat 64 n) 0x2000))
  rw [List.nil_append, ← List.append_assoc] at hstored
  exact hstored

theorem smallCore_installed : Installed (smallTables (taskBusy (gdtInit 56))) smallCore
    (fun n => 0x1000 + BitVec.ofNat 64 n) 0x2000 56 [0x9000] where
  gdt := smallTables_gdt _
  gdtLimit := rfl
  idt := by
    have hstored := stored_getD
      (gdtBytes (taskBusy (gdtInit 56)) ++ fieldBytes (gdtSetKernelStack 0x9000 tssInit).fields)
      (idtBytes (idtInit (fun n => 0x1000 + BitVec.ofNat 64 n) 0x2000)) []
    rw [List.append_nil] at hstored
    exact hstored
  idtLimit := rfl
  task := ⟨smallTables (gdtInit 56), smallTables_gdt _,
    loadTask_eq (show Stored _ smallCore.gdtr.base _ from smallTables_gdt (gdtInit 56)) rfl⟩
  tss := stored_getD (gdtBytes (taskBusy (gdtInit 56))) _ _

theorem kernel_entry_small :
    deliver (smallTables (taskBusy (gdtInit 56))) smallCore true 0x80 = .ok ⟨0x2000, 8, 0, 0x9000, true⟩ :=
  (kernel_entry smallCore_installed (.inr rfl) (show smallCpu.cs % 4 = 3 from rfl) rfl true (by decide)).trans rfl

theorem ring3_confined_small : Confined (smallTables (taskBusy (gdtInit 56))) smallCore :=
  ring3_confined smallCore_installed rfl rfl

end Siathos.Gate
