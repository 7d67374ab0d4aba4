import Siathos.Lib.Radix

/-!
# Pages and page tables (`util.c`, `paging.c`)

The bitmap of `pmm_alloc` and `pmm_free`, and the four levels of tables. An address of a page is the
number of the page, and 0 is the null pointer. All of physical memory is mapped at its own address, so
that the kernel writes a table as `tables page index`.
-/

open Lib

namespace Siathos.Paging

/-! ## The PMM -/

/-- What `pmm_alloc` is called for. -/
inductive Purpose
  | heap
  | pml4
  | table
  | code
  | segment
  | userStack
  | mmap
  deriving DecidableEq, Repr

/-- `pmm_pages_total` and `pmm_bitmap`. `refused` and `doubled` are ghost state: the calls of `pmm_alloc`
that returned 0, and whether `pmm_free` was called for a page that was free. -/
structure Pmm where
  total : Nat
  used : Nat → Bool
  refused : List Purpose
  doubled : Bool

/-- The pages from `i` on are there and free. -/
def Pmm.fits (pmm : Pmm) (pages i : Nat) : Bool :=
  decide (i + pages ≤ pmm.total) && (List.range pages).all fun b => !pmm.used (i + b)

def pmmAlloc (pmm : Pmm) (why : Purpose) (pages : Nat) : Pmm × Nat :=
  if pages = 0 then (pmm, 0)
  else match (List.range pmm.total).find? (pmm.fits pages) with
    | some i => ({ pmm with used := fun j => pmm.used j || decide (i ≤ j ∧ j < i + pages) }, i)
    | none => ({ pmm with refused := why :: pmm.refused }, 0)

def pmmFree (pmm : Pmm) (page pages : Nat) : Pmm :=
  if page = 0 || pages = 0 then pmm
  else { pmm with
    used := fun j => pmm.used j && !decide (page ≤ j ∧ j < page + pages ∧ j < pmm.total)
    doubled := pmm.doubled || (List.range pages).any fun b => decide (page + b < pmm.total) && !pmm.used (page + b) }

/-! ## Entries -/

def pteAddr : BitVec 64 := 0x000FFFFFFFFFF000

def pageAddr (page : Nat) : BitVec 64 := BitVec.ofNat 64 (page * 4096)

def present (w : BitVec 64) : Bool := w.getLsbD 0

def writable (w : BitVec 64) : Bool := w.getLsbD 1

/-- Bit 63, `NX`: nothing is executed there. -/
def noExec (w : BitVec 64) : Bool := w.getLsbD 63

/-- Bit 2: ring 3 may use the entry. -/
def user (w : BitVec 64) : Bool := w.getLsbD 2

/-- Bit 7: a page of 2 MB or 1 GB. -/
def large (w : BitVec 64) : Bool := w.getLsbD 7

/-- `PTE_AVAIL_MMIO`: the page is no memory of the PMM. -/
def mmio (w : BitVec 64) : Bool := w.getLsbD 11

/-- The page that the entry names. -/
def pfn (w : BitVec 64) : Nat := (w &&& pteAddr).toNat / 4096

def entry (phys flags : BitVec 64) : BitVec 64 := (phys &&& pteAddr) ||| flags

def nx : BitVec 64 := 1 <<< 63

def idxL4 (v : BitVec 64) : Nat := (v >>> 39 &&& 0x1FF).toNat
def idxL3 (v : BitVec 64) : Nat := (v >>> 30 &&& 0x1FF).toNat
def idxL2 (v : BitVec 64) : Nat := (v >>> 21 &&& 0x1FF).toNat
def idxL1 (v : BitVec 64) : Nat := (v >>> 12 &&& 0x1FF).toNat

/-! ## Tables -/

/-- Memory. A page holds a table or bytes, so that `bytes` is of pages that are no tables. -/
structure Vm where
  pmm : Pmm
  tables : Nat → Nat → BitVec 64
  bytes : Nat → BitVec 8

/-- The entry is `tables t i`. Returns the child table, or 0. -/
def ensureTable (user : Bool) (t i : Nat) (m : Vm) : Vm × Nat :=
  let w := m.tables t i
  if present w then (if large w then (m, 0) else (m, pfn w))
  else match pmmAlloc m.pmm .table 1 with
    | (pmm, 0) => ({ m with pmm }, 0)
    | (pmm, phys) =>
      let flags := 0x3 ||| (if user then 0x4 else 0x0)
      ({ m with pmm, tables := Radix.write (Radix.zero m.tables phys 0) t i (entry (pageAddr phys) flags) }, phys)

/-- `paging_ensure_table` for one level after the other. -/
def ensureTables : Nat → List Nat → Vm → Vm × Nat
  | t, [], m => (m, t)
  | t, i :: path, m =>
    match ensureTable true t i m with
    | (m, 0) => (m, 0)
    | (m, child) => ensureTables child path m

def mapUser (pml4 : Nat) (virt phys flags : BitVec 64) (m : Vm) : Vm × Bool :=
  if pml4 = 0 ∨ virt &&& 0xFFF ≠ 0 ∨ phys &&& 0xFFF ≠ 0 then (m, false)
  else match ensureTables pml4 [idxL4 virt, idxL3 virt, idxL2 virt] m with
    | (m, 0) => (m, false)
    | (m, l1) => ({ m with tables := Radix.write m.tables l1 (idxL1 virt) (entry phys flags) }, true)

/-- Returns the page that was mapped, or 0. -/
def unmapUser (pml4 : Nat) (virt : BitVec 64) (m : Vm) : Vm × Nat :=
  if pml4 = 0 ∨ virt &&& 0xFFF ≠ 0 then (m, 0)
  else
    let e4 := m.tables pml4 (idxL4 virt)
    if !present e4 then (m, 0)
    else
      let e3 := m.tables (pfn e4) (idxL3 virt)
      if !present e3 then (m, 0)
      else
        let e2 := m.tables (pfn e3) (idxL2 virt)
        if !present e2 || large e2 then (m, 0)
        else
          let e1 := m.tables (pfn e2) (idxL1 virt)
          if !present e1 then (m, 0)
          else ({ m with tables := Radix.write m.tables (pfn e2) (idxL1 virt) 0 }, pfn e1)

/-- The entry by which the processor reaches the page of 4 KB, if it does. -/
def lookup (m : Vm) (pml4 : Nat) (virt : BitVec 64) : Option (BitVec 64) :=
  let e4 := m.tables pml4 (idxL4 virt)
  if !present e4 then none
  else
    let e3 := m.tables (pfn e4) (idxL3 virt)
    if !present e3 || large e3 then none
    else
      let e2 := m.tables (pfn e3) (idxL2 virt)
      if !present e2 || large e2 then none
      else
        let e1 := m.tables (pfn e2) (idxL1 virt)
        if present e1 then some e1 else none

/-! ## Address spaces -/

/-- `kernel` is `saved_cr3`. Returns the new PML4, or 0. -/
def newAddressSpace (kernel : Nat) (m : Vm) : Vm × Nat :=
  match pmmAlloc m.pmm .pml4 1 with
  | (pmm, 0) => ({ m with pmm }, 0)
  | (pmm, pml4) => ({ m with pmm, tables := fun t i => if t = pml4 then m.tables kernel i else m.tables t i }, pml4)

def freeSubtree (tables : Nat → Nat → BitVec 64) : Nat → Nat → Pmm → Pmm
  | 0, _, pmm => pmm
  | level + 1, table, pmm =>
    let pmm := (List.range 512).foldl (fun pmm i =>
      let ent := tables table i
      if !present ent then pmm
      else if large ent then pmm
      else if level + 1 > 1 then freeSubtree tables level (pfn ent) pmm
      else if !mmio ent then pmmFree pmm (pfn ent) 1
      else pmm) pmm
    pmmFree pmm table 1

def freeAddressSpace (kernel pml4 : Nat) (m : Vm) : Vm :=
  if pml4 = 0 ∨ pml4 = kernel then m
  else
    let pmm := (List.range 512).foldl (fun pmm i =>
      let ent := m.tables pml4 i
      if !present ent then pmm
      else if ent = m.tables kernel i then pmm
      else freeSubtree m.tables 3 (pfn ent) pmm) m.pmm
    { m with pmm := pmmFree pmm pml4 1 }

end Siathos.Paging
