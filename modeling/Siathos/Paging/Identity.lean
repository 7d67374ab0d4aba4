import Mathlib.Logic.Function.Basic
import Siathos.Lib.Run
import Siathos.Lib.Places
import Siathos.Paging.Pages

/-!
# Identity maps of devices (`paging.c`)

The address spaces of all processes, as the calls of `paging.c` and the processor change them.
`paging_map_device_identity` writes to the tables of the kernel and of every process that is there.
-/

open Lib

namespace Siathos.Paging.Identity

/-! ## `pml4_map_device` -/

/-- The entry `i` of `t` gets a table if it has none. False when no page is left. -/
def deviceTable (t i : Nat) (m : Vm) : Vm × Bool :=
  if present (m.tables t i) then (m, true)
  else match pmmAlloc m.pmm .table 1 with
    | (pmm, 0) => ({ m with pmm }, false)
    | (pmm, tab) =>
      ({ m with pmm, tables := Radix.write (Radix.zero m.tables tab 0) t i (entry (pageAddr tab) 0x3) }, true)

/-- One page of 2 MB. It does not look at what the last entry was. -/
def pml4MapDevice (pml4 : Nat) (phys : BitVec 64) (m : Vm) : Vm :=
  match deviceTable pml4 (idxL4 phys) m with
  | (m, false) => m
  | (m, true) =>
    let l3 := pfn (m.tables pml4 (idxL4 phys))
    match deviceTable l3 (idxL3 phys) m with
    | (m, false) => m
    | (m, true) =>
      let l2 := pfn (m.tables l3 (idxL3 phys))
      { m with tables := Radix.write m.tables l2 (idxL2 phys) (entry phys 0x83) }

/-! ## All address spaces -/

def maxProcs : Nat := 64

/-- `kernel` is `saved_cr3`, and `cr3` the PML4 of the process in each slot, or 0. `tabs` is ghost state: the
pages that were taken in calls for the address space, other than its PML4. -/
structure Os where
  kernel : Nat
  vm : Vm
  cr3 : Nat → Nat
  tabs : Nat → List Nat

/-- The pages that were free and are in use. -/
def taken (m m' : Vm) : List Nat := (List.range m.pmm.total).filter fun f => !m.pmm.used f && m'.pmm.used f

/-- A call for the address space of the slot `k`. -/
def Os.call (s : Os) (k : Nat) (f : Vm → Vm) : Os :=
  { s with vm := f s.vm, tabs := Function.update s.tabs k (taken s.vm (f s.vm) ++ s.tabs k) }

def mapDeviceFor (a : BitVec 64) (s : Os) (k : Nat) : Os :=
  if s.cr3 k = 0 ∨ s.cr3 k = s.kernel then s else s.call k (pml4MapDevice (s.cr3 k) a)

def mapDevicePage (s : Os) (a : BitVec 64) : Os :=
  (List.range maxProcs).foldl (mapDeviceFor a) { s with vm := pml4MapDevice s.kernel a s.vm }

/-- The addresses of the loop of `paging_map_device_identity`. -/
def devicePages (phys bytes : BitVec 64) : List (BitVec 64) :=
  let start := phys &&& ~~~0x1FFFFF
  let stop := (phys + bytes + 0x1FFFFF) &&& ~~~0x1FFFFF
  (List.range ((stop.toNat - start.toNat) / 0x200000)).map fun n => start + BitVec.ofNat 64 (n * 0x200000)

def mapDeviceIdentity (phys bytes : BitVec 64) (s : Os) : Os := (devicePages phys bytes).foldl mapDevicePage s

/-! ## Runs -/

inductive Op
  | take (why : Purpose) (pages : Nat)
  | create (k : Nat)
  | mapUser (k : Nat) (virt phys flags : BitVec 64)
  | mapDevice (phys bytes : BitVec 64)
  | touch (pml4 i : Nat) (dirty : Bool)
  | free (k : Nat)
  deriving DecidableEq, Repr

/-- The processor sets `Accessed`, or `Dirty`. -/
def touched (dirty : Bool) (w : BitVec 64) : BitVec 64 := w ||| (if dirty then 0x40 else 0x20)

def Os.step (s : Os) : Op → Os
  | .take why pages => { s with vm := { s.vm with pmm := (pmmAlloc s.vm.pmm why pages).1 } }
  | .create k =>
    let made := newAddressSpace s.kernel s.vm
    { s with vm := made.1, cr3 := Function.update s.cr3 k made.2, tabs := Function.update s.tabs k [] }
  | .mapUser k virt phys flags => s.call k fun m => (mapUser (s.cr3 k) virt phys flags m).1
  | .mapDevice phys bytes => mapDeviceIdentity phys bytes s
  | .touch pml4 i dirty =>
    { s with vm := { s.vm with tables := Radix.write s.vm.tables pml4 i (touched dirty (s.vm.tables pml4 i)) } }
  | .free k => { s with vm := freeAddressSpace s.kernel (s.cr3 k) s.vm, cr3 := Function.update s.cr3 k 0 }

/-- A process is made in a slot that has none, and maps pages where the kernel has no PML4 entry. The processor
walks the tables of the kernel and of processes. -/
def Os.Allowed (s : Os) : Op → Prop
  | .take _ _ => True
  | .create k => k < maxProcs ∧ s.cr3 k = 0
  | .mapUser k virt _ _ => s.cr3 k ≠ 0 ∧ present (s.vm.tables s.kernel (idxL4 virt)) = false
  | .mapDevice _ _ => True
  | .touch pml4 i _ =>
    (pml4 = s.kernel ∨ ∃ k, s.cr3 k ≠ 0 ∧ s.cr3 k = pml4) ∧ i < 512 ∧ present (s.vm.tables pml4 i) = true
  | .free k => s.cr3 k ≠ 0

abbrev Step : Os → Op → Os → Prop := Exec Os.Allowed Os.step

/-! ## Whose pages -/

/-- The process's entry names the table that the kernel's entry names. -/
def Os.shares (s : Os) (k i : Nat) : Bool :=
  present (s.vm.tables (s.cr3 k) i) && present (s.vm.tables s.kernel i) &&
    decide (pfn (s.vm.tables (s.cr3 k) i) = pfn (s.vm.tables s.kernel i))

/-- The kernel's tree is `none`. Its pages are those of its tables. -/
def Os.roots (s : Os) : Option Nat → Option Nat
  | none => some s.kernel
  | some k => if s.cr3 k = 0 then none else some (s.cr3 k)

def ownPaths (shares : Nat → Nat → Bool) : Radix.Own (Option Nat) where
  Ok
    | none, p => p.length ≤ 3 ∧ ∀ i ∈ p, i < 512
    | some k, p => (own (shares k)).Ok p
  nil k := by
    cases k with
    | none => simp
    | some k => exact own_nil (shares k)
  init k p i h := by
    cases k with
    | none =>
      obtain ⟨hlen, hlt⟩ := h
      rw [List.length_append] at hlen
      exact ⟨by omega, fun j hj => hlt j (List.mem_append_left _ hj)⟩
    | some k => exact (own (shares k)).init p i h

/-- The page is a table of the tree, or a page of memory mapped by it. -/
def Os.Has (s : Os) (k : Option Nat) (f : Nat) : Prop :=
  ∃ q, (ownPaths s.shares).Ok k q ∧ Radix.seat next s.roots s.vm.tables k q = some f

/-- A table reachable from the kernel's PML4. -/
def Os.KernelTable (s : Os) (f : Nat) : Prop := s.Has none f

/-- A page that the process reaches in a slot of its own, and that is not marked `PTE_AVAIL_MMIO`. -/
def Os.Leaf (s : Os) (k f : Nat) : Prop :=
  ∃ virt w, s.shares k (idxL4 virt) = false ∧ lookup s.vm (s.cr3 k) virt = some w ∧ mmio w = false ∧ pfn w = f

/-- The pages that `paging_free_address_space` calls `pmm_free` for, in its order. -/
def Os.freed (s : Os) (k : Nat) : List Nat :=
  treeOf (fun i => decide (s.vm.tables (s.cr3 k) i = s.vm.tables s.kernel i)) s.vm.tables (s.cr3 k)

/-- What `paging_free_address_space` should do for the slot `k`. -/
structure Exact (device : Nat → Prop) (s : Os) (k : Nat) : Prop where
  runs : freeAddressSpace s.kernel (s.cr3 k) s.vm = { s.vm with pmm := freeAll s.vm.pmm (s.freed k) }
  once : (s.freed k).Nodup
  exactly : ∀ f, f ∈ s.freed k ↔ f = s.cr3 k ∨ f ∈ s.tabs k ∨ s.Leaf k f
  frees : Frees s.vm.pmm (freeAll s.vm.pmm (s.freed k)) (s.freed k)
  spares : ∀ f ∈ s.freed k, ¬ s.KernelTable f ∧ ¬ device f

/-! ## When the source does it -/

/-- An entry that names a table of the kernel is still, bit for bit, the entry of the kernel. -/
def Os.Agrees (s : Os) (k : Nat) : Prop :=
  ∀ i < 512, s.shares k i = true → s.vm.tables (s.cr3 k) i = s.vm.tables s.kernel i

/-- The page `c` is memory that is in use, and no address space has it, except where it is to be mapped. -/
structure Os.Lent (device : Nat → Prop) (s : Os) (k : Nat) (virt : BitVec 64) (c : Nat) : Prop where
  ne_zero : c ≠ 0
  inRange : c < s.vm.pmm.total
  used : s.vm.pmm.used c = true
  memory : ¬ device c
  free : ∀ K q, (ownPaths s.shares).Ok K q → Radix.seat next s.roots s.vm.tables K q = some c →
    K = some k ∧ q = tablePath virt ++ [idxL1 virt]

/-- Memory is mapped in one place, by an entry without bit 7. A device is not mapped over a table of pages of
4 KB, and an address space is freed while its entries agree with the kernel's. -/
def Os.Clean (device : Nat → Prop) (s : Os) : Op → Prop
  | .mapUser k virt phys flags =>
    present flags = true → mmio flags = false → large flags = false ∧ s.Lent device k virt (pfn (entry phys flags))
  | .mapDevice phys bytes => ∀ a ∈ devicePages phys bytes, ∀ k, s.shares k (idxL4 a) = false →
    Radix.seat next s.roots s.vm.tables (some k) (tablePath a) = none
  | .free k => s.Agrees k
  | _ => True

/-- The state after the boot: no process, and a tree of tables for the kernel where no table is used twice. -/
structure Booted (device : Nat → Prop) (s : Os) : Prop where
  total : s.vm.pmm.total ≤ 2 ^ 36
  null : s.vm.pmm.used 0 = true
  empty : ∀ k, s.cr3 k = 0
  kernelUsed : ∀ f, s.KernelTable f → f ≠ 0 ∧ (f < s.vm.pmm.total → s.vm.pmm.used f = true)
  kernelTree : ∀ q q' f, (ownPaths s.shares).Ok none q → (ownPaths s.shares).Ok none q' →
    Radix.seat next s.roots s.vm.tables none q = some f → Radix.seat next s.roots s.vm.tables none q' = some f → q = q'
  kernelFlat : ∀ q i t, (ownPaths s.shares).Ok none (q ++ [i]) → q.length < 2 →
    Radix.seat next s.roots s.vm.tables none q = some t → present (s.vm.tables t i) = true →
      large (s.vm.tables t i) = false
  deviceUsed : ∀ f, device f → f < s.vm.pmm.total → s.vm.pmm.used f = true

end Siathos.Paging.Identity
