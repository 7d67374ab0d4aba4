import Siathos.Paging.Model
import Siathos.Proc.Umap

/-!
# The memory of processes (`proc.c`, `SYS_MMAP`, `SYS_DEV_MAP`)

How processes get their kernel stack, their address space and their pages, and how these are given back.
-/

open Lib Siathos.Paging

namespace Siathos.Proc.Memory

/-- The fields of `process_t` that name memory, and whether it has ended. A `stack` or `cr3` of 0 is none. -/
structure Pcb where
  present : Bool
  terminated : Bool
  pid : Nat
  stack : Nat
  cr3 : Nat
  isUser : Bool
  umap : List Region
  umapHeap : Option Nat
  devioBase : BitVec 64
  devioUsed : BitVec 64
  deriving DecidableEq, Repr

def maxProcs : Nat := 64

/-- `blocks` are the heap blocks in use, `current` is a slot of the table, and `active` is cr3. `chunks` and
`stray` are ghost state: the pages by which the heap has grown, and whether `kfree` was called for a block that
is not in use. -/
structure Sys where
  vm : Vm
  blocks : List Nat
  procs : Nat → Pcb
  nextPid : Nat
  current : Nat
  active : Nat
  running : Bool
  chunks : List Nat
  stray : Bool

def Sys.set (s : Sys) (i : Nat) (p : Pcb) : Sys :=
  { s with procs := fun j => if j = i then p else s.procs j }

/-! ## The heap -/

def sizeofHeapNode : Nat := 32

/-- `kmalloc(PROC_STACK_SIZE)`. `room` is the block that the walk over the nodes finds, if it finds one.
Otherwise the heap grows, and the block is the first of the new chunk. -/
def kmalloc (room : Option Nat) (s : Sys) : Sys × Nat :=
  match room with
  | some p => ({ s with blocks := p :: s.blocks }, p)
  | none =>
    let (pmm, more) := pmmAlloc s.vm.pmm .heap 256
    if more = 0 then ({ s with vm := { s.vm with pmm } }, 0)
    else
      let p := more * 4096 + sizeofHeapNode
      ({ s with vm := { s.vm with pmm }, blocks := p :: s.blocks, chunks := List.range' more 256 ++ s.chunks }, p)

def kfree (p : Nat) (s : Sys) : Sys :=
  if p = 0 then s
  else { s with blocks := s.blocks.erase p, stray := s.stray || !s.blocks.contains p }

/-! ## Ring 0 -/

def findFree (s : Sys) : Option Nat :=
  (List.range maxProcs).find? fun i => !(s.procs i).present || (s.procs i).terminated

/-- `proc_create_argv`. Returns the pid, or an error below 0. -/
def createArgv (kernel : Nat) (room : Option Nat) (s : Sys) : Sys × Int :=
  match findFree s with
  | none => (s, -1)
  | some idx =>
    let p := { s.procs idx with
      present := true, terminated := false, pid := s.nextPid, isUser := false, umap := [], umapHeap := none }
    let s := { s with nextPid := s.nextPid + 1 }
    let (s, stack) := kmalloc room s
    if stack = 0 then (s.set idx { p with present := false, stack := 0 }, -2)
    else
      let (vm, cr3) := newAddressSpace kernel s.vm
      ({ s with vm }.set idx { p with stack, cr3 }, p.pid)

/-! ## Ring 3 -/

def userVaddrBase : BitVec 64 := 0x200000000000

def userStackPages : Nat := 16

/-- Maps `n` pages one after the other. The results are not looked at. -/
def mapPages (pml4 : Nat) (base : BitVec 64) (page : Nat) (flags : BitVec 64) (n : Nat) (m : Vm) : Vm :=
  (List.range n).foldl (fun m i =>
    (mapUser pml4 (base + BitVec.ofNat 64 (i * 0x1000)) (pageAddr (page + i)) flags m).1) m

/-- `memset`, or `memcpy`, at the physical address `dst`. -/
def fill (m : Vm) (dst len : Nat) (v : Nat → BitVec 8) : Vm :=
  { m with bytes := fun a => if dst ≤ a ∧ a < dst + len then v (a - dst) else m.bytes a }

/-- `max_end` of `proc_enter_user`, rounded up to a page. -/
def maxEnd (code : List Region) : BitVec 64 :=
  (code.foldl (fun m r => if r.base + r.size > m then r.base + r.size else m) 0 + 0xFFF) &&& ~~~0xFFF

/-- `proc_enter_user`. `zone` is what the layout of `argc` and `argv` leaves in the last page of the stack. -/
def enterUser (pm : Nat) (code : List Region) (zone : Nat → BitVec 8) (p : Pcb) (m : Vm) : Vm × Option Pcb :=
  let userStackBase := maxEnd code + 0x10000
  let (pmm, userStack) := pmmAlloc m.pmm .userStack userStackPages
  if userStack = 0 then ({ m with pmm }, none)
  else
    let m := mapPages pm userStackBase userStack (0x7 ||| nx) userStackPages { m with pmm }
    let m := fill m ((userStack + 15) * 0x1000) 0x1000 zone
    (m, some { p with
      isUser := true
      umap := code ++ [⟨userStackBase, BitVec.ofNat 64 (userStackPages * 0x1000)⟩]
      umapHeap := none })

/-- `proc_create_user_args`, with the code of `userSize` bytes at the address `userCode`. -/
def createUserArgs (kernel : Nat) (room : Option Nat) (userCode : Nat → BitVec 8) (userSize : Nat)
    (zone : Nat → BitVec 8) (s : Sys) : Sys × Int :=
  match findFree s with
  | none => (s, -1)
  | some idx =>
    let p := { s.procs idx with present := true, terminated := false, pid := s.nextPid }
    let s := { s with nextPid := s.nextPid + 1 }
    let (s, stack) := kmalloc room s
    if stack = 0 then (s.set idx { p with present := false, stack := 0 }, -2)
    else
      let (vm, pm) := newAddressSpace kernel s.vm
      let s := { s with vm }
      if pm = 0 then ((kfree stack s).set idx { p with present := false, stack }, -3)
      else
        let p := { p with stack, cr3 := pm }
        let pages := (userSize + 0xFFF) / 0x1000
        let codePages := if pages = 0 ∨ pages > 512 then 512 else pages
        let (pmm, codePhys) := pmmAlloc s.vm.pmm .code codePages
        let s := { s with vm := { s.vm with pmm } }
        if codePhys = 0 then ((kfree stack s).set idx { p with present := false }, -4)
        else
          let vm := fill s.vm (codePhys * 0x1000) userSize userCode
          let vm := mapPages pm userVaddrBase codePhys 0x5 codePages vm
          match enterUser pm [⟨userVaddrBase, BitVec.ofNat 64 (codePages * 0x1000)⟩] zone p vm with
          | (vm, none) => ((kfree stack { s with vm }).set idx { p with present := false }, -5)
          | (vm, some p) => ({ s with vm }.set idx p, p.pid)

/-- `ureg_t`, with `src` as the offset in the image. -/
structure Ureg where
  vaddr : BitVec 64
  src : BitVec 64
  fileSz : BitVec 64
  memSz : BitVec 64
  flags : BitVec 32
  deriving DecidableEq, Repr

def Ureg.base (r : Ureg) : BitVec 64 := r.vaddr &&& ~~~0xFFF

def Ureg.off (r : Ureg) : BitVec 64 := r.vaddr - r.base

/-- `npages`, where the sums wrap. -/
def Ureg.pages (r : Ureg) : Nat :=
  let n := (r.off + r.memSz + 0xFFF) >>> 12
  if n = 0 then 1 else n.toNat

/-- W^X: `PF_X` is bit 0 and `PF_W` is bit 1. -/
def Ureg.pageFlags (r : Ureg) : BitVec 64 :=
  if r.flags.getLsbD 0 then 0x5 else if r.flags.getLsbD 1 then 0x7 ||| nx else 0x1 ||| nx

/-- The loop over the regions, which gives the `umap` of the code or an error. -/
def loadRegions (pm : Nat) (img : Nat → BitVec 8) : List Ureg → List Region → Vm → Vm × Except Int (List Region)
  | [], code, m => (m, .ok code)
  | r :: rest, code, m =>
    if r.base < userVaddrBase then (m, .error (-10))
    else
      let (pmm, phys) := pmmAlloc m.pmm .segment r.pages
      if phys = 0 then ({ m with pmm }, .error (-11))
      else
        let m := fill { m with pmm } (phys * 0x1000) (r.pages * 0x1000) fun _ => 0
        let m := fill m (phys * 0x1000 + r.off.toNat) r.fileSz.toNat fun a => img (r.src.toNat + a)
        let m := mapPages pm r.base phys r.pageFlags r.pages m
        loadRegions pm img rest (code ++ [⟨r.base, BitVec.ofNat 64 (r.pages * 0x1000)⟩]) m

/-- `proc_create_user_regions`. -/
def createUserRegions (kernel : Nat) (room : Option Nat) (img : Nat → BitVec 8) (regs : List Ureg)
    (zone : Nat → BitVec 8) (s : Sys) : Sys × Int :=
  if regs.length = 0 ∨ regs.length > 7 then (s, -9)
  else match findFree s with
  | none => (s, -1)
  | some idx =>
    let p := { s.procs idx with present := true, terminated := false, pid := s.nextPid }
    let s := { s with nextPid := s.nextPid + 1 }
    let (s, stack) := kmalloc room s
    if stack = 0 then (s.set idx { p with present := false, stack := 0 }, -2)
    else
      let (vm, pm) := newAddressSpace kernel s.vm
      let s := { s with vm }
      if pm = 0 then ((kfree stack s).set idx { p with present := false, stack }, -3)
      else
        let p := { p with stack, cr3 := pm }
        match loadRegions pm img regs [] s.vm with
        | (vm, .error e) =>
          ((kfree stack { s with vm := freeAddressSpace kernel pm vm }).set idx { p with present := false }, e)
        | (vm, .ok code) =>
          match enterUser pm code zone p vm with
          | (vm, none) => ((kfree stack { s with vm }).set idx { p with present := false }, -5)
          | (vm, some p) => ({ s with vm }.set idx p, p.pid)

/-! ## System calls -/

def err : BitVec 64 := 0xFFFFFFFFFFFFFFFF

/-- The rollback of `SYS_MMAP`. -/
def unmapPages (pml4 : Nat) (base : BitVec 64) (n : Nat) (m : Vm) : Vm :=
  (List.range n).foldl (fun m i =>
    let (m, f) := unmapUser pml4 (base + BitVec.ofNat 64 (i * 0x1000)) m
    if f = 0 then m else { m with pmm := pmmFree m.pmm f 1 }) m

/-- The loop of `SYS_MMAP`, with `n` pages to go. Gives the number of pages mapped before a failure. -/
def mmapPages (pml4 : Nat) (base : BitVec 64) (done : Nat) : Nat → Vm → Vm × Option Nat
  | 0, m => (m, none)
  | n + 1, m =>
    let (pmm, phys) := pmmAlloc m.pmm .mmap 1
    if phys = 0 then ({ m with pmm }, some done)
    else
      match mapUser pml4 (base + BitVec.ofNat 64 (done * 0x1000)) (pageAddr phys) (0x7 ||| nx) { m with pmm } with
      | (m, true) => mmapPages pml4 base (done + 1) n m
      | (m, false) => ({ m with pmm := pmmFree m.pmm phys 1 }, some done)

/-- `SYS_MMAP` of the current process. -/
def sysMmap (a1 : BitVec 64) (s : Sys) : Sys × BitVec 64 :=
  let p := s.procs s.current
  let pages := if a1 = 0 then 1 else a1.toNat
  if !p.isUser then (s, err)
  else if pages > 8192 then (s, err)
  else if p.umapHeap = none ∧ p.umap.length ≥ umapMax then (s, err)
  else
    let slot := p.umapHeap.getD p.umap.length
    let umap := if p.umapHeap = none then p.umap ++ [⟨heapStart p.umap, 0⟩] else p.umap
    let heap := umap.getD slot ⟨0, 0⟩
    let base := heap.base + heap.size
    match mmapPages p.cr3 base 0 pages s.vm with
    | (vm, some done) =>
      let mapped := base + BitVec.ofNat 64 (done * 0x1000)
      ({ s with vm := unmapPages p.cr3 base (if base < mapped then done else 0) vm }, err)
    | (vm, none) =>
      let mapped := base + BitVec.ofNat 64 (pages * 0x1000)
      ({ s with vm }.set s.current { p with
        umap := umap.set slot ⟨heap.base, mapped - heap.base⟩
        umapHeap := some slot }, base)

def userDevioBase : BitVec 64 := 0x00007ff000000000

def pteAvailMmio : BitVec 64 := 1 <<< 11

/-- The loop of `SYS_DEV_MAP`, with `n` pages to go. -/
def devPages (pml4 : Nat) (va phys : BitVec 64) : Nat → Vm → Vm × Bool
  | 0, m => (m, true)
  | n + 1, m =>
    match mapUser pml4 va phys (0x7 ||| nx ||| pteAvailMmio) m with
    | (m, false) => (m, false)
    | (m, true) => devPages pml4 (va + 0x1000) (phys + 0x1000) n m

/-- `SYS_DEV_MAP` of the current process, which holds `CAP_DEV_IO`. -/
def sysDevMap (a1 a2 : BitVec 64) (s : Sys) : Sys × BitVec 64 :=
  let p := s.procs s.current
  if !p.isUser then (s, err)
  else if a1 &&& 0xFFF ≠ 0 ∨ a2 = 0 ∨ a2 > 0x100000 then (s, err)
  else
    let size := (a2 + 0xFFF) &&& ~~~0xFFF
    let p := { p with devioBase := if p.devioBase = 0 then userDevioBase else p.devioBase }
    let va := p.devioBase + p.devioUsed
    match devPages p.cr3 va a1 (size.toNat / 0x1000) s.vm with
    | (vm, false) => ({ s with vm }.set s.current p, err)
    | (vm, true) => ({ s with vm }.set s.current { p with devioUsed := p.devioUsed + size }, va)

/-! ## Scheduling -/

/-- The address space of `next` is loaded, if it has one. -/
def load (next : Nat) (s : Sys) : Sys :=
  { s with current := next, active := if (s.procs next).cr3 = 0 then s.active else (s.procs next).cr3 }

/-- A switch stores the active address space in the process that it leaves. -/
def switch (next : Nat) (s : Sys) : Sys :=
  load next (s.set s.current { s.procs s.current with cr3 := s.active })

/-- `proc_exit`, where `next` goes on. -/
def procExit (next : Nat) (s : Sys) : Sys :=
  load next (s.set s.current { s.procs s.current with terminated := true })

/-- One turn of the loop of `proc_gc_run`. -/
def collect (kernel : Nat) (s : Sys) (i : Nat) : Sys :=
  let p := s.procs i
  if !p.present || !p.terminated then s
  else
    let s := if p.stack = 0 then s else kfree p.stack s
    let freed := p.cr3 ≠ 0 ∧ p.cr3 ≠ s.active
    let s := if freed then { s with vm := freeAddressSpace kernel p.cr3 s.vm } else s
    s.set i { p with present := false, stack := 0, cr3 := if freed then 0 else p.cr3 }

def procGcRun (kernel : Nat) (s : Sys) : Sys := (List.range maxProcs).foldl (collect kernel) s

end Siathos.Proc.Memory
