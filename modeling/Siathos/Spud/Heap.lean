import Siathos.Lib.Buffer
import Siathos.Lib.Links

/-!
# The heap of a program (`spud.h`)

`spud_malloc` and `spud_free` over the bytes of memory. The loops are counted: one that has made
more rounds than there are addresses does not end, and the call has no result. Addresses and sizes
of mapped memory are below `2^63`, so that only what is asked for can wrap.
-/

open Lib

namespace Siathos.Spud

/-- `SPUD_HEAP_CHUNK`. -/
def heapChunk : Nat := 64 * 1024

/-- `SPUD_HDRSZ`: the size, the flag `free` in 4 bytes, and at 16 the pointer `next`. -/
def hdrSz : Nat := 24

/-- `SPUD_RBLK`: the footer. -/
def rBlk : Nat := 8

def maxRounds : Nat := 2 ^ 64

/-- The memory, `spud_fl`, `spud_heap_va` and `spud_heap_end`. -/
structure Heap where
  mem : Buf
  fl : Nat
  va : Nat
  stop : Nat

namespace Heap

/-! ## Headers -/

def size (k : Heap) (h : Nat) : Nat := k.mem.numberAt h 8

def free (k : Heap) (h : Nat) : Nat := k.mem.numberAt (h + 8) 4

def next (k : Heap) (h : Nat) : Nat := k.mem.numberAt (h + 16) 8

def store (k : Heap) (a w v : Nat) : Heap := { k with mem := k.mem.write a (littleEndian w v) }

def setSize (k : Heap) (h v : Nat) : Heap := k.store h 8 v

def setFree (k : Heap) (h v : Nat) : Heap := k.store (h + 8) 4 v

def setNext (k : Heap) (h v : Nat) : Heap := k.store (h + 16) 8 v

/-- `*pp`. -/
def read (k : Heap) : Link → Nat
  | .head => k.fl
  | .next h => k.next h

/-- `*pp = v`. -/
def link (k : Heap) : Link → Nat → Heap
  | .head, v => { k with fl := v }
  | .next h, v => k.setNext h v

/-- `spud_blk_next`. -/
def blkNext (k : Heap) (h : Nat) : Nat := h + hdrSz + k.size h + rBlk

/-- `spud_set_footer`. -/
def setFooter (k : Heap) (h : Nat) : Heap := k.store (h + hdrSz + k.size h) 8 (k.size h)

end Heap

/-! ## spud_grow -/

def growPages (want : Nat) : Nat := max 16 ((want + 0xFFF) % 2 ^ 64 / 0x1000)

/-- `va<=0`, where `va` is a `long`. -/
def Refused (va : Nat) : Prop := va = 0 ∨ 2 ^ 63 ≤ va

instance (va : Nat) : Decidable (Refused va) := inferInstanceAs (Decidable (_ ∨ _))

/-- `spud_grow`, where SYS_MMAP answers `mmap` for a number of pages. -/
def Heap.spudGrow (k : Heap) (want : Nat) (mmap : Nat → Nat) : Heap :=
  let pages := growPages want
  let va := mmap pages
  if Refused va then k
  else
    let k := { k with va := if k.va = 0 then va else k.va, stop := va + pages * 0x1000 }
    let k := k.setSize va (pages * 0x1000 - hdrSz - rBlk)
    let k := k.setFree va 1
    let k := k.setNext va k.fl
    let k := k.setFooter va
    { k with fl := va }

/-! ## spud_malloc -/

/-- What `spud_alloc_locked` does to the first block that is large enough: the rest of a large one
takes its place in the list. -/
def Heap.take (k : Heap) (need : Nat) (pp : Link) (h : Nat) : Heap :=
  if k.size h ≥ (need + hdrSz + rBlk + 16) % 2 ^ 64 then
    let after := h + hdrSz + need
    let nk := after + rBlk
    let k := k.setSize nk (k.size h - need - hdrSz - rBlk)
    let k := k.setFree nk 1
    let k := k.setNext nk (k.next h)
    let k := k.setSize h need
    let k := k.setFree h 0
    let k := k.store after 8 need
    let k := k.setFooter nk
    k.link pp nk
  else
    let k := k.setFree h 0
    k.link pp (k.next h)

/-- The loop of `spud_alloc_locked`, and the pointer that it returns. -/
def Heap.allocFrom (k : Heap) (need : Nat) : Nat → Link → Option (Heap × Nat)
  | 0, _ => none
  | rounds + 1, pp =>
    let h := k.read pp
    if h = 0 then some (k, 0)
    else if k.size h ≥ need then some (k.take need pp h, h + hdrSz)
    else allocFrom k need rounds (.next h)

def Heap.spudAllocLocked (k : Heap) (need : Nat) : Option (Heap × Nat) := k.allocFrom need maxRounds .head

/-- How `spud_malloc` ends: `asked` is what SYS_MMAP answered, if it was called. -/
structure Ret where
  heap : Heap
  ptr : Nat
  asked : Option Nat

/-- `n` as `spud_malloc` rounds it: `(n+15)&~(size_t)15`, where the sum wraps. -/
def rounded (n : Nat) : Nat :=
  let n := if n = 0 then 1 else n
  (n + 15) % 2 ^ 64 / 16 * 16

def wanted (need : Nat) : Nat := if need < heapChunk then heapChunk else need

def Heap.spudMalloc (k : Heap) (n : Nat) (mmap : Nat → Nat) : Option Ret :=
  let need := rounded n
  match k.spudAllocLocked need with
  | none => none
  | some (k, p) =>
    if p ≠ 0 then some ⟨k, p, none⟩
    else
      match (k.spudGrow (wanted need) mmap).spudAllocLocked need with
      | none => none
      | some (k, p) => some ⟨k, p, some (mmap (growPages (wanted need)))⟩

/-! ## spud_free -/

/-- The loop of `spud_unlink`, and the write behind it. -/
def Heap.unlinkFrom (k : Heap) (h : Nat) : Nat → Link → Option Heap
  | 0, _ => none
  | rounds + 1, pp =>
    if k.read pp = 0 then some k
    else if k.read pp = h then some (k.link pp (k.next h))
    else unlinkFrom k h rounds (.next (k.read pp))

def Heap.spudUnlink (k : Heap) (h : Nat) : Option Heap := k.unlinkFrom h maxRounds .head

/-- What both loops of `spud_coalesce` do to a block and the free one behind it. -/
def Heap.absorb (k : Heap) (h nx : Nat) : Option Heap := do
  let k ← k.spudUnlink nx
  let k := k.setSize h (k.size h + (hdrSz + rBlk + k.size nx))
  return k.setFooter h

/-- The loop of `spud_coalesce` over the blocks behind `h`. -/
def Heap.mergeNext (k : Heap) (h : Nat) : Nat → Option Heap
  | 0 => none
  | rounds + 1 =>
    let nx := k.blkNext h
    if nx ≥ k.stop then some k
    else if k.free nx = 0 then some k
    else do
      let k ← k.absorb h nx
      mergeNext k h rounds

/-- The loop of `spud_coalesce` over the blocks before `h`. -/
def Heap.mergePrev (k : Heap) : Nat → Nat → Option Heap
  | 0, _ => none
  | rounds + 1, h =>
    if h ≤ k.va then some k
    else
      let pf := k.mem.numberAt (h - rBlk) 8
      if pf = 0 ∨ pf > h - k.va then some k
      else
        let pr := h - rBlk - pf - hdrSz
        if pr < k.va ∨ k.free pr = 0 ∨ k.size pr ≠ pf then some k
        else do
          let k ← k.absorb pr h
          mergePrev k rounds pr

def Heap.spudCoalesce (k : Heap) (h : Nat) : Option Heap := do
  let k ← k.mergeNext h maxRounds
  k.mergePrev maxRounds h

def Heap.spudFree (k : Heap) (ptr : Nat) : Option Heap :=
  if ptr = 0 then some k
  else
    let h := ptr - hdrSz
    let k := k.setFree h 1
    let k := k.setNext h k.fl
    let k := { k with fl := h }
    k.spudCoalesce h

end Siathos.Spud
