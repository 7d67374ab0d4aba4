import Mathlib.Algebra.Group.Nat.Defs
import Siathos.Lib.Run
import Siathos.Lib.Span

/-!
# The kernel heap (`util.c`)

`heap_init`, `kmalloc` and `kfree`. The chain of `next` pointers from `heap_head` is a list of
nodes. This is exact as long as nothing writes over a header, which the tiling of the chunks
by the nodes implies. The PMM appears as the bases that `pmm_alloc` answers.
-/

open Lib Lib.Span

namespace Siathos.Heap

def heapMagic : Nat := 0x7A15

/-- `sizeof(heap_node_t)`: magic, size, free and next, padded to 8 bytes each. -/
def sizeofHeapNode : Nat := 32

/-- A `heap_node_t` at the address `addr`. -/
structure HeapNode where
  addr : Nat
  magic : Nat
  size : Nat
  free : Bool
  deriving DecidableEq, Repr

/-- The pointer that `kmalloc` returns for the node. -/
def HeapNode.ptr (n : HeapNode) : Nat := n.addr + sizeofHeapNode

/-- The header and the bytes after it. -/
def HeapNode.extent (n : HeapNode) : Span := ⟨n.addr, sizeofHeapNode + n.size⟩

/-- The bytes that belong to the caller. -/
def HeapNode.block (n : HeapNode) : Span := ⟨n.ptr, n.size⟩

/-- `heap_ready` and the list from `heap_head`. `chunks` is ghost state: what `pmm_alloc` handed
to the heap so far. -/
structure HeapState where
  ready : Bool
  nodes : List HeapNode
  chunks : List Span
  deriving DecidableEq, Repr

/-- The range of `pages` pages that `pmm_alloc` returned at `base`. -/
def chunk (pages base : Nat) : Span := ⟨base, pages * 4096⟩

def freshNode (pages base : Nat) : HeapNode :=
  ⟨base, heapMagic, pages * 4096 - sizeofHeapNode, true⟩

/-- `heap_init`, where `pmm_alloc(1024)` answers `mem`. -/
def heapInit : Option Nat → HeapState
  | none => ⟨false, [], []⟩
  | some mem => ⟨true, [freshNode 1024 mem], [chunk 1024 mem]⟩

/-! ## kmalloc -/

/-- `(size+15)&~(size_t)15`, where the sum wraps. -/
def roundUp16 (size : Nat) : Nat := (size + 15) % 2 ^ 64 / 16 * 16

inductive Result
  | ptr (p : Nat)
  | null
  /-- A node without `HEAP_MAGIC`: the kernel stops. -/
  | halt
  deriving DecidableEq, Repr

/-- What `kmalloc` does to the first node that fits: the rest of a large node becomes a free
node behind it. `cur->size >= size` holds here, so the sums are sizes of memory and do not wrap. -/
def carve (cur : HeapNode) (size : Nat) : List HeapNode :=
  if cur.size ≥ size + sizeofHeapNode + 32 then
    [{ cur with size := size, free := false },
      ⟨cur.addr + sizeofHeapNode + size, heapMagic, cur.size - size - sizeofHeapNode, true⟩]
  else [{ cur with free := false }]

/-- How the walk over the nodes ends. -/
inductive Walk
  | halt
  | found (nodes : List HeapNode) (p : Nat)
  | none
  deriving DecidableEq, Repr

/-- The loop `while(cur)` of `kmalloc`. -/
def walk : List HeapNode → Nat → Walk
  | [], _ => .none
  | cur :: rest, size =>
    if cur.magic ≠ heapMagic then .halt
    else if cur.free && decide (cur.size ≥ size) then .found (carve cur size ++ rest) cur.ptr
    else match walk rest size with
      | .found nodes p => .found (cur :: nodes) p
      | w => w

/-- The new chunk of 256 pages becomes the last node. -/
def HeapState.grow (h : HeapState) (more : Nat) : HeapState :=
  { h with nodes := h.nodes ++ [freshNode 256 more], chunks := h.chunks ++ [chunk 256 more] }

/-- `kmalloc` up to its call of `pmm_alloc`: nothing when it gets there. -/
def kmallocHere (h : HeapState) (size : Nat) : Option (HeapState × Result) :=
  if !h.ready || decide (size = 0) then some (h, .null)
  else match walk h.nodes (roundUp16 size) with
    | .halt => some (h, .halt)
    | .found nodes p => some ({ h with nodes }, .ptr p)
    | .none => none

/-- `kmalloc`. The list holds what `pmm_alloc(256)` answers, one base for each call. At its end
`pmm_alloc` answers 0. The recursion is the `return kmalloc(size)` of the source. -/
def kmalloc (h : HeapState) (size : Nat) : List Nat → HeapState × Result
  | [] => (kmallocHere h size).getD (h, .null)
  | more :: grants =>
    match kmallocHere h size with
    | some r => r
    | none => kmalloc (h.grow more) (roundUp16 size) grants

/-! ## kfree -/

/-- The loop over `n->next` that merges free neighbours of the list. -/
def coalesce : List HeapNode → List HeapNode
  | [] => []
  | [n] => [n]
  | n :: m :: rest =>
    if n.free && m.free then coalesce ({ n with size := n.size + (sizeofHeapNode + m.size) } :: rest)
    else n :: coalesce (m :: rest)
  termination_by l => l.length

/-- Marks the first node whose block starts at `p` as free. -/
def markFree (p : Nat) : List HeapNode → List HeapNode
  | [] => []
  | cur :: rest => if cur.ptr = p then { cur with free := true } :: rest else cur :: markFree p rest

/-- `kfree`. A pointer that is no node's block leaves the heap as it is. -/
def kfree (h : HeapState) (p : Nat) : HeapState :=
  if p = 0 then h
  else if h.nodes.any (fun n => n.ptr = p) then { h with nodes := coalesce (markFree p h.nodes) }
  else h

/-! ## Runs -/

/-- A pointer in use, with the size that was asked for. -/
structure Live where
  ptr : Nat
  size : Nat
  deriving DecidableEq, Repr

structure State where
  heap : HeapState
  live : List Live
  deriving DecidableEq, Repr

inductive Op
  | kmalloc (size : Nat) (grants : List Nat)
  | kfree (p : Nat)
  deriving DecidableEq, Repr

def boot (mem : Option Nat) : State := ⟨heapInit mem, []⟩

/-- The contract of `pmm_alloc`: the ranges do not overlap each other or earlier ones. -/
def Placed (chunks : List Span) (grants : List Nat) : Prop :=
  (chunks ++ grants.map (chunk 256)).Pairwise Apart

def addLive (size : Nat) (live : List Live) : Result → List Live
  | .ptr p => ⟨p, size⟩ :: live
  | _ => live

/-- One call: any `size_t` for `kmalloc`, and any pointer in use for `kfree`. -/
inductive Step : State → Op → State → Prop
  | kmalloc (s : State) (size : Nat) (grants : List Nat) (hsize : size < 2 ^ 64)
      (hplaced : Placed s.heap.chunks grants) :
      Step s (.kmalloc size grants)
        ⟨(kmalloc s.heap size grants).1, addLive size s.live (kmalloc s.heap size grants).2⟩
  | kfree (s : State) (p : Nat) (hp : p ∈ s.live.map (·.ptr)) :
      Step s (.kfree p) ⟨kfree s.heap p, s.live.filter (fun l => l.ptr ≠ p)⟩

/-! ## What the heap owes its callers -/

/-- The blocks that callers hold. -/
def HeapState.blocks (h : HeapState) : List Span := (h.nodes.filter (fun n => !n.free)).map (·.block)

structure Safe (s : State) : Prop where
  /-- Each pointer in use is the block of one allocated node, as large as asked for. -/
  large : ∀ l ∈ s.live, ∃ n ∈ s.heap.nodes, n.free = false ∧ n.ptr = l.ptr ∧ l.size ≤ n.size
  /-- Two calls never share a pointer. -/
  distinct : (s.live.map (·.ptr)).Nodup
  /-- An allocated node is in use. -/
  used : ∀ n ∈ s.heap.nodes, n.free = false → n.ptr ∈ s.live.map (·.ptr)
  disjoint : s.heap.blocks.Pairwise Apart
  inChunk : ∀ b ∈ s.heap.blocks, ∃ c ∈ s.heap.chunks, Within b c
  tiles : Tiles (s.heap.nodes.map (·.extent)) s.heap.chunks

end Siathos.Heap
