import Siathos.Lib.Bits
import Siathos.Lib.Run
import Siathos.Paging.Model

/-!
# The bitmap of physical memory (`util.c`)

`pmm_init`, `pmm_reserve`, `pmm_alloc` and `pmm_free`, on the words of `pmm_bitmap`. `pmm_base` is 0
at all times.
-/

open Lib

namespace Siathos.Frames

def pmmBitmapSize : Nat := 64 * 1024

/-- `pmm_bitmap`, `pmm_pages_total` and `pmm_pages_used`. -/
structure Memory where
  bitmap : Bitmap
  total : Nat
  used : Nat

/-! ## Boot -/

structure MemmapEntry where
  base : BitVec 64
  length : BitVec 64
  type : BitVec 64
  deriving DecidableEq, Repr

/-- What `pmm_init` reads of `thais_boot_info_t`. `memmap` has the first `memmap_count` entries. -/
structure BootInfo where
  magic : BitVec 64
  fbAddr : BitVec 64
  fbWidth : BitVec 64
  fbHeight : BitVec 64
  fbBpp : BitVec 64
  memmap : List MemmapEntry
  kernelPhys : BitVec 64
  kernelSize : BitVec 64
  deriving DecidableEq, Repr

def thaisBootMagic : BitVec 64 := 0x54484149534F53

/-- `sizeof(thais_boot_info_t)`, with its 256 entries. -/
def sizeofBootInfo : BitVec 64 := 6248

def pageMask : BitVec 64 := ~~~0xFFF

/-! ## Reserving -/

/-- One turn of the loop of `pmm_reserve`. -/
def reservePage (s : Memory) (idx : Nat) : Memory :=
  if idx ≥ s.total then s
  else if !s.bitmap.bit idx then { s with bitmap := s.bitmap.set idx, used := s.used + 1 }
  else s

/-- `n` turns, from the page `idx` on. -/
def reservePages : Nat → Nat → Memory → Memory
  | 0, _, s => s
  | n + 1, idx, s => reservePages n (idx + 1) (reservePage s idx)

def pmmReserve (s : Memory) (base size : BitVec 64) : Memory :=
  if size = 0 then s
  else
    let start := base &&& pageMask
    let fin := (base + size + 0xFFF) &&& pageMask
    reservePages ((fin.toNat - start.toNat) / 4096) (start.toNat / 4096) s

/-! ## pmm_init -/

/-- The end of the highest entry. -/
def topOf (memmap : List MemmapEntry) : BitVec 64 :=
  memmap.foldl (fun top e => if (e.base + e.length).toNat > top.toNat then e.base + e.length else top) 0

/-- The loop that makes the pages of an entry free. -/
def clearPages (total : Nat) : Nat → Nat → Bitmap → Bitmap
  | 0, _, m => m
  | n + 1, idx, m => if idx < total then clearPages total n (idx + 1) (m.clear idx) else m

def clearEntry (total : Nat) (m : Bitmap) (e : MemmapEntry) : Bitmap :=
  if e.type ≠ 1 then m
  else clearPages total (e.length.toNat / 4096) (((e.base + 0xFFF) &&& pageMask).toNat / 4096) m

/-- The loop that counts the pages in use. -/
def countUsed (m : Bitmap) : Nat → Nat
  | 0 => 0
  | n + 1 => countUsed m n + if m.bit n then 1 else 0

/-- The memory below the first free entry, or 1 MB. -/
def lowUsed (memmap : List MemmapEntry) : BitVec 64 :=
  let low := ((memmap.find? (·.type == 1)).map (·.base)).getD 0
  if low = 0 ∨ low.toNat > 0x100000 then 0x100000 else low

/-- `pmm_pages_total`: as many pages as the bitmap has bits, at most. -/
def pagesTotal (memmap : List MemmapEntry) : Nat :=
  let top := if topOf memmap = 0 then 0x40000000 else topOf memmap
  let total := top.toNat / 4096 + 1
  if total > pmmBitmapSize * 8 then pmmBitmapSize * 8 else total

/-- `pmm_init`, for the structure at the address `addr`. Nothing where the kernel halts. -/
def pmmInit (addr : BitVec 64) (bi : BootInfo) : Option Memory :=
  if addr = 0 ∨ bi.magic ≠ thaisBootMagic then none
  else
    let total := pagesTotal bi.memmap
    let s : Memory := ⟨bi.memmap.foldl (clearEntry total) fun _ => BitVec.allOnes 64, total, 0⟩
    let s := if bi.kernelPhys ≠ 0 ∧ bi.kernelSize ≠ 0 then pmmReserve s bi.kernelPhys bi.kernelSize else s
    let s := if bi.fbAddr ≠ 0 ∧ bi.fbWidth ≠ 0 ∧ bi.fbHeight ≠ 0 then
        pmmReserve s bi.fbAddr (bi.fbWidth * bi.fbHeight * (bi.fbBpp / 8))
      else s
    let s := pmmReserve s addr sizeofBootInfo
    let s := pmmReserve s 0 (lowUsed bi.memmap)
    some { s with used := countUsed s.bitmap s.total }

/-! ## Taking and returning -/

/-- The inner loop of `pmm_alloc`: the next pages are managed and free. -/
def freeRun (s : Memory) : Nat → Nat → Bool
  | 0, _ => true
  | n + 1, idx => if idx ≥ s.total || s.bitmap.bit idx then false else freeRun s n (idx + 1)

def setPages : Nat → Nat → Bitmap → Bitmap
  | 0, _, m => m
  | n + 1, idx, m => setPages n (idx + 1) (m.set idx)

def pmmAlloc (s : Memory) (pages : Nat) : Memory × BitVec 64 :=
  if pages = 0 then (s, 0)
  else match (List.range s.total).find? (freeRun s pages) with
    | some i => ({ s with bitmap := setPages pages i s.bitmap, used := s.used + pages }, BitVec.ofNat 64 i <<< 12)
    | none => (s, 0)

/-- The loop of `pmm_free`, and how many pages it found in use. -/
def freePages (total : Nat) : Nat → Nat → Bitmap × Nat → Bitmap × Nat
  | 0, _, r => r
  | n + 1, idx, r =>
    if idx ≥ total then freePages total n (idx + 1) r
    else freePages total n (idx + 1) (r.1.clear idx, if r.1.bit idx then r.2 + 1 else r.2)

def pmmFree (s : Memory) (addr : BitVec 64) (pages : Nat) : Memory :=
  if addr = 0 ∨ pages = 0 then s
  else
    let r := freePages s.total pages (addr.toNat / 4096) (s.bitmap, 0)
    { s with bitmap := r.1, used := if r.2 > s.used then 0 else s.used - r.2 }

def pmmRangeFree (s : Memory) (base : BitVec 64) (pages : Nat) : Bool := freeRun s pages (base.toNat / 4096)

def pmmFreeMem (s : Memory) : Nat := (s.total - s.used) * 4096

/-! ## Runs -/

inductive Event
  | reserve (base size : BitVec 64)
  /-- A call, and the address that it returned. -/
  | alloc (pages : Nat) (addr : BitVec 64)
  | free (addr : BitVec 64) (pages : Nat)
  deriving DecidableEq, Repr

inductive Step : Memory → Event → Memory → Prop
  | reserve (s : Memory) (base size : BitVec 64) : Step s (.reserve base size) (pmmReserve s base size)
  | alloc (s : Memory) (pages : Nat) (h : 1 ≤ pages) :
      Step s (.alloc pages (pmmAlloc s pages).2) (pmmAlloc s pages).1
  | free (s : Memory) (addr : BitVec 64) (pages : Nat) (haddr : 0x1000 ≤ addr.toNat) (hpages : pages ≤ 2 ^ 32) :
      Step s (.free addr pages) (pmmFree s addr pages)

/-- The page lies in the run of pages at the address. -/
def Covers (addr : BitVec 64) (pages page : Nat) : Prop :=
  addr.toNat / 4096 ≤ page ∧ page < addr.toNat / 4096 + pages

end Siathos.Frames
