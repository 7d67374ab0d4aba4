import Mathlib.Data.List.Basic

/-!
# The regions of a process

`umap_base[i]` and `umap_size[i]` of a ring-3 process, and the heap that `SYS_MMAP` grows.
-/

namespace Siathos.Proc

structure Region where
  base : BitVec 64
  size : BitVec 64
  deriving DecidableEq, Repr

/-- The address is in `[umap_base[i], umap_base[i]+umap_size[i])`. -/
def Region.Holds (r : Region) (a : Nat) : Prop := r.base.toNat ≤ a ∧ a < r.base.toNat + r.size.toNat

instance (r : Region) (a : Nat) : Decidable (r.Holds a) := inferInstanceAs (Decidable (_ ∧ _))

def umapMax : Nat := 8

/-- The highest end of a region, as `SYS_MMAP` computes it. -/
def umapTop (umap : List Region) : BitVec 64 :=
  umap.foldl (fun top r => if r.base + r.size > top then r.base + r.size else top) 0

/-- Where `SYS_MMAP` puts a new heap: a gap of 64 KB above the highest region. -/
def heapStart (umap : List Region) : BitVec 64 := ((umapTop umap + 0xFFF) &&& ~~~0xFFF) + 0x10000

end Siathos.Proc
