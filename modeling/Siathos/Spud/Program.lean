import Siathos.Lib.Run
import Siathos.Lib.Span
import Siathos.Spud.Coalesce

/-!
# Programs that allocate

A program asks for blocks, gives back those it holds and writes into them. Whatever the order, its
heap stays a row of blocks, and it holds exactly those that are in use.
-/

open Lib

namespace Siathos.Spud

/-- `held` is ghost state: the pointers that the program has not given back, and what it asked for. -/
structure Program where
  heap : Heap
  held : List (Nat × Nat)

/-- At its start a program has no heap. -/
def start (mem : Buf) : Program := ⟨⟨mem, 0, 0, 0⟩, []⟩

inductive Op
  /-- `mmap` is what SYS_MMAP answers at this time. -/
  | malloc (n : Nat) (mmap : Nat → Nat)
  | free (p : Nat)
  | write (mem : Buf)

inductive Step : Program → Op → Program → Prop
  | malloc {s : Program} {n : Nat} {mmap : Nat → Nat} {r : Ret} :
      n < 2 ^ 64 → Contiguous s.heap mmap → s.heap.spudMalloc n mmap = some r →
        Step s (.malloc n mmap) ⟨r.heap, if r.ptr = 0 then s.held else (r.ptr, n) :: s.held⟩
  | free {s : Program} {p n : Nat} {k : Heap} :
      (p, n) ∈ s.held → s.heap.spudFree p = some k → Step s (.free p) ⟨k, s.held.erase (p, n)⟩
  | freeNull {s : Program} {k : Heap} : s.heap.spudFree 0 = some k → Step s (.free 0) ⟨k, s.held⟩
  /-- The program writes nothing of the heap but the bytes of the blocks that it holds. -/
  | write {s : Program} {mem : Buf} :
      (∀ i, s.heap.va ≤ i → i < s.heap.stop → (∀ q ∈ s.held, i < q.1 ∨ q.1 + s.heap.size (q.1 - hdrSz) ≤ i) →
        mem i = s.heap.mem i) →
        Step s (.write mem) ⟨{ s.heap with mem }, s.held⟩

/-- The blocks in use are those that the program holds. -/
structure Owns (s : Program) (bs : List Block) (fl : List Nat) : Prop where
  shape : Shape s.heap bs fl
  held : (s.held.map Prod.fst).Perm ((live bs).map (·.ptr))

namespace Owns

variable {s : Program} {bs bs' : List Block} {fl fl' : List Nat}

theorem mem_live {x : Block} : x ∈ live bs ↔ x ∈ bs ∧ x.free = false := by simp [live]

theorem block (ho : Owns s bs fl) {q : Nat × Nat} (hq : q ∈ s.held) : ∃ x ∈ bs, x.free = false ∧ x.ptr = q.1 := by
  have hmem : q.1 ∈ (live bs).map (·.ptr) := ho.held.subset (List.mem_map_of_mem hq)
  obtain ⟨x, hx, hptr⟩ := List.mem_map.mp hmem
  obtain ⟨hxb, hfree⟩ := mem_live.mp hx
  exact ⟨x, hxb, hfree, hptr⟩

theorem ptr_inj (ho : Owns s bs fl) {x y : Block} (hx : x ∈ bs) (hy : y ∈ bs) (h : x.ptr = y.ptr) : x = y :=
  ho.shape.tiled.addr_inj hx hy (Nat.add_right_cancel h)

theorem start (mem : Buf) : Owns (start mem) [] [] :=
  ⟨⟨rfl, by simp, rfl, by simp, by simp, rfl, fun _ => rfl, Nat.zero_le _⟩, by simp [Spud.start]⟩

theorem taken_held {held : List (Nat × Nat)} {need p n : Nat} (hheld : (held.map Prod.fst).Perm ((live bs).map (·.ptr)))
    (ht : Taken need p bs bs') : (((p, n) :: held).map Prod.fst).Perm ((live bs').map (·.ptr)) := by
  obtain ⟨l, x, t, m, ys, rfl, hx, rfl, rfl, -, -, hys⟩ := ht
  have hfree : live ys = [] := by simpa [live] using fun y hy => (hys y hy).1
  have hp : (⟨x.addr, m, false⟩ : Block).ptr = x.ptr := rfl
  simp only [live_append, live_cons, hx, if_true, List.map_append] at hheld
  simp only [List.map_cons, live_append, live_cons, hfree, Bool.false_eq_true, if_false, List.map_append, hp,
    List.append_assoc, List.cons_append, List.nil_append]
  exact (hheld.cons x.ptr).trans List.perm_middle.symm

theorem malloc {n : Nat} {mmap : Nat → Nat} {r : Ret} (ho : Owns s bs fl) (hs : Shape r.heap bs' fl')
    (hserved : Served n mmap bs r bs') :
    Owns ⟨r.heap, if r.ptr = 0 then s.held else (r.ptr, n) :: s.held⟩ bs' fl' := by
  have hlive : live (bs ++ [grown (wanted (rounded n)) mmap]) = live bs := by simp [live_cons, grown]
  refine ⟨hs, ?_⟩
  cases hserved with
  | here _ ht => simpa only [if_neg ht.ptr_ne] using taken_held ho.held ht
  | refused _ _ => exact ho.held
  | there _ _ _ ht => simpa only [if_neg ht.ptr_ne] using taken_held (by rw [hlive]; exact ho.held) ht
  | wasted _ _ _ => simpa only [if_true, hlive] using ho.held

theorem split (ho : Owns s bs fl) {q : Nat × Nat} (hq : q ∈ s.held) :
    ∃ l x r, bs = l ++ x :: r ∧ x.free = false ∧ x.ptr = q.1 := by
  obtain ⟨x, hx, hfree, hptr⟩ := ho.block hq
  obtain ⟨l, r, rfl⟩ := List.append_of_mem hx
  exact ⟨l, x, r, rfl, hfree, hptr⟩

theorem free {p n : Nat} {l l' r r' : List Block} {x x' : Block} {k' : Heap} (ho : Owns s (l ++ x :: r) fl)
    (hmem : (p, n) ∈ s.held) (hx : x.free = false) (hptr : x.ptr = p) (hs : Shape k' (l' ++ x' :: r') fl')
    (hx' : x'.free = true) (hl : live l' = live l) (hr : live r' = live r) :
    Owns ⟨k', s.held.erase (p, n)⟩ (l' ++ x' :: r') fl' := by
  refine ⟨hs, ?_⟩
  have hheld := ho.held
  have herase := (List.perm_cons_erase hmem).map Prod.fst
  simp only [live_append, live_cons, hx, Bool.false_eq_true, if_false, List.map_append, List.map_cons, hptr] at hheld
  simp only [live_append, live_cons, hx', if_true, hl, hr, List.map_append]
  exact (herase.symm.trans (hheld.trans List.perm_middle)).cons_inv

theorem write {mem : Buf} (ho : Owns s bs fl)
    (hm : ∀ i, s.heap.va ≤ i → i < s.heap.stop → (∀ q ∈ s.held, i < q.1 ∨ q.1 + s.heap.size (q.1 - hdrSz) ≤ i) →
      mem i = s.heap.mem i) : Owns ⟨{ s.heap with mem }, s.held⟩ bs fl := by
  have hs := ho.shape
  have hkept : ∀ x ∈ bs, ∀ i, (x.addr ≤ i ∧ i < x.stop) → (i < x.ptr ∨ x.foot ≤ i ∨ x.free = true) →
    mem i = s.heap.mem i := by
    intro x hx i hi hfield
    have hbound := hs.bounds hx
    refine hm i (by omega) (by omega) fun q hq => ?_
    obtain ⟨y, hy, hfree, hptr⟩ := ho.block hq
    have hsize : s.heap.size y.addr = y.size := (hs.holds y hy).size
    have hhdr : q.1 - hdrSz = y.addr := by simp [← hptr, Block.ptr, hdrSz]
    rw [hhdr, hsize, ← hptr]
    have hcases := hs.tiled.apart hy hx
    simp only [Block.ptr, Block.foot, Block.stop] at hi hfield hcases ⊢
    rcases hcases with rfl | hcases
    · simp only [hfree, Bool.false_eq_true, or_false] at hfield
      omega
    · omega
  refine ⟨⟨hs.tiled, fun x hx => ?_, ?_, hs.frees, hs.even, hs.base, hs.low, hs.high⟩, ho.held⟩
  · have hold := hs.holds x hx
    have hread : ∀ i w, x.addr ≤ i → i + w ≤ x.stop → (i + w ≤ x.ptr ∨ x.foot ≤ i) →
      mem.numberAt i w = s.heap.mem.numberAt i w := by
      intro i w hlow hhigh hfield
      exact Buf.numberAt_congr fun j hj => hkept x hx (i + j) (by omega) (by omega)
    simp only [Block.ptr, Block.foot, Block.stop] at hread
    constructor
    · rw [hread _ _ (by omega) (by omega) (by omega), hold.size]
    · rw [hread _ _ (by omega) (by omega) (by omega), hold.free]
    · rw [Block.foot, hread _ _ (by omega) (by omega) (by omega)]
      exact hold.foot
  · refine hs.chain.congr rfl fun c hc => ?_
    obtain ⟨x, hx, hfree, rfl⟩ := (hs.mem_iff c).mp hc
    refine next_congr fun i hi hi' => hkept x hx i ?_ (Or.inr (Or.inr hfree))
    simp only [Block.stop]
    omega

end Owns

theorem Step.owns {s t : Program} {o : Op} (h : Step s o t) {bs : List Block} {fl : List Nat} (ho : Owns s bs fl) :
    ∃ bs' fl', Owns t bs' fl' := by
  cases h with
  | malloc hn hm hcall =>
    obtain ⟨r, bs', fl', hcall', hs', hserved⟩ := ho.shape.malloc hm _
    obtain rfl := Option.some.inj (hcall.symm.trans hcall')
    exact ⟨bs', fl', ho.malloc hs' hserved⟩
  | free hmem hcall =>
    obtain ⟨l, x, r, rfl, hx, hptr⟩ := ho.split hmem
    obtain ⟨k', l', x', r', fl', hcall', hs', hx', -, -, -, -, hl, hr, -⟩ := ho.shape.spudFree hx
    rw [hptr] at hcall'
    obtain rfl := Option.some.inj (hcall.symm.trans hcall')
    exact ⟨_, fl', ho.free hmem hx hptr hs' hx' hl hr⟩
  | freeNull hcall =>
    obtain rfl := Option.some.inj hcall
    exact ⟨bs, fl, ho⟩
  | write hm => exact ⟨bs, fl, ho.write hm⟩

/-- A memory that has 1024 pages left from an address on. -/
def pagesFrom (base pages : Nat) : Nat := if pages ≤ 1024 then base else 2 ^ 64 - 1

theorem contiguous_pagesFrom {k : Heap} {base : Nat} (hbase : base % 4096 = 0) (hlow : base ≤ 2 ^ 62)
    (hk : k.va ≠ 0 → base = k.stop) : Contiguous k (pagesFrom base) := by
  intro pages
  simp only [pagesFrom]
  split
  · right
    exact ⟨hbase, by omega, hk⟩
  · left
    exact Or.inr (by omega)

theorem owns {mem : Buf} {ops : List Op} {s : Program} (h : Run Step (start mem) ops s) : ∃ bs fl, Owns s bs fl := by
  have hstep : ∀ s o t, (∃ bs fl, Owns s bs fl) → Step s o t → ∃ bs fl, Owns t bs fl := by
    rintro s o t ⟨bs, fl, ho⟩ hstep
    exact hstep.owns ho
  exact h.invariant hstep ⟨[], [], Owns.start mem⟩

end Siathos.Spud
