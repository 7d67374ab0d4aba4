import Mathlib.Data.List.Induction
import Siathos.Spud.Alloc

/-!
# spud_free on a row of blocks

Both loops of `spud_coalesce` let a block absorb the free one behind it. The footers tell the loop
over the blocks before where they begin, except where a block has no bytes.
-/

open Lib

namespace Siathos.Spud

variable {k : Heap} {bs l r : List Block} {fl : List Nat} {x y : Block}

theorem unlinkFrom_found {pp : Link} {s t : List Nat} {c rounds : Nat} (h : Chain k.read pp (s ++ c :: t))
    (hc : c ∉ s) (hr : s.length < rounds) : k.unlinkFrom c rounds pp = some (k.link (pp.after s) (k.next c)) := by
  induction s generalizing pp rounds with
  | nil =>
    obtain ⟨n, rfl⟩ : ∃ n, rounds = n + 1 := ⟨rounds - 1, by omega⟩
    obtain ⟨hread, hpos, -⟩ := h
    simp only [Heap.unlinkFrom, hread, if_neg hpos, if_true, Link.after]
  | cons d s ih =>
    obtain ⟨n, rfl⟩ : ∃ n, rounds = n + 1 := ⟨rounds - 1, by omega⟩
    obtain ⟨hread, hpos, hrest⟩ := h
    simp only [List.mem_cons, not_or] at hc
    obtain ⟨hne, hs⟩ := hc
    simp only [Heap.unlinkFrom, hread, if_neg hpos, if_neg (Ne.symm hne)]
    exact ih hrest hs (by simpa using hr)

/-! ## absorb -/

/-- The block that two neighbours become. -/
def joined (x y : Block) : Block := ⟨x.addr, x.size + (32 + y.size), true⟩

theorem joined_stop (h : x.stop = y.addr) : (joined x y).stop = y.stop := by
  simp only [joined, Block.stop] at h ⊢
  omega

theorem Shape.neighbours (hs : Shape k (l ++ x :: y :: r) fl) : x.stop = y.addr := by
  have htiled := hs.tiled
  rw [tiled_append] at htiled
  obtain ⟨c, -, -, hy, -⟩ := htiled
  exact hy.symm

theorem Shape.absorb (hs : Shape k (l ++ x :: y :: r) fl) (hx : x.free = true) (hy : y.free = true) :
    ∃ k' fl', k.absorb x.addr y.addr = some k' ∧ Shape k' (l ++ joined x y :: r) fl' := by
  have hmeet := hs.neighbours
  have hxmem : x ∈ l ++ x :: y :: r := by simp
  have hymem : y ∈ l ++ x :: y :: r := by simp
  have hyfl : y.addr ∈ fl := (hs.mem_iff _).mpr ⟨y, hymem, hy, rfl⟩
  obtain ⟨s, t, rfl⟩ := List.append_of_mem hyfl
  have hnd := List.perm_middle.nodup_iff.mp hs.nodup
  have hys : y.addr ∉ s := fun h => (List.nodup_cons.mp hnd).1 (List.mem_append_left t h)
  have hlen := hs.length_lt.2
  rw [List.length_append, List.length_cons] at hlen
  have hunlink : k.spudUnlink y.addr = some (k.link (Link.head.after s) (k.next y.addr)) :=
    unlinkFrom_found hs.chain hys (by omega)
  have hchain := hs.chain_link rfl (fun _ _ => rfl) (Or.inl ⟨rfl, rfl⟩)
  have hholds : ∀ z ∈ l ++ x :: y :: r, Holds (k.link (Link.head.after s) (k.next y.addr)).mem z := by
    intro z hz
    refine Heap.holds_link (hs.holds z hz) fun d hd => ?_
    exact hs.beside hz (List.mem_append_left _ (Shape.after_head s hd))
  have hyb := hs.bounds hymem
  simp only [Block.stop] at hmeet hyb
  have hother : ∀ z ∈ l ++ r, z.stop ≤ x.addr ∨ y.stop ≤ z.addr := by
    intro z hz
    have htiled := hs.tiled
    rw [tiled_append] at htiled
    obtain ⟨c, hl, rfl, -, hr⟩ := htiled
    rcases List.mem_append.mp hz with hz | hz
    · exact Or.inl (hl.bounds.2 z hz).2
    · exact Or.inr (hr.bounds.2 z hz).1
  have hva := Heap.link_va (k := k) (Link.head.after s) (k.next y.addr)
  have hstop := Heap.link_stop (k := k) (Link.head.after s) (k.next y.addr)
  have hjoin : (joined x y).size = x.size + (32 + y.size) := rfl
  have habsorb : k.absorb x.addr y.addr =
      some (((k.link (Link.head.after s) (k.next y.addr)).store x.addr 8 (joined x y).size).store
        (x.addr + 24 + (joined x y).size) 8 (joined x y).size) := by
    have hkx := (hholds x hxmem).size
    have hky := (hholds y hymem).size
    simp only [Heap.absorb, hunlink, Option.bind_eq_bind, Option.bind_some, Heap.size, hkx, hky]
    have hsum : x.size + (hdrSz + rBlk + y.size) = (joined x y).size := rfl
    rw [hsum, Heap.setFooter_eq (s := (joined x y).size)]
    · rfl
    · exact Heap.store_self (by omega)
  refine ⟨_, s ++ t, habsorb, ?_⟩
  generalize k.link (Link.head.after s) (k.next y.addr) = k1 at *
  constructor
  · rw [Heap.store_va, Heap.store_stop, Heap.store_va, Heap.store_stop, hva, hstop]
    have htiled := hs.tiled
    rw [tiled_append] at htiled ⊢
    obtain ⟨c, hl, rfl, -, hr⟩ := htiled
    exact ⟨_, hl, rfl, by rwa [joined_stop hs.neighbours]⟩
  · simp only [List.forall_mem_append, List.forall_mem_cons]
    have hkeep : ∀ z ∈ l ++ r, Holds
      ((k1.store x.addr 8 (joined x y).size).store (x.addr + 24 + (joined x y).size) 8 (joined x y).size).mem z := by
      intro z hz
      have hapart := hother z hz
      refine (hholds z (mem_skip (mem_skip hz))).frame fun i hi hi' => ?_
      simp only [Block.stop] at hapart hi'
      simp (disch := omega) only [Heap.store_mem]
    refine ⟨fun z hz => hkeep z (List.mem_append_left r hz), ?_, fun z hz => hkeep z (List.mem_append_right l hz)⟩
    have hxfree := (hholds x hxmem).free
    rw [hx] at hxfree
    constructor
    · simp (disch := omega) only [joined, Heap.store_other, Heap.store_self]
    · simp (disch := omega) only [joined, Heap.store_other, hxfree]
    · simp (disch := omega) only [joined, Block.foot, Heap.store_self]
  · refine hchain.congr rfl fun c hc => ?_
    have hcfl : c ∈ s ++ y.addr :: t := mem_skip hc
    have hcx := hs.beside hxmem hcfl
    have hcy := hs.beside hymem hcfl
    have hne : c ≠ y.addr := fun h => (List.nodup_cons.mp hnd).1 (h ▸ hc)
    simp only [Beside, Block.stop] at hcx hcy
    simp only [Heap.read, Heap.next]
    simp (disch := omega) only [Heap.store_other]
  · have hfrees := hs.frees
    simp only [List.filter_append, List.filter_cons, hx, hy, joined, if_true, List.map_append,
      List.map_cons] at hfrees ⊢
    have hperm := perm_node (L := (l.filter (·.free)).map (·.addr) ++ [x.addr]) (by simpa using hfrees)
    simpa using hperm
  · have hxe := hs.even x hxmem
    have hye := hs.even y hymem
    intro z hz
    rcases List.mem_append.mp hz with hz | hz
    · exact hs.even z (by simp [hz])
    · rcases List.mem_cons.mp hz with rfl | hz
      · omega
      · exact hs.even z (by simp [hz])
  · rw [Heap.store_va, Heap.store_va, hva, hs.base]
  · intro hzero
    rw [Heap.store_va, Heap.store_va, hva] at hzero
    exact absurd (hs.low hzero) (by simp)
  · rw [Heap.store_stop, Heap.store_stop, hstop]
    exact hs.high

/-! ## The loops -/

def live (bs : List Block) : List Block := bs.filter (fun x => !x.free)

@[simp] theorem live_append (l r : List Block) : live (l ++ r) = live l ++ live r := by simp [live]

@[simp] theorem live_nil : live [] = [] := rfl

theorem live_cons (x : Block) (l : List Block) : live (x :: l) = if x.free then live l else x :: live l := by
  cases h : x.free <;> simp [live, h]

theorem Shape.flag (hs : Shape k bs fl) (hx : x ∈ bs) : k.free x.addr = x.free.toNat := (hs.holds x hx).free

theorem Shape.blkNext (hs : Shape k bs fl) (hx : x ∈ bs) : k.blkNext x.addr = x.stop := by
  have hsize : k.size x.addr = x.size := (hs.holds x hx).size
  simp only [Heap.blkNext, hsize, hdrSz, rBlk, Block.stop]
  omega

theorem Shape.mergeNext {rounds : Nat} (hs : Shape k (l ++ x :: r) fl) (hx : x.free = true) (hr : r.length < rounds) :
    ∃ k' x' r' fl', k.mergeNext x.addr rounds = some k' ∧ Shape k' (l ++ x' :: r') fl' ∧ x'.free = true ∧
      x'.addr = x.addr ∧ x.stop ≤ x'.stop ∧ r' ⊆ r ∧ live r' = live r ∧ ∀ y ∈ r'.head?, y.free = false := by
  induction r generalizing k x fl rounds with
  | nil =>
    obtain ⟨n, rfl⟩ : ∃ n, rounds = n + 1 := ⟨rounds - 1, by omega⟩
    have hend : x.stop = k.stop := by
      have htiled := hs.tiled
      rw [tiled_append] at htiled
      obtain ⟨c, -, -, hstop⟩ := htiled
      exact hstop
    refine ⟨k, x, [], fl, ?_, hs, hx, rfl, Nat.le_refl _, List.Subset.refl _, rfl, by simp⟩
    simp [Heap.mergeNext, hs.blkNext (List.mem_append_right l List.mem_cons_self), hend]
  | cons y r ih =>
    obtain ⟨n, rfl⟩ : ∃ n, rounds = n + 1 := ⟨rounds - 1, by omega⟩
    have hmeet := hs.neighbours
    have hymem : y ∈ l ++ x :: y :: r := by simp
    have hbound := hs.bounds hymem
    have hin : ¬ y.addr ≥ k.stop := by
      simp only [Block.stop] at hbound
      omega
    simp only [Heap.mergeNext, hs.blkNext (List.mem_append_right l List.mem_cons_self), hmeet, if_neg hin,
      hs.flag hymem]
    cases hy : y.free with
    | false => exact ⟨k, x, y :: r, fl, by simp, hs, hx, rfl, Nat.le_of_eq hmeet.symm, List.Subset.refl _, rfl,
      by simp [hy]⟩
    | true =>
      obtain ⟨k1, fl1, habsorb, hs1⟩ := hs.absorb hx hy
      obtain ⟨k', x', r', fl', hloop, hs', hx', haddr, hstop, hsub, hlive, hhead⟩ :=
        ih hs1 rfl (Nat.lt_of_succ_lt_succ hr)
      refine ⟨k', x', r', fl', ?_, hs', hx', haddr, ?_, List.subset_cons_of_subset y hsub, ?_, hhead⟩
      · have hloop1 : k1.mergeNext x.addr n = some k' := hloop
        simp [habsorb, hloop1]
      · rw [joined_stop hmeet] at hstop
        simp only [Block.stop] at hmeet hstop ⊢
        omega
      · simp [hlive, live_cons, hy]

theorem Shape.mergePrev {rounds : Nat} (hs : Shape k (l ++ x :: r) fl) (hx : x.free = true) (hr : l.length < rounds) :
    ∃ k' l' x' fl', k.mergePrev rounds x.addr = some k' ∧ Shape k' (l' ++ x' :: r) fl' ∧ x'.free = true ∧
      x'.addr ≤ x.addr ∧ x'.stop = x.stop ∧ l' ⊆ l ∧ live l' = live l ∧
        ((∀ y ∈ l, 0 < y.size) → ∀ y ∈ l'.getLast?, y.free = false) := by
  induction l using List.reverseRecOn generalizing k x fl rounds with
  | nil =>
    obtain ⟨n, rfl⟩ : ∃ n, rounds = n + 1 := ⟨rounds - 1, by omega⟩
    have hfirst : x.addr = k.va := hs.tiled.1
    refine ⟨k, [], x, fl, ?_, hs, hx, Nat.le_refl _, rfl, List.Subset.refl _, rfl, by simp⟩
    simp [Heap.mergePrev, hfirst]
  | append_singleton l y ih =>
    obtain ⟨n, rfl⟩ : ∃ n, rounds = n + 1 := ⟨rounds - 1, by omega⟩
    have hs2 : Shape k (l ++ y :: x :: r) fl := by simpa using hs
    have hmeet := hs2.neighbours
    have hymem : y ∈ l ++ y :: x :: r := by simp
    have hbound := hs2.bounds hymem
    have hold := hs2.holds y hymem
    have hsize : k.size y.addr = y.size := hold.size
    simp only [Block.stop] at hmeet hbound
    have hfoot : k.mem.numberAt (x.addr - rBlk) 8 = y.size := by
      have heq : x.addr - rBlk = y.foot := by
        simp only [rBlk, Block.foot]
        omega
      rw [heq, hold.foot]
    have hpr : x.addr - rBlk - y.size - hdrSz = y.addr := by
      simp only [rBlk, hdrSz]
      omega
    have hin : ¬ x.addr ≤ k.va := by omega
    simp only [Heap.mergePrev, if_neg hin, hfoot, hpr, hs2.flag hymem, hsize]
    by_cases hzero : y.size = 0
    · refine ⟨k, l ++ [y], x, fl, by simp [hzero], hs, hx, Nat.le_refl _, rfl, List.Subset.refl _, rfl, fun hpos => ?_⟩
      have hy := hpos y (by simp)
      omega
    · have hroom : ¬ (y.size = 0 ∨ y.size > x.addr - k.va) := by omega
      simp only [if_neg hroom]
      cases hy : y.free with
      | false => exact ⟨k, l ++ [y], x, fl, by simp, hs, hx, Nat.le_refl _, rfl, List.Subset.refl _, rfl, by simp [hy]⟩
      | true =>
        have hgood : ¬ (y.addr < k.va ∨ Bool.toNat true = 0 ∨ y.size ≠ y.size) := by
          simp only [Bool.toNat_true]
          omega
        obtain ⟨k1, fl1, habsorb, hs1⟩ := hs2.absorb hy hx
        obtain ⟨k', l', x', fl', hloop, hs', hx', haddr, hstop, hsub, hlive, hlast⟩ :=
          ih hs1 rfl (by simpa using hr : l.length < n)
        refine ⟨k', l', x', fl', ?_, hs', hx', ?_, ?_, List.Subset.trans hsub (List.subset_append_left l [y]), ?_,
          fun hpos => hlast fun z hz => hpos z (by simp [hz])⟩
        · have hloop1 : k1.mergePrev n y.addr = some k' := hloop
          simp only [if_neg hgood, habsorb, Option.bind_eq_bind, Option.bind_some, hloop1]
        · have haddr1 : x'.addr ≤ y.addr := haddr
          omega
        · rw [hstop, joined_stop hs2.neighbours]
        · simp [hlive, live_cons, hy]

/-! ## spud_free -/

theorem Shape.mark (hs : Shape k (l ++ x :: r) fl) (hx : x.free = false) :
    Shape { (k.setFree x.addr 1).setNext x.addr k.fl with fl := x.addr } (l ++ { x with free := true } :: r)
      (x.addr :: fl) := by
  have hxmem : x ∈ l ++ x :: r := by simp
  have hbound := hs.bounds hxmem
  have hfl := hs.fl_lt
  simp only [Block.stop] at hbound
  have hxfl : x.addr ∉ fl := by
    intro hmem
    obtain ⟨z, hz, hzfree, hzaddr⟩ := (hs.mem_iff _).mp hmem
    rw [hs.tiled.addr_inj hz hxmem hzaddr, hx] at hzfree
    simp at hzfree
  simp only [Heap.setFree, Heap.setNext]
  constructor
  · have htiled := hs.tiled
    rw [tiled_append] at htiled ⊢
    exact htiled
  · simp only [List.forall_mem_append, List.forall_mem_cons]
    have hkeep : ∀ z ∈ l ++ r, Holds ((k.store (x.addr + 8) 4 1).store (x.addr + 16) 8 k.fl).mem z := by
      intro z hz
      have hne : z ≠ x := by
        rintro rfl
        have hnd := List.perm_middle.nodup_iff.mp hs.tiled.nodup.of_map
        exact (List.nodup_cons.mp hnd).1 hz
      have hapart := (hs.tiled.apart (mem_skip hz) hxmem).resolve_left hne
      refine (hs.holds z (mem_skip hz)).frame fun i hi hi' => ?_
      simp only [Block.stop] at hapart hi'
      simp (disch := omega) only [Heap.store_mem]
    refine ⟨fun z hz => hkeep z (List.mem_append_left r hz), ?_, fun z hz => hkeep z (List.mem_append_right l hz)⟩
    have hold := hs.holds x hxmem
    have hfoot := hold.foot
    simp only [Block.foot] at hfoot
    constructor
    · simp (disch := omega) only [Heap.store_other, hold.size]
    · simp (disch := omega) only [Heap.store_other, Heap.store_self, Bool.toNat_true]
    · simp (disch := omega) only [Block.foot, Heap.store_other, hfoot]
  · refine ⟨rfl, by omega, hs.chain.move ?_ fun c hc => ?_⟩
    · exact Heap.store_self (by omega)
    · have hbeside := hs.beside hxmem hc
      have hne : c ≠ x.addr := fun h => hxfl (h ▸ hc)
      simp only [Beside, Block.stop] at hbeside
      simp only [Heap.read, Heap.next]
      simp (disch := omega) only [Heap.store_other]
  · have hfrees := hs.frees
    simp only [List.filter_append, List.filter_cons, hx, if_true, List.map_append, List.map_cons] at hfrees ⊢
    exact List.perm_cons_append_cons x.addr (by simpa using hfrees)
  · intro z hz
    rcases List.mem_append.mp hz with hz | hz
    · exact hs.even z (by simp [hz])
    · rcases List.mem_cons.mp hz with rfl | hz
      · exact hs.even x hxmem
      · exact hs.even z (by simp [hz])
  · exact hs.base
  · intro hzero
    exact absurd (hs.low hzero) (by simp)
  · exact hs.high

/-- `spud_free` makes the block a part of a free one, whose neighbours are in use if every block has
bytes. -/
theorem Shape.spudFree (hs : Shape k (l ++ x :: r) fl) (hx : x.free = false) :
    ∃ k' l' x' r' fl', k.spudFree x.ptr = some k' ∧ Shape k' (l' ++ x' :: r') fl' ∧ x'.free = true ∧
      x'.addr ≤ x.addr ∧ x.stop ≤ x'.stop ∧ l' ⊆ l ∧ r' ⊆ r ∧ live l' = live l ∧ live r' = live r ∧
        (∀ y ∈ r'.head?, y.free = false) ∧ ((∀ y ∈ l, 0 < y.size) → ∀ y ∈ l'.getLast?, y.free = false) := by
  have hlen := hs.length_lt.1
  rw [List.length_append, List.length_cons] at hlen
  obtain ⟨k1, x1, r', fl1, hnext, hs1, hx1, haddr1, hstop1, hsubr, hlive1, hhead⟩ :=
    (hs.mark hx).mergeNext rfl (by omega : r.length < maxRounds)
  obtain ⟨k', l', x', fl', hprev, hs', hx', haddr', hstop', hsubl, hlive', hlast⟩ :=
    hs1.mergePrev hx1 (by omega : l.length < maxRounds)
  refine ⟨k', l', x', r', fl', ?_, hs', hx', ?_, ?_, hsubl, hsubr, hlive', hlive1, hhead, hlast⟩
  · have hptr : x.ptr ≠ 0 := by simp [Block.ptr]
    have hhdr : x.ptr - hdrSz = x.addr := by simp [Block.ptr, hdrSz]
    simp only [Heap.spudFree, if_neg hptr, hhdr, Heap.spudCoalesce]
    have hprev1 : k1.mergePrev maxRounds x.addr = some k' := by rw [← hprev, haddr1]
    exact Option.bind_eq_some_iff.mpr ⟨k1, hnext, hprev1⟩
  · exact Nat.le_trans haddr' (Nat.le_of_eq haddr1)
  · rw [hstop']
    exact hstop1

end Siathos.Spud
