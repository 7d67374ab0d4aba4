import Siathos.Spud.Program

/-!
# The heap of a program is safe

While no call asks for more than `2^62` bytes, no size wraps and every block has bytes. Then the
footers lead to every free neighbour, and the blocks are as large as they should be.
-/

open Lib Lib.Span

namespace Siathos.Spud

/-- The call asks for at most `2^62` bytes. -/
def Small (_ : Program) (o : Op) : Prop := ∀ n mmap, o = .malloc n mmap → n ≤ 2 ^ 62

/-- The bytes of a block that its holder uses. -/
def Block.payload (x : Block) : Span := ⟨x.ptr, x.size⟩

/-- The block that holds the pointer is free, and its neighbours are not. -/
def Merged (k : Heap) (p : Nat) : Prop :=
  ∃ l x r, Tiled k.va (l ++ x :: r) k.stop ∧ (∀ y ∈ l ++ x :: r, Holds k.mem y) ∧ x.ptr ≤ p ∧ p ≤ x.foot ∧
    x.free = true ∧ (∀ y ∈ l.getLast?, y.free = false) ∧ ∀ y ∈ r.head?, y.free = false

structure Sound (s : Program) : Prop where
  blocks : ∃ bs fl, Tiled s.heap.va bs s.heap.stop ∧ (∀ x ∈ bs, Holds s.heap.mem x) ∧
    Chain s.heap.read .head fl ∧ fl.Perm ((bs.filter (·.free)).map (·.addr)) ∧
    (s.held.map Prod.fst).Perm ((live bs).map (·.ptr)) ∧ (live bs).Pairwise (fun x y => Apart x.payload y.payload) ∧
    ∀ q ∈ s.held, q.1 % 8 = 0 ∧ ∃ x ∈ live bs, x.ptr = q.1 ∧ q.2 ≤ x.size
  frees : ∀ q ∈ s.held, ∃ k, s.heap.spudFree q.1 = some k ∧ Merged k q.1
  mallocs : ∀ n ≤ 2 ^ 62, ∀ mmap, Contiguous s.heap mmap → ∃ r, s.heap.spudMalloc n mmap = some r

/-- Every block has bytes, and those in use have as many as were asked for. -/
structure Roomy (s : Program) (bs : List Block) : Prop where
  bytes : ∀ x ∈ bs, 0 < x.size
  held : ∀ q ∈ s.held, ∃ x ∈ live bs, x.ptr = q.1 ∧ q.2 ≤ x.size

theorem le_rounded {n : Nat} (hn : n ≤ 2 ^ 62) : n ≤ rounded n ∧ 16 ≤ rounded n := by
  simp only [rounded]
  split <;> omega

theorem Tiled.aligned {a b : Nat} {bs : List Block} (h : Tiled a bs b) (ha : a % 16 = 0)
    (heven : ∀ x ∈ bs, x.size % 16 = 0) : ∀ x ∈ bs, x.addr % 16 = 0 := by
  induction bs generalizing a with
  | nil => simp
  | cons x l ih =>
    obtain ⟨rfl, hrest⟩ := h
    rw [List.forall_mem_cons] at heven ⊢
    have hx := heven.1
    exact ⟨ha, ih hrest (by simp only [Block.stop]; omega) heven.2⟩

theorem Tiled.payloads {a b : Nat} {bs : List Block} (h : Tiled a bs b) :
    bs.Pairwise fun x y => Apart x.payload y.payload := by
  induction bs generalizing a with
  | nil => exact List.Pairwise.nil
  | cons x l ih =>
    refine List.pairwise_cons.mpr ⟨fun y hy => ?_, ih h.2⟩
    have hbound := (h.2.bounds.2 y hy).1
    rw [apart_iff]
    simp only [Block.payload, Block.ptr, Block.stop] at hbound ⊢
    omega

theorem Owns.nodup {s : Program} {bs : List Block} {fl : List Nat} (ho : Owns s bs fl) :
    (s.held.map Prod.fst).Nodup := by
  rw [ho.held.nodup_iff]
  have haddr : ((live bs).map (·.addr)).Nodup :=
    ho.shape.tiled.nodup.sublist ((List.filter_sublist (l := bs)).map _)
  have hptr : (live bs).map (·.ptr) = ((live bs).map (·.addr)).map (· + 24) := by
    simp [Block.ptr]
  rw [hptr]
  exact haddr.map fun _ _ heq => Nat.add_right_cancel heq

namespace Roomy

variable {s : Program} {bs bs' : List Block} {fl fl' : List Nat}

theorem taken {need p n : Nat} (hr : Roomy s bs) (ht : Taken need p bs bs') (hneed : n ≤ need ∧ 16 ≤ need) {k : Heap} :
    Roomy ⟨k, (p, n) :: s.held⟩ bs' := by
  obtain ⟨l, x, r, m, ys, rfl, hx, rfl, rfl, hm, -, hys⟩ := ht
  constructor
  · intro y hy
    simp only [List.mem_append, List.mem_cons] at hy
    rcases hy with (hy | rfl | hy) | hy
    · exact hr.bytes y (by simp [hy])
    · exact Nat.lt_of_lt_of_le (by omega) hm
    · exact (hys y hy).2
    · exact hr.bytes y (by simp [hy])
  · intro q hq
    rcases List.mem_cons.mp hq with rfl | hq
    · exact ⟨⟨x.addr, m, false⟩, by simp [live_cons], rfl, by simp only; omega⟩
    · obtain ⟨y, hy, hptr, hle⟩ := hr.held q hq
      refine ⟨y, ?_, hptr, hle⟩
      simp only [live_append, live_cons, hx, if_true, List.mem_append] at hy
      simp only [live_append, live_cons, Bool.false_eq_true, if_false, List.mem_append, List.mem_cons]
      tauto

theorem grow {want : Nat} {mmap : Nat → Nat} (hr : Roomy s bs) : Roomy s (bs ++ [grown want mmap]) := by
  have hpages : 16 ≤ growPages want := Nat.le_max_left _ _
  constructor
  · simp only [List.forall_mem_append, List.forall_mem_singleton]
    refine ⟨hr.bytes, ?_⟩
    simp only [grown]
    omega
  · intro q hq
    obtain ⟨x, hx, hptr, hle⟩ := hr.held q hq
    exact ⟨x, by simp [hx], hptr, hle⟩

theorem malloc {n : Nat} {mmap : Nat → Nat} {r : Ret} (hr : Roomy s bs) (hserved : Served n mmap bs r bs')
    (hn : n ≤ 2 ^ 62) : Roomy ⟨r.heap, if r.ptr = 0 then s.held else (r.ptr, n) :: s.held⟩ bs' := by
  cases hserved with
  | here _ ht => simpa only [if_neg ht.ptr_ne] using hr.taken ht (le_rounded hn)
  | refused _ _ => exact ⟨hr.bytes, hr.held⟩
  | there _ _ _ ht => simpa only [if_neg ht.ptr_ne] using hr.grow.taken ht (le_rounded hn)
  | wasted _ _ _ => exact ⟨hr.grow.bytes, hr.grow.held⟩

theorem free {p n : Nat} {l l' r r' : List Block} {x x' : Block} {k' : Heap} (ho : Owns s (l ++ x :: r) fl)
    (hroom : Roomy s (l ++ x :: r)) (hmem : (p, n) ∈ s.held) (hx : x.free = false) (hptr : x.ptr = p)
    (hlow : x'.addr ≤ x.addr) (hhigh : x.stop ≤ x'.stop) (hsubl : l' ⊆ l) (hsubr : r' ⊆ r)
    (hx' : x'.free = true) (hl : live l' = live l) (hr : live r' = live r) :
    Roomy ⟨k', s.held.erase (p, n)⟩ (l' ++ x' :: r') := by
  have hbytes := hroom.bytes
  simp only [List.forall_mem_append, List.forall_mem_cons] at hbytes
  obtain ⟨hlb, hxb, hrb⟩ := hbytes
  constructor
  · simp only [List.forall_mem_append, List.forall_mem_cons]
    refine ⟨fun y hy => hlb y (hsubl hy), ?_, fun y hy => hrb y (hsubr hy)⟩
    simp only [Block.stop] at hhigh
    omega
  · intro q hq
    have hnd := ho.nodup
    have hqmem := List.mem_of_mem_erase hq
    obtain ⟨y, hy, hyptr, hle⟩ := hroom.held q hqmem
    have hne : q ≠ (p, n) := (hnd.of_map.mem_erase_iff.mp hq).1
    have hyx : y ≠ x := by
      rintro rfl
      exact hne (List.inj_on_of_nodup_map hnd hqmem hmem (hyptr.symm.trans hptr))
    refine ⟨y, ?_, hyptr, hle⟩
    simp only [live_append, live_cons, hx, hx', Bool.false_eq_true, if_false, if_true, hl, hr, List.mem_append,
      List.mem_cons, hyx, false_or] at hy ⊢
    exact hy

end Roomy

theorem Step.roomy {s t : Program} {o : Op} (h : Guarded Small Step s o t) {bs : List Block} {fl : List Nat}
    (ho : Owns s bs fl) (hr : Roomy s bs) : ∃ bs' fl', Owns t bs' fl' ∧ Roomy t bs' := by
  obtain ⟨hsmall, hstep⟩ := h
  cases hstep with
  | malloc hn hm hcall =>
    obtain ⟨r, bs', fl', hcall', hs', hserved⟩ := ho.shape.malloc hm _
    obtain rfl := Option.some.inj (hcall.symm.trans hcall')
    exact ⟨bs', fl', ho.malloc hs' hserved, hr.malloc hserved (hsmall _ _ rfl)⟩
  | free hmem hcall =>
    obtain ⟨l, x, r, rfl, hx, hptr⟩ := ho.split hmem
    obtain ⟨k', l', x', r', fl', hcall', hs', hx', hlow, hhigh, hsubl, hsubr, hl, hlr, -⟩ := ho.shape.spudFree hx
    rw [hptr] at hcall'
    obtain rfl := Option.some.inj (hcall.symm.trans hcall')
    exact ⟨_, fl', ho.free hmem hx hptr hs' hx' hl hlr, hr.free ho hmem hx hptr hlow hhigh hsubl hsubr hx' hl hlr⟩
  | freeNull hcall =>
    obtain rfl := Option.some.inj hcall
    exact ⟨bs, fl, ho, hr⟩
  | write hm => exact ⟨bs, fl, ho.write hm, hr.bytes, hr.held⟩

theorem Owns.sound {s : Program} {bs : List Block} {fl : List Nat} (ho : Owns s bs fl) (hr : Roomy s bs) : Sound s := by
  have hs := ho.shape
  constructor
  · refine ⟨bs, fl, hs.tiled, hs.holds, hs.chain, hs.frees, ho.held, hs.tiled.payloads.sublist List.filter_sublist, ?_⟩
    intro q hq
    obtain ⟨x, hx, hptr, hle⟩ := hr.held q hq
    have haddr := hs.tiled.aligned hs.base hs.even x (Owns.mem_live.mp hx).1
    refine ⟨?_, x, hx, hptr, hle⟩
    rw [← hptr]
    simp only [Block.ptr]
    omega
  · intro q hq
    obtain ⟨l, x, r, rfl, hx, hptr⟩ := ho.split hq
    obtain ⟨k', l', x', r', fl', hcall, hs', hx', hlow, hhigh, -, -, -, -, hhead, hlast⟩ := hs.spudFree hx
    rw [hptr] at hcall
    refine ⟨k', hcall, l', x', r', hs'.tiled, hs'.holds, ?_, ?_, hx',
      hlast fun y hy => hr.bytes y (by simp [hy]), hhead⟩
    · simp only [← hptr, Block.ptr]
      omega
    · simp only [← hptr, Block.ptr, Block.foot, Block.stop] at hhigh ⊢
      omega
  · intro n _ mmap hmmap
    obtain ⟨r, bs', fl', hcall, -⟩ := hs.malloc hmmap n
    exact ⟨r, hcall⟩

/-- The blocks tile the heap, the list has every free one once, and a block in use is its owner's. -/
theorem heap_sound {mem : Buf} {ops : List Op} {s : Program} (h : Run (Guarded Small Step) (start mem) ops s) :
    Sound s := by
  have hstep : ∀ s o t, (∃ bs fl, Owns s bs fl ∧ Roomy s bs) → Guarded Small Step s o t →
      ∃ bs fl, Owns t bs fl ∧ Roomy t bs := by
    rintro s o t ⟨bs, fl, ho, hr⟩ hstep
    exact Step.roomy hstep ho hr
  obtain ⟨bs, fl, ho, hr⟩ := h.invariant hstep ⟨[], [], Owns.start mem, ⟨by simp, by simp [start]⟩⟩
  exact ho.sound hr

/-- Two blocks are taken and the first is given back. -/
theorem heap_sound_pair :
    ∃ s, Run (Guarded Small Step) (start fun _ => 0)
      [.malloc 100 (pagesFrom 0x40000000), .malloc 50 (pagesFrom 0x40010000), .free 0x40000018] s ∧ Sound s := by
  have hcalls : ((start fun _ => 0).heap.spudMalloc 100 (pagesFrom 0x40000000)).bind (fun r =>
      (r.heap.spudMalloc 50 (pagesFrom 0x40010000)).bind fun r' => (r'.heap.spudFree 0x40000018).map fun _ =>
        (r.ptr, r.heap.stop, r'.ptr)) = some (0x40000018, 0x40010000, 0x400000A8) := by decide +kernel
  simp only [Option.bind_eq_some_iff, Option.map_eq_some_iff, Prod.mk.injEq] at hcalls
  obtain ⟨r, hfirst, r', hsecond, k, hfree, hptr, hstop, hptr'⟩ := hcalls
  have hstep1 : Step (start fun _ => 0) (.malloc 100 (pagesFrom 0x40000000)) ⟨r.heap, [(0x40000018, 100)]⟩ := by
    have hcall := Step.malloc (s := start fun _ => 0) (by decide)
      (contiguous_pagesFrom rfl (by decide) (absurd rfl)) hfirst
    simpa [hptr, start] using hcall
  have hstep2 : Step ⟨r.heap, [(0x40000018, 100)]⟩ (.malloc 50 (pagesFrom 0x40010000))
      ⟨r'.heap, [(0x400000A8, 50), (0x40000018, 100)]⟩ := by
    have hmmap : Contiguous r.heap (pagesFrom 0x40010000) := contiguous_pagesFrom rfl (by decide) fun _ => hstop.symm
    have hcall := Step.malloc (s := ⟨r.heap, [(0x40000018, 100)]⟩) (by decide) hmmap hsecond
    simpa [hptr'] using hcall
  have hstep3 : Step ⟨r'.heap, [(0x400000A8, 50), (0x40000018, 100)]⟩ (.free 0x40000018) ⟨k, [(0x400000A8, 50)]⟩ :=
    Step.free (n := 100) (by simp) hfree
  have hsmall : ∀ {s n mmap}, n ≤ 2 ^ 62 → Small s (.malloc n mmap) := by
    rintro s n mmap hn m mmap' heq
    cases heq
    exact hn
  have hrun : Run (Guarded Small Step) (start fun _ => 0)
      [.malloc 100 (pagesFrom 0x40000000), .malloc 50 (pagesFrom 0x40010000), .free 0x40000018]
        ⟨k, [(0x400000A8, 50)]⟩ := by
    refine Run.cons ⟨hsmall (by decide), hstep1⟩ (Run.cons ⟨hsmall (by decide), hstep2⟩ (Run.single ⟨?_, hstep3⟩))
    intro n mmap heq
    cases heq
  exact ⟨_, hrun, heap_sound hrun⟩

end Siathos.Spud
