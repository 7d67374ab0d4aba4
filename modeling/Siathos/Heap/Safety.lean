import Mathlib.Data.List.Chain
import Mathlib.Data.List.Nodup
import Siathos.Heap.Model

/-!
# Heap safety

`carve` and `coalesce` cut the same memory otherwise, so the nodes go on tiling the chunks as
long as `kfree` only merges nodes that touch.
-/

open Lib Lib.Span

namespace Siathos.Heap

/-- The allocated nodes. -/
def HeapState.allocated (h : HeapState) : List HeapNode := h.nodes.filter (fun n => !n.free)

def extents (ns : List HeapNode) : List Span := ns.map (·.extent)

@[simp] theorem extents_nil : extents [] = [] := rfl

@[simp] theorem extents_cons (n : HeapNode) (ns : List HeapNode) :
    extents (n :: ns) = n.extent :: extents ns := rfl

@[simp] theorem extents_append (ns ms : List HeapNode) :
    extents (ns ++ ms) = extents ns ++ extents ms := List.map_append

theorem extent_pos (n : HeapNode) : 0 < n.extent.len := by
  simp only [HeapNode.extent, sizeofHeapNode]
  omega

theorem block_within_extent (n : HeapNode) : Within n.block n.extent := by
  rw [within_iff]
  simp only [HeapNode.block, HeapNode.extent, HeapNode.ptr, sizeofHeapNode]
  omega

theorem nodup_ptr {ns : List HeapNode} (h : (extents ns).Pairwise Apart) :
    (ns.map (·.ptr)).Nodup := by
  have hbase : ((extents ns).map (·.base)).Nodup := by
    refine nodup_base h ?_
    intro s hs
    obtain ⟨n, -, rfl⟩ := List.mem_map.mp hs
    exact extent_pos n
  have hptr : ns.map (·.ptr) = ((extents ns).map (·.base)).map (· + sizeofHeapNode) := by
    simp only [extents, List.map_map]
    rfl
  rw [hptr]
  exact List.Nodup.map (fun _ _ hab => Nat.add_right_cancel hab) hbase

theorem ptr_inj {ns : List HeapNode} (h : (extents ns).Pairwise Apart) {n m : HeapNode}
    (hn : n ∈ ns) (hm : m ∈ ns) (hptr : n.ptr = m.ptr) : n = m :=
  List.inj_on_of_nodup_map (nodup_ptr h) hn hm hptr

/-! ## The walk of kmalloc -/

/-- What `kmalloc` looks for. -/
def fits (size : Nat) (n : HeapNode) : Bool := n.free && decide (n.size ≥ size)

/-- The bytes that the caller gets from the node `cur`. -/
def taken (cur : HeapNode) (size : Nat) : Span :=
  ⟨cur.ptr, if cur.size ≥ size + sizeofHeapNode + 32 then size else cur.size⟩

theorem walk_none {ns : List HeapNode} {size : Nat} (hm : ∀ n ∈ ns, n.magic = heapMagic)
    (h : ns.find? (fits size) = none) : walk ns size = .none := by
  induction ns with
  | nil => rfl
  | cons cur rest ih =>
    rw [List.forall_mem_cons] at hm
    rw [List.find?_cons] at h
    cases hf : fits size cur with
    | true => simp [hf] at h
    | false =>
      simp only [hf] at h
      have hf' : (cur.free && decide (cur.size ≥ size)) = false := hf
      simp [walk, hm.1, hf', ih hm.2 h]

theorem walk_found {ns : List HeapNode} {size : Nat} {cur : HeapNode}
    (hm : ∀ n ∈ ns, n.magic = heapMagic) (h : ns.find? (fits size) = some cur) :
    ∃ pre post, ns = pre ++ cur :: post ∧
      walk ns size = .found (pre ++ carve cur size ++ post) cur.ptr := by
  induction ns with
  | nil => simp at h
  | cons m rest ih =>
    rw [List.forall_mem_cons] at hm
    rw [List.find?_cons] at h
    cases hf : fits size m with
    | true =>
      simp only [hf, Option.some.injEq] at h
      subst h
      have hf' : (m.free && decide (m.size ≥ size)) = true := hf
      exact ⟨[], rest, rfl, by simp [walk, hm.1, hf']⟩
    | false =>
      simp only [hf] at h
      have hf' : (m.free && decide (m.size ≥ size)) = false := hf
      obtain ⟨pre, post, hns, hw⟩ := ih hm.2 h
      exact ⟨m :: pre, post, by rw [hns]; rfl, by simp [walk, hm.1, hf', hw]⟩

theorem fits_free {size : Nat} {n : HeapNode} (h : fits size n = true) :
    n.free = true ∧ size ≤ n.size := by
  simpa [fits] using h

/-! ## carve -/

/-- The node that the caller gets. -/
def takenNode (cur : HeapNode) (size : Nat) : HeapNode :=
  { cur with size := (taken cur size).len, free := false }

theorem le_taken {cur : HeapNode} {size : Nat} (h : size ≤ cur.size) :
    size ≤ (taken cur size).len := by
  simp only [taken]
  split
  · exact Nat.le_refl _
  · exact h

theorem taken_le (cur : HeapNode) (size : Nat) : (taken cur size).len ≤ cur.size := by
  by_cases h : cur.size ≥ size + sizeofHeapNode + 32
  · simp only [taken, if_pos h]
    omega
  · simp only [taken, if_neg h, Nat.le_refl]

theorem carve_magic {cur : HeapNode} {size : Nat} (h : cur.magic = heapMagic) :
    ∀ n ∈ carve cur size, n.magic = heapMagic := by
  unfold carve
  split <;> simp [h]

theorem carve_allocated (cur : HeapNode) (size : Nat) :
    (carve cur size).filter (fun n => !n.free) = [takenNode cur size] := by
  unfold carve takenNode taken
  split <;> rfl

/-- The nodes that `carve` makes tile the node that it cuts. -/
theorem carve_tiles {cur : HeapNode} {size : Nat} :
    (extents (carve cur size)).Pairwise Apart ∧
      ∀ a, Covers (extents (carve cur size)) a ↔ Covers [cur.extent] a := by
  unfold carve
  split
  case isTrue hsize =>
    simp only [sizeofHeapNode] at hsize
    have hmeets : Meets ⟨cur.addr, sizeofHeapNode + size⟩
        ⟨cur.addr + sizeofHeapNode + size, sizeofHeapNode + (cur.size - size - sizeofHeapNode)⟩ := by
      simp only [Meets, sizeofHeapNode]
      omega
    have hjoin : cur.extent = join ⟨cur.addr, sizeofHeapNode + size⟩
        ⟨cur.addr + sizeofHeapNode + size, sizeofHeapNode + (cur.size - size - sizeofHeapNode)⟩ := by
      simp only [join, HeapNode.extent, sizeofHeapNode, Span.mk.injEq, true_and]
      omega
    rw [hjoin]
    exact ⟨(pairwise_join hmeets []).mp (List.pairwise_singleton _ _),
      fun a => (covers_join hmeets [] a).symm⟩
  case isFalse =>
    exact ⟨List.pairwise_singleton _ _, fun _ => Iff.rfl⟩

/-! ## kfree -/

/-- Where two neighbours of the list are free, the second starts at the end of the first. -/
def FreeNeighboursMeet (ns : List HeapNode) : Prop :=
  ns.IsChain fun n m => n.free → m.free → Meets n.extent m.extent

theorem extent_merge (n m : HeapNode) :
    HeapNode.extent { n with size := n.size + (sizeofHeapNode + m.size) } =
      join n.extent m.extent := by
  simp only [HeapNode.extent, join, Span.mk.injEq, true_and]
  omega

theorem FreeNeighboursMeet.merge {n m : HeapNode} {rest : List HeapNode}
    (h : FreeNeighboursMeet (n :: m :: rest)) (hfree : (n.free && m.free) = true) :
    Meets n.extent m.extent ∧
      FreeNeighboursMeet ({ n with size := n.size + (sizeofHeapNode + m.size) } :: rest) := by
  simp only [Bool.and_eq_true] at hfree
  obtain ⟨hn, hm⟩ := hfree
  obtain ⟨hnm, hrest⟩ := List.isChain_cons_cons.mp h
  have hmeets := hnm hn hm
  refine ⟨hmeets, ?_⟩
  cases rest with
  | nil => exact List.isChain_singleton _
  | cons r rest =>
    obtain ⟨hmr, hrest⟩ := List.isChain_cons_cons.mp hrest
    refine List.isChain_cons_cons.mpr ⟨fun _ hr => ?_, hrest⟩
    have := hmr hm hr
    simp only [Meets, HeapNode.extent] at hmeets this ⊢
    omega

theorem coalesce_covers {ns : List HeapNode} (h : FreeNeighboursMeet ns) (a : Nat) :
    Covers (extents (coalesce ns)) a ↔ Covers (extents ns) a := by
  fun_induction coalesce ns with
  | case1 => rfl
  | case2 => rfl
  | case3 n m rest hfree ih =>
    obtain ⟨hmeets, hrest⟩ := h.merge hfree
    rw [ih hrest, extents_cons, extent_merge, covers_join hmeets]
    rfl
  | case4 n m rest _ ih =>
    rw [extents_cons, covers_cons, ih (List.IsChain.tail h), extents_cons n, covers_cons]

theorem coalesce_pairwise {ns : List HeapNode} (h : FreeNeighboursMeet ns)
    (hp : (extents ns).Pairwise Apart) : (extents (coalesce ns)).Pairwise Apart := by
  fun_induction coalesce ns with
  | case1 => exact hp
  | case2 => exact hp
  | case3 n m rest hfree ih =>
    obtain ⟨hmeets, hrest⟩ := h.merge hfree
    refine ih hrest ?_
    rw [extents_cons, extent_merge]
    exact (pairwise_join hmeets (extents rest)).mpr hp
  | case4 n m rest _ ih =>
    have htail : FreeNeighboursMeet (m :: rest) := List.IsChain.tail h
    obtain ⟨hn, hp⟩ := List.pairwise_cons.mp hp
    refine List.pairwise_cons.mpr ⟨fun s hs a ha ha' => ?_, ih htail hp⟩
    obtain ⟨t, ht, hat⟩ := (coalesce_covers htail a).mp ⟨s, hs, ha'⟩
    exact hn t ht a ha hat

theorem coalesce_allocated (ns : List HeapNode) :
    (coalesce ns).filter (fun n => !n.free) = ns.filter (fun n => !n.free) := by
  fun_induction coalesce ns with
  | case1 => rfl
  | case2 => rfl
  | case3 n m rest hfree ih =>
    simp only [Bool.and_eq_true] at hfree
    rw [ih]
    simp [hfree.1, hfree.2]
  | case4 n m rest _ ih =>
    simp only [List.filter_cons, ih]

/-- A node has the property after a merge or when it becomes free, if it had it before. -/
structure Lasting (P : HeapNode → Prop) : Prop where
  merge : ∀ {n m : HeapNode}, P n → P m → P { n with size := n.size + (sizeofHeapNode + m.size) }
  free : ∀ {n : HeapNode}, P n → P { n with free := true }

theorem magic_lasting : Lasting fun n => n.magic = heapMagic := ⟨fun hn _ => hn, id⟩

section

variable {P : HeapNode → Prop}

theorem Lasting.forall_coalesce (hP : Lasting P) {ns : List HeapNode} (h : ∀ n ∈ ns, P n) : ∀ n ∈ coalesce ns, P n := by
  fun_induction coalesce ns with
  | case1 => exact h
  | case2 => exact h
  | case3 n m rest _ ih =>
    refine ih ?_
    simp only [List.forall_mem_cons] at h ⊢
    exact ⟨hP.merge h.1 h.2.1, h.2.2⟩
  | case4 n m rest _ ih =>
    simp only [List.forall_mem_cons] at h ⊢
    exact ⟨h.1, ih (List.forall_mem_cons.mpr h.2)⟩

theorem Lasting.forall_markFree (hP : Lasting P) (p : Nat) {ns : List HeapNode} (h : ∀ n ∈ ns, P n) :
    ∀ n ∈ markFree p ns, P n := by
  induction ns with
  | nil => exact h
  | cons cur rest ih =>
    rw [List.forall_mem_cons] at h
    unfold markFree
    split_ifs
    · exact List.forall_mem_cons.mpr ⟨hP.free h.1, h.2⟩
    · exact List.forall_mem_cons.mpr ⟨h.1, ih h.2⟩

theorem Lasting.forall_kfree (hP : Lasting P) {h : HeapState} (hall : ∀ n ∈ h.nodes, P n) (p : Nat) :
    ∀ n ∈ (kfree h p).nodes, P n := by
  unfold kfree
  split_ifs
  · exact hall
  · exact hP.forall_coalesce (hP.forall_markFree p hall)
  · exact hall

end

/-- `markFree` changes every node whose block starts at `p`, as there is at most one. -/
theorem markFree_eq_map {p : Nat} {ns : List HeapNode} (h : (ns.map (·.ptr)).Nodup) :
    markFree p ns = ns.map (fun n => { n with free := n.free || decide (n.ptr = p) }) := by
  induction ns with
  | nil => rfl
  | cons cur rest ih =>
    obtain ⟨hcur, hrest⟩ := List.nodup_cons.mp h
    by_cases hp : cur.ptr = p
    · have hid : rest.map (fun n => { n with free := n.free || decide (n.ptr = p) }) = rest := by
        refine (List.map_congr_left fun n hn => ?_).trans (List.map_id rest)
        have : n.ptr ≠ p := fun h => hcur (List.mem_map.mpr ⟨n, hn, h.trans hp.symm⟩)
        simp [this]
      simp [markFree, hp, hid]
    · simp [markFree, hp, ih hrest]

theorem markFree_extents (p : Nat) (ns : List HeapNode) :
    extents (markFree p ns) = extents ns := by
  induction ns with
  | nil => rfl
  | cons cur rest ih =>
    by_cases hp : cur.ptr = p
    · simp [markFree, hp, HeapNode.extent]
    · simp [markFree, hp, ih]

/-! ## The invariant -/

/-- The invariant of the list alone. -/
structure Sound (h : HeapState) : Prop where
  magic : ∀ n ∈ h.nodes, n.magic = heapMagic
  tiles : Tiles (extents h.nodes) h.chunks

/-- The pointers in use are those of the allocated nodes. -/
structure Held (h : HeapState) (live : List Live) : Prop where
  large : ∀ l ∈ live, ∃ n ∈ h.allocated, n.ptr = l.ptr ∧ l.size ≤ n.size
  distinct : (live.map (·.ptr)).Nodup
  used : ∀ n ∈ h.allocated, n.ptr ∈ live.map (·.ptr)
  inChunk : ∀ n ∈ h.allocated, ∃ c ∈ h.chunks, Within n.block c

structure Inv (s : State) : Prop where
  sound : Sound s.heap
  held : Held s.heap s.live

theorem mem_allocated {h : HeapState} {n : HeapNode} :
    n ∈ h.allocated ↔ n ∈ h.nodes ∧ n.free = false := by
  simp [HeapState.allocated]

theorem Sound.disjoint {h : HeapState} (hs : Sound h) : h.blocks.Pairwise Apart := by
  have hsub : (extents h.allocated).Pairwise Apart :=
    hs.tiles.1.sublist (List.filter_sublist.map _)
  rw [extents, List.pairwise_map] at hsub
  rw [HeapState.blocks, List.pairwise_map]
  exact hsub.imp fun hnm => hnm.mono (block_within_extent _) (block_within_extent _)

theorem Inv.safe {s : State} (h : Inv s) : Safe s where
  large l hl := by
    obtain ⟨n, hn, hptr, hsize⟩ := h.held.large l hl
    obtain ⟨hn, hfree⟩ := mem_allocated.mp hn
    exact ⟨n, hn, hfree, hptr, hsize⟩
  distinct := h.held.distinct
  used n hn hfree := h.held.used n (mem_allocated.mpr ⟨hn, hfree⟩)
  disjoint := h.sound.disjoint
  inChunk b hb := by
    obtain ⟨n, hn, rfl⟩ := List.mem_map.mp hb
    exact h.held.inChunk n hn
  tiles := h.sound.tiles

theorem freshNode_extent {pages : Nat} (h : 0 < pages) (base : Nat) :
    (freshNode pages base).extent = chunk pages base := by
  simp only [freshNode, HeapNode.extent, chunk, sizeofHeapNode, Span.mk.injEq, true_and]
  omega

theorem inv_boot (mem : Option Nat) : Inv (boot mem) := by
  cases mem with
  | none =>
    exact ⟨⟨by simp [boot, heapInit], ⟨List.Pairwise.nil, fun _ => Iff.rfl⟩⟩,
      ⟨by simp [boot], by simp [boot], by simp [HeapState.allocated, boot, heapInit],
        by simp [HeapState.allocated, boot, heapInit]⟩⟩
  | some mem =>
    have htiles : Tiles (extents [freshNode 1024 mem]) [chunk 1024 mem] := by
      rw [extents_cons, extents_nil, freshNode_extent (by decide)]
      exact Tiles.refl (List.pairwise_singleton _ _)
    have hnone : (boot (some mem)).heap.allocated = [] := rfl
    exact ⟨⟨by simp [boot, heapInit, freshNode], htiles⟩,
      ⟨by simp [boot], by simp [boot], by simp [hnone], by simp [hnone]⟩⟩

/-! ## What one call keeps -/

/-- The heap after the walk took `cur`. -/
def HeapState.take (h : HeapState) (pre post : List HeapNode) (cur : HeapNode) (size : Nat) :
    HeapState :=
  { h with nodes := pre ++ carve cur size ++ post }

theorem forall_take {P : HeapNode → Prop} {h : HeapState} (hall : ∀ n ∈ h.nodes, P n) {pre post : List HeapNode}
    {cur : HeapNode} (hns : h.nodes = pre ++ cur :: post) {size : Nat} (hcarve : P cur → ∀ n ∈ carve cur size, P n) :
    ∀ n ∈ (h.take pre post cur size).nodes, P n := by
  rw [hns] at hall
  simp only [List.forall_mem_append, List.forall_mem_cons] at hall
  simp only [HeapState.take, List.forall_mem_append]
  exact ⟨⟨hall.1, hcarve hall.2.1⟩, hall.2.2⟩

theorem Sound.take {h : HeapState} (hs : Sound h) {pre post : List HeapNode} {cur : HeapNode}
    (hns : h.nodes = pre ++ cur :: post) (size : Nat) : Sound (h.take pre post cur size) := by
  have htiles := hs.tiles
  rw [hns] at htiles
  refine ⟨forall_take hs.magic hns carve_magic, ?_⟩
  · have hcut : Tiles (extents pre ++ [cur.extent] ++ extents post) h.chunks := by
      simpa using htiles
    simpa [HeapState.take] using hcut.replace carve_tiles.1 carve_tiles.2

theorem take_allocated {h : HeapState} {pre post : List HeapNode} {cur : HeapNode}
    (hns : h.nodes = pre ++ cur :: post) (hfree : cur.free = true) (size : Nat) (n : HeapNode) :
    n ∈ (h.take pre post cur size).allocated ↔ n ∈ h.allocated ∨ n = takenNode cur size := by
  simp only [HeapState.allocated, HeapState.take, hns, List.filter_append, carve_allocated,
    List.filter_cons, hfree, List.mem_append, List.mem_singleton]
  simp only [Bool.not_true, Bool.false_eq_true, if_false]
  tauto

theorem Held.take {h : HeapState} {live : List Live} (hs : Sound h) (hl : Held h live)
    {pre post : List HeapNode} {cur : HeapNode} (hns : h.nodes = pre ++ cur :: post)
    {size req : Nat} (hfree : cur.free = true) (hlarge : req ≤ (taken cur size).len)
    (hin : ∃ c ∈ h.chunks, Within (taken cur size) c) :
    Held (h.take pre post cur size) (⟨cur.ptr, req⟩ :: live) := by
  have hmem := take_allocated hns hfree size
  have hcur : cur ∈ h.nodes := by simp [hns]
  refine ⟨?_, ?_, ?_, ?_⟩
  · intro l hlive
    rcases List.mem_cons.mp hlive with rfl | hlive
    · exact ⟨takenNode cur size, (hmem _).mpr (Or.inr rfl), rfl, hlarge⟩
    · obtain ⟨n, hn, hrest⟩ := hl.large l hlive
      exact ⟨n, (hmem n).mpr (Or.inl hn), hrest⟩
  · refine List.nodup_cons.mpr ⟨fun hused => ?_, hl.distinct⟩
    -- A pointer in use belongs to an allocated node, and `cur` is free.
    obtain ⟨l, hlive, hptr⟩ := List.mem_map.mp hused
    obtain ⟨n, hn, hnptr, -⟩ := hl.large l hlive
    obtain ⟨hn, hnfree⟩ := mem_allocated.mp hn
    have heq : n = cur := ptr_inj hs.tiles.1 hn hcur (hnptr.trans hptr)
    rw [heq, hfree] at hnfree
    exact Bool.noConfusion hnfree
  · intro n hn
    rcases (hmem n).mp hn with hn | rfl
    · exact List.mem_cons_of_mem _ (hl.used n hn)
    · exact List.mem_cons_self
  · intro n hn
    rcases (hmem n).mp hn with hn | rfl
    · exact hl.inChunk n hn
    · exact hin

theorem Inv.grow {h : HeapState} {live : List Live} (hi : Inv ⟨h, live⟩) {more : Nat}
    (hp : ∀ a, Covers h.chunks a → a ∉ chunk 256 more) : Inv ⟨h.grow more, live⟩ := by
  have hmem : (h.grow more).allocated = h.allocated := by
    simp [HeapState.allocated, HeapState.grow, freshNode]
  refine ⟨⟨?_, ?_⟩, ⟨?_, hi.held.distinct, ?_, ?_⟩⟩
  · simp only [HeapState.grow, List.forall_mem_append, List.forall_mem_singleton]
    exact ⟨hi.sound.magic, rfl⟩
  · have htiles := hi.sound.tiles.snoc hp
    have hext : extents [freshNode 256 more] = [chunk 256 more] := by
      rw [extents_cons, extents_nil, freshNode_extent (by decide)]
    simpa only [HeapState.grow, extents_append, hext] using htiles
  · exact hmem ▸ hi.held.large
  · exact hmem ▸ hi.held.used
  · intro n hn
    obtain ⟨c, hc, hin⟩ := hi.held.inChunk n (hmem ▸ hn)
    exact ⟨c, List.mem_append_left _ hc, hin⟩

theorem FreeNeighboursMeet.markFree {p : Nat} {ns : List HeapNode}
    (hnd : (ns.map (·.ptr)).Nodup)
    (h : ns.IsChain fun n m => n.free ∨ n.ptr = p → m.free ∨ m.ptr = p →
      Meets n.extent m.extent) :
    FreeNeighboursMeet (markFree p ns) := by
  rw [markFree_eq_map hnd, FreeNeighboursMeet, List.isChain_map]
  exact h.imp fun n m hnm hn hm => hnm (by simpa using hn) (by simpa using hm)

theorem kfree_allocated {h : HeapState} (hs : Sound h) {p : Nat} (hp : p ≠ 0) (n : HeapNode) :
    n ∈ (kfree h p).allocated ↔ n ∈ h.allocated ∧ n.ptr ≠ p := by
  unfold kfree
  rw [if_neg hp]
  split
  case isTrue =>
    simp only [HeapState.allocated, coalesce_allocated,
      markFree_eq_map (nodup_ptr hs.tiles.1), List.mem_filter, List.mem_map]
    constructor
    · rintro ⟨⟨m, hm, rfl⟩, hfree⟩
      simp only [Bool.not_or, Bool.and_eq_true, Bool.not_eq_true', decide_eq_false_iff_not] at hfree
      obtain ⟨hmfree, hptr⟩ := hfree
      have hsame : { m with free := m.free || decide (m.ptr = p) } = m := by simp [hptr]
      rw [hsame]
      exact ⟨⟨hm, by simp [hmfree]⟩, hptr⟩
    · rintro ⟨⟨hm, hfree⟩, hptr⟩
      refine ⟨⟨n, hm, ?_⟩, hfree⟩
      simp [hptr]
  case isFalse hnone =>
    refine ⟨fun hn => ⟨hn, fun hptr => hnone ?_⟩, fun hn => hn.1⟩
    exact List.any_eq_true.mpr ⟨n, (mem_allocated.mp hn).1, decide_eq_true hptr⟩

theorem kfree_chunks (h : HeapState) (p : Nat) : (kfree h p).chunks = h.chunks := by
  unfold kfree
  split
  · rfl
  · split <;> rfl

theorem Sound.kfree {h : HeapState} (hs : Sound h) {p : Nat}
    (hmeet : h.nodes.IsChain fun n m => n.free ∨ n.ptr = p → m.free ∨ m.ptr = p →
      Meets n.extent m.extent) :
    Sound (kfree h p) := by
  have hnd := nodup_ptr hs.tiles.1
  have hfree := FreeNeighboursMeet.markFree hnd hmeet
  unfold Heap.kfree
  split
  · exact hs
  split
  case isTrue =>
    refine ⟨magic_lasting.forall_coalesce (magic_lasting.forall_markFree p hs.magic), coalesce_pairwise hfree ?_,
      fun a => ?_⟩
    · rw [markFree_extents]
      exact hs.tiles.1
    · show Covers (extents (coalesce (Heap.markFree p h.nodes))) a ↔ _
      rw [coalesce_covers hfree, markFree_extents]
      exact hs.tiles.2 a
  case isFalse => exact hs

theorem Held.kfree {h : HeapState} {live : List Live} (hs : Sound h) (hl : Held h live) {p : Nat}
    (hp : p ≠ 0) : Held (kfree h p) (live.filter (fun l => l.ptr ≠ p)) := by
  have hmem := kfree_allocated hs hp
  refine ⟨?_, ?_, ?_, ?_⟩
  · intro l hlive
    obtain ⟨hlive, hne⟩ := List.mem_filter.mp hlive
    obtain ⟨n, hn, hptr, hsize⟩ := hl.large l hlive
    exact ⟨n, (hmem n).mpr ⟨hn, by simpa [hptr] using hne⟩, hptr, hsize⟩
  · exact hl.distinct.sublist (List.filter_sublist.map _)
  · intro n hn
    obtain ⟨hn, hne⟩ := (hmem n).mp hn
    obtain ⟨l, hlive, hptr⟩ := List.mem_map.mp (hl.used n hn)
    exact List.mem_map.mpr ⟨l, List.mem_filter.mpr ⟨hlive, by simpa [hptr] using hne⟩, hptr⟩
  · intro n hn
    rw [kfree_chunks]
    exact hl.inChunk n ((hmem n).mp hn).1

/-! ## The request -/

theorem roundUp16_le {size : Nat} (h : size ≤ 2 ^ 64 - 16) :
    size ≤ roundUp16 size ∧ roundUp16 size ≤ 2 ^ 64 - 16 := by
  unfold roundUp16
  omega

theorem roundUp16_wrap {size : Nat} (h : 2 ^ 64 - 16 < size) (h' : size < 2 ^ 64) :
    roundUp16 size = 0 := by
  unfold roundUp16
  omega

/-- Where `kmalloc` takes a node, the request did not wrap and the bytes taken are of one chunk. -/
def TakesWithinChunk (h : HeapState) (size : Nat) : Prop :=
  ∀ n, h.nodes.find? (fits (roundUp16 size)) = some n →
    size ≤ 2 ^ 64 - 16 ∧ ∃ c ∈ h.chunks, Within (taken n (roundUp16 size)) c

/-- The step is harmless: a `kmalloc` takes bytes of one chunk, without a wrapped size, and a
`kfree` merges only nodes that touch. -/
def Harmless (s : State) : Op → Prop
  | .kmalloc size _ => TakesWithinChunk s.heap size
  | .kfree p => s.heap.nodes.IsChain fun n m =>
      n.free ∨ n.ptr = p → m.free ∨ m.ptr = p → Meets n.extent m.extent

theorem freshNode_within (base size : Nat) :
    Within (taken (freshNode 256 base) size) (chunk 256 base) := by
  have hlen := taken_le (freshNode 256 base) size
  rw [within_iff]
  right
  have hbase : (taken (freshNode 256 base) size).base = base + 32 := rfl
  have hsize : (freshNode 256 base).size + 32 = 256 * 4096 := rfl
  simp only [hbase, chunk]
  omega

theorem TakesWithinChunk.grow {h : HeapState} {size more : Nat}
    (hnone : h.nodes.find? (fits (roundUp16 size)) = none) (hsize : size ≤ 2 ^ 64 - 16) :
    TakesWithinChunk (h.grow more) (roundUp16 size) := by
  have hround := roundUp16_le hsize
  have hagain : roundUp16 (roundUp16 size) = roundUp16 size := by
    unfold roundUp16 at hround ⊢
    omega
  intro n hn
  rw [hagain] at hn ⊢
  simp only [HeapState.grow, List.find?_append, hnone, Option.none_or, List.find?_cons] at hn
  refine ⟨hround.2, chunk 256 more, by simp [HeapState.grow], ?_⟩
  split at hn
  · obtain rfl := Option.some.inj hn
    exact freshNode_within more _
  · simp at hn

theorem kmallocHere_cases {h : HeapState} (size : Nat) (hmagic : ∀ n ∈ h.nodes, n.magic = heapMagic) :
    ((h.ready = false ∨ size = 0) ∧ kmallocHere h size = some (h, .null)) ∨
    (∃ pre post cur, h.nodes = pre ++ cur :: post ∧
      h.nodes.find? (fits (roundUp16 size)) = some cur ∧
      kmallocHere h size = some (h.take pre post cur (roundUp16 size), .ptr cur.ptr)) ∨
    (h.nodes.find? (fits (roundUp16 size)) = none ∧ kmallocHere h size = none) := by
  unfold kmallocHere
  split
  · next hrefused => exact Or.inl ⟨by simpa using hrefused, rfl⟩
  right
  cases hf : h.nodes.find? (fits (roundUp16 size)) with
  | none => exact Or.inr ⟨rfl, by rw [walk_none hmagic hf]⟩
  | some cur =>
    obtain ⟨pre, post, hns, hw⟩ := walk_found hmagic hf
    exact Or.inl ⟨pre, post, cur, hns, rfl, by rw [hw]; rfl⟩

theorem Inv.kmallocHere {h h' : HeapState} {live : List Live} {size req : Nat} {r : Result}
    (hi : Inv ⟨h, live⟩) (hreq : req ≤ size) (hok : TakesWithinChunk h size)
    (hr : kmallocHere h size = some (h', r)) : Inv ⟨h', addLive req live r⟩ := by
  rcases kmallocHere_cases size hi.sound.magic with ⟨-, hnull⟩ | ⟨pre, post, cur, hns, hf, htake⟩ | hnone
  · rw [hnull] at hr
    cases hr
    exact hi
  · rw [htake] at hr
    cases hr
    obtain ⟨hsize, hin⟩ := hok cur hf
    obtain ⟨hfree, hfits⟩ := fits_free (List.find?_some hf)
    have hlarge : req ≤ (taken cur (roundUp16 size)).len :=
      hreq.trans ((roundUp16_le hsize).1.trans (le_taken hfits))
    exact ⟨hi.sound.take hns _, hi.held.take hi.sound hns hfree hlarge hin⟩
  · rw [hnone.2] at hr
    cases hr

theorem Placed.grow {h : HeapState} {more : Nat} {grants : List Nat}
    (hp : Placed h.chunks (more :: grants)) :
    (∀ a, Covers h.chunks a → a ∉ chunk 256 more) ∧ Placed (h.grow more).chunks grants := by
  refine ⟨fun a ha hmem => ?_, by simpa [Placed, HeapState.grow] using hp⟩
  obtain ⟨-, -, hcross⟩ := pairwise_apart_append.mp hp
  exact hcross a ha (by simp [hmem])

theorem Inv.kmalloc {live : List Live} {req : Nat} (grants : List Nat) :
    ∀ {h : HeapState} {size : Nat}, Inv ⟨h, live⟩ → req ≤ size → size ≤ 2 ^ 64 - 16 →
      TakesWithinChunk h size → Placed h.chunks grants →
      Inv ⟨(kmalloc h size grants).1, addLive req live (kmalloc h size grants).2⟩ := by
  induction grants with
  | nil =>
    intro h size hi hreq _ hok _
    unfold Heap.kmalloc
    cases hr : Heap.kmallocHere h size with
    | none => exact hi
    | some r => exact hi.kmallocHere hreq hok hr
  | cons more grants ih =>
    intro h size hi hreq hsize hok hp
    unfold Heap.kmalloc
    cases hr : Heap.kmallocHere h size with
    | some r => exact hi.kmallocHere hreq hok hr
    | none =>
      obtain ⟨hnew, hp⟩ := hp.grow
      have hround := roundUp16_le hsize
      have hnone : h.nodes.find? (fits (roundUp16 size)) = none := by
        rcases kmallocHere_cases size hi.sound.magic with ⟨-, hnull⟩ | ⟨_, _, _, _, _, htake⟩ | hnone
        · simp [hr] at hnull
        · simp [hr] at htake
        · exact hnone.1
      exact ih (hi.grow hnew) (hreq.trans hround.1) hround.2 (.grow hnone hsize) hp

theorem Inv.kmalloc_wrap {h : HeapState} {live : List Live} {size : Nat} {grants : List Nat}
    (hi : Inv ⟨h, live⟩) (hsize : 2 ^ 64 - 16 < size) (hsize' : size < 2 ^ 64)
    (hok : TakesWithinChunk h size) (hp : Placed h.chunks grants) :
    Inv ⟨(Heap.kmalloc h size grants).1, addLive size live (Heap.kmalloc h size grants).2⟩ := by
  have hzero : ∀ h' : HeapState, ∀ grants, Heap.kmalloc h' 0 grants = (h', .null) := by
    intro h' grants
    cases grants <;> simp [Heap.kmalloc, Heap.kmallocHere]
  rcases kmallocHere_cases size hi.sound.magic with ⟨-, hnull⟩ | ⟨_, _, cur, _, hf, _⟩ | ⟨-, hnone⟩
  · cases grants <;> simpa [Heap.kmalloc, hnull, addLive] using hi
  · exact absurd (hok cur hf).1 (Nat.not_le.mpr hsize)
  · cases grants with
    | nil => simpa [Heap.kmalloc, hnone, addLive] using hi
    | cons more grants =>
      simp only [Heap.kmalloc, hnone, roundUp16_wrap hsize hsize', hzero]
      exact hi.grow hp.grow.1

theorem Inv.step {s t : State} {o : Op} (hi : Inv s) (h : Guarded Harmless Step s o t) :
    Inv t := by
  obtain ⟨hok, hstep⟩ := h
  cases hstep with
  | kmalloc size grants hsize hplaced =>
    by_cases hwrap : size ≤ 2 ^ 64 - 16
    · exact hi.kmalloc grants (Nat.le_refl _) hwrap hok hplaced
    · exact hi.kmalloc_wrap (Nat.not_le.mp hwrap) hsize hok hplaced
  | kfree p hp =>
    obtain ⟨l, hlive, rfl⟩ := List.mem_map.mp hp
    obtain ⟨n, -, hptr, -⟩ := hi.held.large l hlive
    have hne : l.ptr ≠ 0 := by
      rw [← hptr, HeapNode.ptr, sizeofHeapNode]
      omega
    exact ⟨hi.sound.kfree hok, hi.held.kfree hi.sound hne⟩

/-! ## A run that merges across a gap -/

/-- All of the first chunk is in use, and 16 bytes of a chunk further up. -/
def bothChunksUsed : State where
  heap := ⟨true, [⟨0x100000, heapMagic, 0x3FFFE0, false⟩, ⟨0x900000, heapMagic, 16, false⟩,
    ⟨0x900030, heapMagic, 0xFFFB0, true⟩], [chunk 1024 0x100000, chunk 256 0x900000]⟩
  live := [⟨0x900020, 16⟩, ⟨0x100020, 0x3FFFE0⟩]

/-- The second chunk is free again. -/
def firstChunkUsed : State where
  heap := ⟨true, [⟨0x100000, heapMagic, 0x3FFFE0, false⟩, ⟨0x900000, heapMagic, 0xFFFE0, true⟩],
    [chunk 1024 0x100000, chunk 256 0x900000]⟩
  live := [⟨0x100020, 0x3FFFE0⟩]

/-- Both blocks are freed: one node reaches from the first chunk past its end. -/
def mergedAcrossGap : State where
  heap := ⟨true, [⟨0x100000, heapMagic, 0x4FFFE0, true⟩],
    [chunk 1024 0x100000, chunk 256 0x900000]⟩
  live := []

theorem step_first_chunk :
    Step (boot (some 0x100000)) (.kmalloc 0x3FFFE0 [])
      ⟨⟨true, [⟨0x100000, heapMagic, 0x3FFFE0, false⟩], [chunk 1024 0x100000]⟩,
        [⟨0x100020, 0x3FFFE0⟩]⟩ :=
  Step.kmalloc (boot (some 0x100000)) 0x3FFFE0 [] (by decide) (List.pairwise_singleton _ _)

theorem step_second_chunk :
    Step ⟨⟨true, [⟨0x100000, heapMagic, 0x3FFFE0, false⟩], [chunk 1024 0x100000]⟩,
        [⟨0x100020, 0x3FFFE0⟩]⟩ (.kmalloc 16 [0x900000]) bothChunksUsed := by
  refine Step.kmalloc _ 16 [0x900000] (by decide) ?_
  simp only [Placed, List.map_cons, List.map_nil, List.cons_append, List.nil_append,
    List.pairwise_cons, List.mem_singleton, forall_eq, apart_iff, chunk]
  simp

theorem step_free_second : Step bothChunksUsed (.kfree 0x900020) firstChunkUsed := by
  have h : firstChunkUsed = ⟨kfree bothChunksUsed.heap 0x900020,
      bothChunksUsed.live.filter (fun l => l.ptr ≠ 0x900020)⟩ := by
    simp [kfree, bothChunksUsed, firstChunkUsed, markFree, coalesce, HeapNode.ptr, sizeofHeapNode]
  rw [h]
  exact Step.kfree _ _ (by decide)

theorem step_free_first : Step firstChunkUsed (.kfree 0x100020) mergedAcrossGap := by
  have h : mergedAcrossGap = ⟨kfree firstChunkUsed.heap 0x100020,
      firstChunkUsed.live.filter (fun l => l.ptr ≠ 0x100020)⟩ := by
    simp [kfree, mergedAcrossGap, firstChunkUsed, markFree, coalesce, HeapNode.ptr, sizeofHeapNode]
  rw [h]
  exact Step.kfree _ _ (by decide)

/-- The heap is safe after every run of harmless calls. -/
theorem heap_safe (mem : Option Nat) {ops : List Op} {s : State}
    (h : Run (Guarded Harmless Step) (boot mem) ops s) : Safe s :=
  (h.invariant (fun _ _ _ hi hstep => hi.step hstep) (inv_boot mem)).safe

theorem heap_safe_after_growth : Safe firstChunkUsed := by
  refine heap_safe (some 0x100000) (.cons ⟨?_, step_first_chunk⟩ (.cons ⟨?_, step_second_chunk⟩
    (.cons ⟨?_, step_free_second⟩ (.nil _))))
  · intro n hn
    have hn : some (freshNode 1024 0x100000) = some n := hn
    cases hn
    refine ⟨by decide, chunk 1024 0x100000, List.mem_singleton_self _, ?_⟩
    rw [within_iff]
    right
    decide
  · intro n hn
    have hn : (none : Option HeapNode) = some n := hn
    cases hn
  · simp [Harmless, bothChunksUsed, Meets, HeapNode.extent, HeapNode.ptr, sizeofHeapNode]

/-- A run of `kmalloc` and `kfree` of pointers in use that ends with a node outside the chunks. -/
theorem heap_unsafe_across_gap :
    ¬ ∀ (mem : Option Nat) (ops : List Op) (s : State), Run Step (boot mem) ops s → Safe s := by
  intro h
  have hsafe : Safe mergedAcrossGap := h (some 0x100000) _ _ (.cons step_first_chunk
    (.cons step_second_chunk (.cons step_free_second (.cons step_free_first (.nil _)))))
  have hcov := (hsafe.tiles.2 0x500000).mp
    ⟨_, List.mem_map_of_mem List.mem_cons_self, by decide⟩
  simp [mergedAcrossGap, chunk] at hcov

end Siathos.Heap
