import Siathos.Spud.Blocks

/-!
# spud_malloc on a row of blocks

A block that is taken is cut in its own place, and its node of the list gives way to the node of the
rest. `spud_grow` adds a block behind the others.
-/

open Lib

namespace Siathos.Spud

variable {k k1 : Heap} {bs : List Block} {fl : List Nat}

theorem next_congr {h : Nat} (hm : ∀ i, h + 16 ≤ i → i < h + 24 → k1.mem i = k.mem i) : k1.next h = k.next h :=
  Buf.numberAt_congr fun j hj => hm (h + 16 + j) (by omega) (by omega)

theorem mem_skip {α : Type} {s t : List α} {a c : α} (h : a ∈ s ++ t) : a ∈ s ++ c :: t :=
  ((List.sublist_cons_self c t).append_left s).subset h

/-- A walk stands at the link behind `s` and writes it: the node `c` gives way to others. -/
theorem Shape.chain_link {s t ws : List Nat} {c v : Nat} (hs : Shape k bs (s ++ c :: t)) (hfl : k1.fl = k.fl)
    (hnext : ∀ d ∈ s ++ t, k1.next d = k.next d)
    (hws : (ws = [] ∧ v = k.next c) ∨
      (ws = [v] ∧ 0 < v ∧ v < 2 ^ 64 ∧ k1.next v = k.next c ∧ ∀ d ∈ s, v + 8 ≤ d ∨ d + 8 ≤ v)) :
    Chain (k1.link (Link.head.after s) v).read .head (s ++ (ws ++ t)) := by
  have hfar : ∀ e ∈ s ++ t, .next e ≠ Link.head.after s →
      (k1.link (Link.head.after s) v).next e = k.next e := by
    intro e he hne
    rw [Heap.next_link, hnext e he]
    intro d hd
    have hds : d ∈ s := Shape.after_head s hd
    have hed : e ≠ d := by
      rintro rfl
      exact hne hd.symm
    have hapart := hs.far (mem_skip he) (List.mem_append_left _ hds) hed
    omega
  have hbehind : ∀ e ∈ t, .next e ≠ Link.head.after s := by
    intro e he heq
    have hes := Shape.after_head s heq.symm
    have hnd := List.nodup_append.mp hs.nodup
    exact hnd.2.2 e hes e (List.mem_cons_of_mem c he) rfl
  have hrest : Chain k.read (.next c) t := hs.chain.drop.2.2
  refine hs.chain.relink (hs.links rfl) ?_ ?_
  · intro m hm hne
    rcases List.mem_cons.mp hm with rfl | hm
    · cases hpp : Link.head.after s with
      | head => exact absurd hpp.symm hne
      | next d => exact hfl
    · obtain ⟨e, he, rfl⟩ := List.mem_map.mp hm
      exact hfar e (by simp [he]) hne
  · have hnodes : ∀ e ∈ t, (k1.link (Link.head.after s) v).read (.next e) = k.read (.next e) :=
      fun e he => hfar e (by simp [he]) (hbehind e he)
    rcases hws with ⟨rfl, rfl⟩ | ⟨rfl, hpos, hlt, hv, hapart⟩
    · exact hrest.move (Heap.read_link_self _ (k.next_lt c)) hnodes
    · refine ⟨Heap.read_link_self _ hlt, by omega, hrest.move ?_ hnodes⟩
      have hkept : (k1.link (Link.head.after s) v).next v = k1.next v :=
        Heap.next_link fun d hd => hapart d (Shape.after_head s hd)
      exact hkept.trans hv

theorem perm_node {s t L R : List Nat} {c : Nat} (h : (s ++ c :: t).Perm (L ++ c :: R)) : (s ++ t).Perm (L ++ R) :=
  (List.perm_middle.symm.trans (h.trans List.perm_middle)).cons_inv

theorem Shape.cut {l r ys : List Block} {x : Block} {s t : List Nat} {v : Nat}
    (hs : Shape k (l ++ x :: r) (s ++ x.addr :: t)) (hx : x.free = true)
    (hfl : k1.fl = k.fl) (hva : k1.va = k.va) (hstop : k1.stop = k.stop)
    (hm : ∀ i, i < x.addr ∨ x.stop ≤ i → k1.mem i = k.mem i)
    (hys : Tiled x.addr ys x.stop) (hholds : ∀ y ∈ ys, Holds k1.mem y) (heven : ∀ y ∈ ys, y.size % 16 = 0)
    (hv : ((ys.filter (·.free)).map (·.addr) = [] ∧ v = k.next x.addr) ∨
      ((ys.filter (·.free)).map (·.addr) = [v] ∧ k1.next v = k.next x.addr)) :
    Shape (k1.link (Link.head.after s) v) (l ++ ys ++ r) (s ++ ((ys.filter (·.free)).map (·.addr) ++ t)) := by
  have hxmem : x ∈ l ++ x :: r := by simp
  have hxbound := hs.bounds hxmem
  have hnode : ∀ d ∈ s ++ t, d + 32 ≤ x.addr ∨ x.stop ≤ d := by
    intro d hd
    have hdmem : d ∈ s ++ x.addr :: t := mem_skip hd
    have hne : d ≠ x.addr := by
      rintro rfl
      have hnd := List.perm_middle.nodup_iff.mp hs.nodup
      exact (List.nodup_cons.mp hnd).1 hd
    exact (hs.beside hxmem hdmem).resolve_left hne
  have hnext : ∀ d ∈ s ++ t, k1.next d = k.next d := by
    intro d hd
    have hfar := hnode d hd
    exact next_congr fun i hi hi' => hm i (by omega)
  have hybound := hys.bounds.2
  have hother : ∀ y ∈ l ++ r, x.stop ≤ y.addr ∨ y.stop ≤ x.addr := by
    intro y hy
    have hapart := hs.tiled
    rw [tiled_append] at hapart
    obtain ⟨c, hl, hxc, hr⟩ := hapart
    rcases List.mem_append.mp hy with hy | hy
    · have hbound := (hl.bounds.2 y hy).2
      omega
    · exact Or.inl (hr.bounds.2 y hy).1
  constructor
  · rw [Heap.link_va, Heap.link_stop, hva, hstop]
    have htiled : Tiled k.va (l ++ [x] ++ r) k.stop := by simpa using hs.tiled
    refine htiled.replace fun c d hcd => ?_
    obtain ⟨rfl, rfl⟩ := hcd
    exact hys
  · intro y hy
    have hcases : y ∈ ys ∨ y ∈ l ++ r := by
      simp only [List.mem_append, or_assoc, or_left_comm] at hy ⊢
      exact hy
    rcases hcases with hy | hy
    · refine Heap.holds_link (hholds y hy) fun d hd => ?_
      have hfar := hnode d (by simp [Shape.after_head s hd])
      have hbound := hybound y hy
      simp only [Beside]
      omega
    · have hold : Holds k.mem y := hs.holds y (mem_skip hy)
      have hframe : Holds k1.mem y := by
        have hapart := hother y hy
        exact hold.frame fun i hi hi' => hm i (by omega)
      refine Heap.holds_link hframe fun d hd => ?_
      exact hs.beside (mem_skip hy) (by simp [Shape.after_head s hd])
  · refine hs.chain_link hfl hnext ?_
    rcases hv with ⟨hnil, hv⟩ | ⟨hone, hv⟩
    · exact Or.inl ⟨hnil, hv⟩
    · have hvmem : v ∈ (ys.filter (·.free)).map (·.addr) := by simp [hone]
      obtain ⟨y, hy, rfl⟩ := List.mem_map.mp hvmem
      have hbound := hybound y (List.mem_of_mem_filter hy)
      simp only [Block.stop] at hbound hxbound
      refine Or.inr ⟨hone, by omega, by omega, hv, fun d hd => ?_⟩
      have hfar := hnode d (by simp [hd])
      simp only [Block.stop] at hfar
      omega
  · have hperm : (s ++ t).Perm ((l.filter (·.free)).map (·.addr) ++ (r.filter (·.free)).map (·.addr)) := by
      refine perm_node (c := x.addr) ?_
      simpa [List.filter_append, hx] using hs.frees
    have hpull : (s ++ ((ys.filter (·.free)).map (·.addr) ++ t)).Perm
        ((ys.filter (·.free)).map (·.addr) ++ (s ++ t)) := List.perm_append_comm_assoc _ _ _
    simp only [List.filter_append, List.map_append, List.append_assoc]
    exact hpull.trans ((hperm.append_left _).trans (List.perm_append_comm_assoc _ _ _))
  · intro y hy
    have hcases : y ∈ ys ∨ y ∈ l ++ r := by
      simp only [List.mem_append, or_assoc, or_left_comm] at hy ⊢
      exact hy
    exact hcases.elim (heven y) fun hy => hs.even y (mem_skip hy)
  · rw [Heap.link_va, hva, hs.base]
  · intro hzero
    rw [Heap.link_va, hva] at hzero
    exact absurd (hs.low hzero) (by simp)
  · rw [Heap.link_stop, hstop]
    exact hs.high

/-! ## take -/

theorem Shape.take_whole {l r : List Block} {x : Block} {s t : List Nat} {need : Nat}
    (hs : Shape k (l ++ x :: r) (s ++ x.addr :: t)) (hx : x.free = true)
    (hsize : ¬ x.size ≥ (need + hdrSz + rBlk + 16) % 2 ^ 64) :
    Shape (k.take need (Link.head.after s) x.addr) (l ++ [{ x with free := false }] ++ r) (s ++ t) := by
  have hhold : Holds k.mem x := hs.holds x (by simp)
  have hbound := hs.bounds (x := x) (by simp)
  have heven := hs.even x (by simp)
  have hksize : k.size x.addr = x.size := hhold.size
  simp only [Heap.take, hksize, if_neg hsize]
  have hys : Tiled x.addr [{ x with free := false }] x.stop := ⟨rfl, rfl⟩
  refine hs.cut hx rfl rfl rfl ?_ hys ?_ (by simpa using heven) (Or.inl ⟨by simp, ?_⟩)
  · intro i hi
    simp only [Block.stop] at hi
    exact Heap.store_mem (by omega)
  · simp only [List.mem_singleton, forall_eq]
    constructor
    · exact (Heap.store_other (i := x.addr) (by omega)).trans hhold.size
    · exact Heap.store_self (by decide)
    · exact (Heap.store_other (i := x.foot) (by simp only [Block.foot]; omega)).trans hhold.foot
  · exact Heap.store_other (by omega)

/-- What `take` writes when it cuts a block in two. -/
theorem split_writes {h need nk rest v : Nat} (hnk : nk = h + 32 + need) (hlt : nk + 32 + rest ≤ 2 ^ 63)
    (hv : v < 2 ^ 64)
    (hk1 : k1 = ((((((k.setSize nk rest).setFree nk 1).setNext nk v).setSize h need).setFree h 0).store
      (h + 24 + need) 8 need).store (nk + 24 + rest) 8 rest) :
    Holds k1.mem ⟨h, need, false⟩ ∧ Holds k1.mem ⟨nk, rest, true⟩ ∧ k1.next nk = v ∧
      ∀ i, i < h ∨ nk + 32 + rest ≤ i → k1.mem i = k.mem i := by
  subst hk1
  simp only [Heap.setSize, Heap.setFree, Heap.setNext, Heap.next]
  refine ⟨⟨?_, ?_, ?_⟩, ⟨?_, ?_, ?_⟩, ?_, ?_⟩
  · simp (disch := omega) only [Heap.store_other, Heap.store_self]
  · simp (disch := omega) only [Heap.store_other, Heap.store_self, Bool.toNat_false]
  · simp (disch := omega) only [Block.foot, Heap.store_other, Heap.store_self]
  · simp (disch := omega) only [Heap.store_other, Heap.store_self]
  · simp (disch := omega) only [Heap.store_other, Heap.store_self, Bool.toNat_true]
  · simp (disch := omega) only [Block.foot, Heap.store_self]
  · simp (disch := omega) only [Heap.store_other, Heap.store_self]
  · intro i hi
    simp (disch := omega) only [Heap.store_mem]

theorem Shape.take_split {l r : List Block} {x : Block} {s t : List Nat} {need : Nat}
    (hs : Shape k (l ++ x :: r) (s ++ x.addr :: t)) (hx : x.free = true) (hneed : need % 16 = 0) (hle : need ≤ x.size)
    (hsize : x.size ≥ (need + hdrSz + rBlk + 16) % 2 ^ 64) :
    Shape (k.take need (Link.head.after s) x.addr)
      (l ++ [⟨x.addr, need, false⟩, ⟨x.addr + 32 + need, x.size - need - 32, true⟩] ++ r)
      (s ++ ([x.addr + 32 + need] ++ t)) := by
  have hhold : Holds k.mem x := hs.holds x (by simp)
  have hbound := hs.bounds (x := x) (by simp)
  have heven := hs.even x (by simp)
  have hksize : k.size x.addr = x.size := hhold.size
  have hroom : need + 48 ≤ x.size := by
    simp only [hdrSz, rBlk, Block.stop] at hsize hbound
    omega
  obtain ⟨k1, hk1⟩ : ∃ k1,
    k1 = ((((((k.setSize (x.addr + 32 + need) (x.size - need - 32)).setFree (x.addr + 32 + need) 1).setNext
      (x.addr + 32 + need) (k.next x.addr)).setSize x.addr need).setFree x.addr 0).store
        (x.addr + 24 + need) 8 need).store
        (x.addr + 32 + need + 24 + (x.size - need - 32)) 8 (x.size - need - 32) := ⟨_, rfl⟩
  have hlt : x.addr + 32 + need + 32 + (x.size - need - 32) = x.stop := by
    simp only [Block.stop]
    omega
  obtain ⟨hfirst, hsecond, hnext, hmem⟩ := split_writes rfl (by omega) (k.next_lt x.addr) hk1
  have htake : k.take need (Link.head.after s) x.addr = k1.link (Link.head.after s) (x.addr + 32 + need) := by
    have hafter : x.addr + hdrSz + need = x.addr + 24 + need := rfl
    have hnk : x.addr + 24 + need + rBlk = x.addr + 32 + need := by
      simp only [rBlk]
      omega
    have hrest : x.size - need - hdrSz - rBlk = x.size - need - 32 := by
      simp only [hdrSz, rBlk]
      omega
    simp only [Heap.take, hksize, if_pos hsize, hafter, hnk, hrest]
    rw [Heap.setFooter_eq (s := x.size - need - 32), hk1]
    · simp (disch := omega) only [Heap.next, Heap.setSize, Heap.setFree, Heap.store_other]
    · simp (disch := omega) only
        [Heap.size, Heap.setSize, Heap.setFree, Heap.setNext, Heap.store_other, Heap.store_self]
  rw [htake]
  have hys : Tiled x.addr [⟨x.addr, need, false⟩, ⟨x.addr + 32 + need, x.size - need - 32, true⟩] x.stop :=
    ⟨rfl, rfl, hlt⟩
  have hcut := hs.cut (v := x.addr + 32 + need) hx
    (by rw [hk1]; rfl) (by rw [hk1]; rfl) (by rw [hk1]; rfl) (fun i hi => hmem i (by omega)) hys
      (by simp [hfirst, hsecond]) (by simp; omega) (Or.inr ⟨by simp, hnext⟩)
  simpa using hcut

/-! ## First fit -/

theorem allocFrom_none {l : Link} {t : List Nat} {need rounds : Nat} (h : Chain k.read l t)
    (ht : ∀ c ∈ t, k.size c < need) (hr : t.length < rounds) : k.allocFrom need rounds l = some (k, 0) := by
  induction t generalizing l rounds with
  | nil =>
    obtain ⟨n, rfl⟩ : ∃ n, rounds = n + 1 := ⟨rounds - 1, by omega⟩
    have hread : k.read l = 0 := h
    simp [Heap.allocFrom, hread]
  | cons c t ih =>
    obtain ⟨n, rfl⟩ : ∃ n, rounds = n + 1 := ⟨rounds - 1, by omega⟩
    obtain ⟨hread, hpos, hrest⟩ := h
    rw [List.forall_mem_cons] at ht
    have hsmall : ¬ k.size c ≥ need := Nat.not_le.mpr ht.1
    simp only [Heap.allocFrom, hread, if_neg hpos, if_neg hsmall]
    exact ih hrest ht.2 (by simpa using hr)

theorem allocFrom_found {l : Link} {s t : List Nat} {c need rounds : Nat} (h : Chain k.read l (s ++ c :: t))
    (hlt : ∀ d ∈ s, k.size d < need) (hc : need ≤ k.size c) (hr : s.length < rounds) :
    k.allocFrom need rounds l = some (k.take need (l.after s) c, c + 24) := by
  induction s generalizing l rounds with
  | nil =>
    obtain ⟨n, rfl⟩ : ∃ n, rounds = n + 1 := ⟨rounds - 1, by omega⟩
    obtain ⟨hread, hpos, -⟩ := h
    simp only [Heap.allocFrom, hread, if_neg hpos, if_pos hc, Link.after, hdrSz]
  | cons d s ih =>
    obtain ⟨n, rfl⟩ : ∃ n, rounds = n + 1 := ⟨rounds - 1, by omega⟩
    obtain ⟨hread, hpos, hrest⟩ := h
    rw [List.forall_mem_cons] at hlt
    have hsmall : ¬ k.size d ≥ need := Nat.not_le.mpr hlt.1
    simp only [Heap.allocFrom, hread, if_neg hpos, if_neg hsmall]
    exact ih hrest hlt.2 (by simpa using hr)

/-- A free block gives way to a live one of at least `need` bytes at `p`, and free ones behind it. -/
def Taken (need p : Nat) (bs bs' : List Block) : Prop :=
  ∃ l x r n ys, bs = l ++ x :: r ∧ x.free = true ∧ bs' = l ++ (⟨x.addr, n, false⟩ :: ys) ++ r ∧ p = x.ptr ∧
    need ≤ n ∧ n ≤ x.size ∧ ∀ y ∈ ys, y.free = true ∧ 0 < y.size

theorem Shape.alloc {need : Nat} (hs : Shape k bs fl) (hneed : need % 16 = 0) :
    ((∀ x ∈ bs, x.free = true → x.size < need) ∧ k.spudAllocLocked need = some (k, 0)) ∨
      ((∃ x ∈ bs, x.free = true ∧ need ≤ x.size) ∧ ∃ k' p bs' fl', k.spudAllocLocked need = some (k', p) ∧
        Shape k' bs' fl' ∧ Taken need p bs bs') := by
  have hsize : ∀ x ∈ bs, k.size x.addr = x.size := fun x hx => (hs.holds x hx).size
  cases hfind : fl.find? (fun c => decide (need ≤ k.size c)) with
  | none =>
    left
    simp only [List.find?_eq_none, decide_eq_true_eq, Nat.not_le] at hfind
    refine ⟨fun x hx hfree => ?_, allocFrom_none hs.chain hfind hs.length_lt.2⟩
    have hlt := hfind x.addr ((hs.mem_iff x.addr).mpr ⟨x, hx, hfree, rfl⟩)
    rwa [hsize x hx] at hlt
  | some c =>
    right
    obtain ⟨hc, s, t, rfl, hs'⟩ := List.find?_eq_some_iff_append.mp hfind
    simp only [decide_eq_true_eq, Bool.not_eq_true', decide_eq_false_iff_not, Nat.not_le] at hc hs'
    obtain ⟨x, hx, hfree, rfl⟩ := (hs.mem_iff c).mp (by simp)
    rw [hsize x hx] at hc
    refine ⟨⟨x, hx, hfree, hc⟩, ?_⟩
    have hlen := hs.length_lt.2
    rw [List.length_append, List.length_cons] at hlen
    have hfound : k.spudAllocLocked need = some (k.take need (Link.head.after s) x.addr, x.ptr) :=
      allocFrom_found hs.chain hs' (by rw [hsize x hx]; exact hc) (by omega)
    obtain ⟨l, r, rfl⟩ := List.append_of_mem hx
    by_cases hlarge : x.size ≥ (need + hdrSz + rBlk + 16) % 2 ^ 64
    · have hroom : need + 48 ≤ x.size := by
        have hbound := hs.bounds hx
        simp only [hdrSz, rBlk, Block.stop] at hlarge hbound
        omega
      refine ⟨_, _, _, _, hfound, hs.take_split hfree hneed hc hlarge, l, x, r, need, _, rfl, hfree, rfl, rfl,
        Nat.le_refl _, hc, ?_⟩
      simp only [List.mem_singleton, forall_eq, true_and]
      omega
    · exact ⟨_, _, _, _, hfound, hs.take_whole hfree hlarge, l, x, r, x.size, [], rfl, hfree, rfl, rfl, hc,
        Nat.le_refl _, by simp⟩

/-! ## spud_grow -/

/-- What SYS_MMAP may answer: a failure, or the pages behind the end of the heap. -/
def Contiguous (k : Heap) (mmap : Nat → Nat) : Prop :=
  ∀ pages, Refused (mmap pages) ∨
    (mmap pages % 0x1000 = 0 ∧ mmap pages + pages * 0x1000 ≤ 2 ^ 63 ∧ (k.va ≠ 0 → mmap pages = k.stop))

/-- The block that `spud_grow` makes of new pages. -/
def grown (want : Nat) (mmap : Nat → Nat) : Block := ⟨mmap (growPages want), growPages want * 0x1000 - 32, true⟩

theorem spudGrow_eq {want : Nat} {mmap : Nat → Nat} (hok : ¬ Refused (mmap (growPages want)))
    (hlt : (grown want mmap).size < 2 ^ 64) :
    k.spudGrow want mmap =
      { (((k.store (grown want mmap).addr 8 (grown want mmap).size).store ((grown want mmap).addr + 8) 4 1).store
          ((grown want mmap).addr + 16) 8 k.fl).store ((grown want mmap).addr + 24 + (grown want mmap).size) 8
            (grown want mmap).size with
        fl := (grown want mmap).addr, va := if k.va = 0 then (grown want mmap).addr else k.va,
        stop := (grown want mmap).addr + growPages want * 0x1000 } := by
  have hpages : 16 ≤ growPages want := Nat.le_max_left _ _
  have hsize : growPages want * 0x1000 - hdrSz - rBlk = (grown want mmap).size := by
    simp only [grown, hdrSz, rBlk]
    omega
  simp only [Heap.spudGrow, if_neg hok, hsize]
  rw [Heap.setFooter_eq (s := (grown want mmap).size)]
  · rfl
  · have haddr : mmap (growPages want) = (grown want mmap).addr := rfl
    simp only [haddr, Heap.size, Heap.setSize, Heap.setFree, Heap.setNext]
    simp (disch := omega) only [Heap.store_other, Heap.store_self]

theorem Shape.grow {want : Nat} {mmap : Nat → Nat} (hs : Shape k bs fl) (hmmap : Contiguous k mmap)
    (hok : ¬ Refused (mmap (growPages want))) :
    Shape (k.spudGrow want mmap) (bs ++ [grown want mmap]) ((grown want mmap).addr :: fl) := by
  obtain ⟨hpage, hend, hfollow⟩ := (hmmap (growPages want)).resolve_left hok
  have hpages : 16 ≤ growPages want := Nat.le_max_left _ _
  have hstop : (grown want mmap).stop = (grown want mmap).addr + growPages want * 0x1000 := by
    simp only [Block.stop, grown]
    omega
  have hsize : (grown want mmap).size % 16 = 0 := by
    simp only [grown]
    omega
  have hpos : 0 < (grown want mmap).addr := by
    simp only [Refused] at hok
    simp only [grown]
    omega
  have haddr : mmap (growPages want) = (grown want mmap).addr := rfl
  have hfree : (grown want mmap).free = true := rfl
  rw [haddr] at hpage hend hfollow
  rw [← hstop] at hend
  have hlt : (grown want mmap).size < 2 ^ 64 := by
    simp only [Block.stop] at hend
    omega
  rw [spudGrow_eq hok hlt, ← hstop]
  generalize grown want mmap = x at *
  have hbehind : ∀ y ∈ bs, y.stop ≤ x.addr := by
    intro y hy
    have hbound := (hs.bounds hy).2.2.1
    have hva : k.va ≠ 0 := fun h => List.ne_nil_of_mem hy (hs.low h)
    omega
  have hnode : ∀ c ∈ fl, c + 32 ≤ x.addr := by
    intro c hc
    obtain ⟨y, hy, -, rfl⟩ := (hs.mem_iff c).mp hc
    have hbound := hbehind y hy
    simp only [Block.stop] at hbound
    omega
  simp only [Block.stop] at hend
  constructor
  · rw [tiled_append]
    refine ⟨x.addr, ?_, rfl, rfl⟩
    by_cases hva : k.va = 0
    · simp [hs.low hva, hva, Tiled]
    · simpa [hva, hfollow hva] using hs.tiled
  · simp only [List.forall_mem_append, List.forall_mem_singleton]
    refine ⟨fun y hy => (hs.holds y hy).frame fun i hi hi' => ?_, ?_, ?_, ?_⟩
    · have hbound := hbehind y hy
      simp (disch := omega) only [Heap.store_mem]
    · simp (disch := omega) only [Heap.store_other, Heap.store_self]
    · simp (disch := omega) only [Heap.store_other, Heap.store_self, hfree, Bool.toNat_true]
    · simp (disch := omega) only [Block.foot, Heap.store_self]
  · refine ⟨rfl, by omega, hs.chain.move ?_ fun c hc => ?_⟩
    · have hfl := hs.fl_lt
      simp only [Heap.read, Heap.next]
      simp (disch := omega) only [Heap.store_other, Heap.store_self]
    · have hfar := hnode c hc
      refine next_congr fun i hi hi' => ?_
      simp (disch := omega) only [Heap.store_mem]
  · have hfrees : fl.Perm ((bs.filter (·.free)).map (·.addr) ++ []) := by simpa using hs.frees
    have hperm := List.perm_cons_append_cons x.addr hfrees
    simpa [List.filter_append, hfree] using hperm
  · simp only [List.forall_mem_append, List.forall_mem_singleton]
    exact ⟨hs.even, hsize⟩
  · have hbase := hs.base
    simp only
    split <;> omega
  · intro hzero
    simp only at hzero
    split at hzero <;> omega
  · simp only [Block.stop]
    exact hend

/-! ## spud_malloc -/

def NoneFits (need : Nat) (bs : List Block) : Prop := ∀ x ∈ bs, x.free = true → x.size < need

/-- How `spud_malloc(n)` leaves the blocks. -/
inductive Served (n : Nat) (mmap : Nat → Nat) (bs : List Block) : Ret → List Block → Prop
  | here {k' : Heap} {p : Nat} {bs' : List Block} :
      (∃ x ∈ bs, x.free = true ∧ rounded n ≤ x.size) → Taken (rounded n) p bs bs' → Served n mmap bs ⟨k', p, none⟩ bs'
  | refused {k' : Heap} :
      NoneFits (rounded n) bs → Refused (mmap (growPages (wanted (rounded n)))) →
        Served n mmap bs ⟨k', 0, some (mmap (growPages (wanted (rounded n))))⟩ bs
  | there {k' : Heap} {p : Nat} {bs' : List Block} :
      NoneFits (rounded n) bs → ¬ Refused (mmap (growPages (wanted (rounded n)))) →
        rounded n ≤ (grown (wanted (rounded n)) mmap).size →
          Taken (rounded n) p (bs ++ [grown (wanted (rounded n)) mmap]) bs' →
            Served n mmap bs ⟨k', p, some (mmap (growPages (wanted (rounded n))))⟩ bs'
  | wasted {k' : Heap} :
      NoneFits (rounded n) bs → ¬ Refused (mmap (growPages (wanted (rounded n)))) →
        (grown (wanted (rounded n)) mmap).size < rounded n →
          Served n mmap bs ⟨k', 0, some (mmap (growPages (wanted (rounded n))))⟩
            (bs ++ [grown (wanted (rounded n)) mmap])

theorem rounded_even (n : Nat) : rounded n % 16 = 0 := by
  simp only [rounded]
  omega

theorem Taken.ptr_ne {need p : Nat} {bs bs' : List Block} (h : Taken need p bs bs') : p ≠ 0 := by
  obtain ⟨l, x, r, n, ys, -, -, -, rfl, -⟩ := h
  simp [Block.ptr]

theorem Shape.malloc {mmap : Nat → Nat} (hs : Shape k bs fl) (hmmap : Contiguous k mmap) (n : Nat) :
    ∃ ret bs' fl', k.spudMalloc n mmap = some ret ∧ Shape ret.heap bs' fl' ∧ Served n mmap bs ret bs' := by
  rcases hs.alloc (rounded_even n) with ⟨hnone, halloc⟩ | ⟨hfits, k', p, bs', fl', halloc, hs', htaken⟩
  case inr =>
    refine ⟨⟨k', p, none⟩, bs', fl', ?_, hs', Served.here hfits htaken⟩
    simp only [Heap.spudMalloc, halloc, if_pos htaken.ptr_ne]
  case inl =>
    by_cases hrefused : Refused (mmap (growPages (wanted (rounded n))))
    · refine ⟨⟨k, 0, some (mmap (growPages (wanted (rounded n))))⟩, bs, fl, ?_, hs, Served.refused hnone hrefused⟩
      have hgrow : k.spudGrow (wanted (rounded n)) mmap = k := by simp only [Heap.spudGrow, if_pos hrefused]
      simp [Heap.spudMalloc, halloc, hgrow]
    · have hgrow := hs.grow hmmap hrefused
      rcases hgrow.alloc (rounded_even n) with ⟨hnone', halloc'⟩ | ⟨hfits, k', p, bs', fl', halloc', hs', htaken⟩
      · refine ⟨⟨k.spudGrow (wanted (rounded n)) mmap, 0, some (mmap (growPages (wanted (rounded n))))⟩, _, _,
          ?_, hgrow, Served.wasted hnone hrefused (hnone' _ (by simp) rfl)⟩
        simp [Heap.spudMalloc, halloc, halloc']
      · refine ⟨⟨k', p, some (mmap (growPages (wanted (rounded n))))⟩, bs', fl', ?_, hs',
          Served.there hnone hrefused ?_ htaken⟩
        · simp [Heap.spudMalloc, halloc, halloc']
        · obtain ⟨x, hx, hfree, hle⟩ := hfits
          rcases List.mem_append.mp hx with hx | hx
          · have hlt := hnone x hx hfree
            omega
          · exact List.mem_singleton.mp hx ▸ hle

end Siathos.Spud
