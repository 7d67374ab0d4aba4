import Mathlib.Data.List.Perm.Basic
import Siathos.Spud.Heap

/-!
# The blocks of a heap

A heap is a row of blocks without gaps. `Shape` says that memory holds such a row, and that the
list from `spud_fl` runs through its free blocks.
-/

open Lib

namespace Siathos.Spud

/-- A header at `addr`, `size` bytes and a footer. -/
structure Block where
  addr : Nat
  size : Nat
  free : Bool
  deriving DecidableEq, Repr

namespace Block

def ptr (x : Block) : Nat := x.addr + 24

def foot (x : Block) : Nat := x.addr + 24 + x.size

def stop (x : Block) : Nat := x.addr + 32 + x.size

end Block

/-! ## Rows of blocks -/

/-- The blocks lie one behind the other, from the first address up to the second. -/
def Tiled : Nat → List Block → Nat → Prop
  | a, [], b => a = b
  | a, x :: l, b => x.addr = a ∧ Tiled x.stop l b

theorem tiled_append {a b : Nat} {l r : List Block} : Tiled a (l ++ r) b ↔ ∃ c, Tiled a l c ∧ Tiled c r b := by
  induction l generalizing a with
  | nil => simp [Tiled]
  | cons x l ih => simp [Tiled, ih, and_assoc]

namespace Tiled

variable {a b : Nat} {bs : List Block}

theorem bounds (h : Tiled a bs b) : a + 32 * bs.length ≤ b ∧ ∀ x ∈ bs, a ≤ x.addr ∧ x.stop ≤ b := by
  induction bs generalizing a with
  | nil =>
    have heq : a = b := h
    simp [heq]
  | cons x l ih =>
    obtain ⟨haddr, hrest⟩ := h
    obtain ⟨hlen, hmem⟩ := ih hrest
    simp only [Block.stop] at hlen hmem ⊢
    refine ⟨by simp only [List.length_cons]; omega, ?_⟩
    intro y hy
    rcases List.mem_cons.mp hy with rfl | hy
    · omega
    · have hbound := hmem y hy
      omega

theorem apart (h : Tiled a bs b) {x y : Block} (hx : x ∈ bs) (hy : y ∈ bs) :
    x = y ∨ x.stop ≤ y.addr ∨ y.stop ≤ x.addr := by
  induction bs generalizing a with
  | nil => simp at hx
  | cons z l ih =>
    have hbound := h.2.bounds.2
    rcases List.mem_cons.mp hx with rfl | hxl
    · rcases List.mem_cons.mp hy with rfl | hyl
      · exact Or.inl rfl
      · exact Or.inr (Or.inl (hbound y hyl).1)
    · rcases List.mem_cons.mp hy with rfl | hyl
      · exact Or.inr (Or.inr (hbound x hxl).1)
      · exact ih h.2 hxl hyl

theorem nodup (h : Tiled a bs b) : (bs.map (·.addr)).Nodup := by
  induction bs generalizing a with
  | nil => simp
  | cons x l ih =>
    rw [List.map_cons, List.nodup_cons]
    refine ⟨?_, ih h.2⟩
    rintro hmem
    obtain ⟨y, hy, heq⟩ := List.mem_map.mp hmem
    have hbound := (h.2.bounds.2 y hy).1
    simp only [Block.stop] at hbound
    omega

theorem addr_inj (h : Tiled a bs b) {x y : Block} (hx : x ∈ bs) (hy : y ∈ bs) (heq : x.addr = y.addr) : x = y :=
  List.inj_on_of_nodup_map h.nodup hx hy heq

theorem replace {l xs ys r : List Block} (h : Tiled a (l ++ xs ++ r) b)
    (hys : ∀ c d, Tiled c xs d → Tiled c ys d) : Tiled a (l ++ ys ++ r) b := by
  simp only [tiled_append] at h ⊢
  obtain ⟨d, ⟨c, hl, hxs⟩, hr⟩ := h
  exact ⟨d, ⟨c, hl, hys c d hxs⟩, hr⟩

end Tiled

/-! ## Blocks in memory -/

/-- The memory has the header and the footer of the block. -/
structure Holds (m : Buf) (x : Block) : Prop where
  size : m.numberAt x.addr 8 = x.size
  free : m.numberAt (x.addr + 8) 4 = x.free.toNat
  foot : m.numberAt x.foot 8 = x.size

theorem Holds.frame {m m' : Buf} {x : Block} (h : Holds m x) (hm : ∀ i, x.addr ≤ i → i < x.stop → m' i = m i) :
    Holds m' x := by
  have hsame : ∀ i w, x.addr ≤ i → i + w ≤ x.stop → m'.numberAt i w = m.numberAt i w :=
    fun i w hi hw => Buf.numberAt_congr fun j hj => hm (i + j) (by omega) (by omega)
  constructor
  · rw [hsame _ _ (by omega) (by simp only [Block.stop]; omega), h.size]
  · rw [hsame _ _ (by omega) (by simp only [Block.stop]; omega), h.free]
  · rw [hsame _ _ (by simp only [Block.foot]; omega) (by simp only [Block.foot, Block.stop]; omega), h.foot]

/-- The pointer `next` of a header at `c` is no part of what `Holds` reads. -/
def Beside (c : Nat) (x : Block) : Prop := c = x.addr ∨ c + 32 ≤ x.addr ∨ x.stop ≤ c

namespace Heap

variable {k : Heap}

theorem numberAt_lt (m : Buf) (i w : Nat) : m.numberAt i w < 256 ^ w := by
  have hfold : ∀ l : List UInt8, l.foldr (fun c n => c.toNat + 256 * n) 0 < 256 ^ l.length := by
    intro l
    induction l with
    | nil => simp
    | cons c l ih =>
      have hc := c.toNat_lt
      simp only [List.foldr_cons, List.length_cons, Nat.pow_succ]
      omega
  simpa [Buf.numberAt] using hfold ((m.drop i).bytes w)

theorem next_lt (k : Heap) (h : Nat) : k.next h < 2 ^ 64 := numberAt_lt k.mem (h + 16) 8

theorem store_self {a w v : Nat} (h : v < 256 ^ w) : (k.store a w v).mem.numberAt a w = v :=
  Buf.numberAt_write h k.mem a

theorem store_other {a w v i n : Nat} (h : i + n ≤ a ∨ a + w ≤ i) :
    (k.store a w v).mem.numberAt i n = k.mem.numberAt i n :=
  Buf.numberAt_other (by simpa using h) k.mem

theorem store_mem {a w v i : Nat} (h : i < a ∨ a + w ≤ i) : (k.store a w v).mem i = k.mem i := by
  rcases h with h | h
  · exact Buf.write_before h _ k.mem
  · exact Buf.write_after (by simpa using h) k.mem

theorem setFooter_eq {h s : Nat} (hs : k.size h = s) : k.setFooter h = k.store (h + 24 + s) 8 s := by
  simp only [setFooter, hs, hdrSz]

@[simp] theorem store_fl (a w v : Nat) : (k.store a w v).fl = k.fl := rfl
@[simp] theorem store_va (a w v : Nat) : (k.store a w v).va = k.va := rfl
@[simp] theorem store_stop (a w v : Nat) : (k.store a w v).stop = k.stop := rfl

@[simp] theorem link_va (pp : Link) (v : Nat) : (k.link pp v).va = k.va := by cases pp <;> rfl
@[simp] theorem link_stop (pp : Link) (v : Nat) : (k.link pp v).stop = k.stop := by cases pp <;> rfl

theorem read_link_self {v : Nat} (pp : Link) (hv : v < 2 ^ 64) : (k.link pp v).read pp = v := by
  cases pp with
  | head => rfl
  | next h => exact store_self hv

theorem next_link {pp : Link} {v c : Nat} (h : ∀ d, pp = .next d → c + 8 ≤ d ∨ d + 8 ≤ c) :
    (k.link pp v).next c = k.next c := by
  cases pp with
  | head => rfl
  | next d =>
    have hd := h d rfl
    exact store_other (by omega)

theorem holds_link {pp : Link} {v : Nat} {x : Block} (h : Holds k.mem x) (hpp : ∀ c, pp = .next c → Beside c x) :
    Holds (k.link pp v).mem x := by
  cases pp with
  | head => exact h
  | next c =>
    have hc := hpp c rfl
    simp only [Beside, Block.stop] at hc
    constructor
    · exact (store_other (by omega)).trans h.size
    · exact (store_other (by omega)).trans h.free
    · exact (store_other (by simp only [Block.foot]; omega)).trans h.foot

end Heap

/-! ## The shape of a heap -/

/-- The heap is these blocks, and its list runs through these headers. -/
structure Shape (k : Heap) (bs : List Block) (fl : List Nat) : Prop where
  tiled : Tiled k.va bs k.stop
  holds : ∀ x ∈ bs, Holds k.mem x
  chain : Chain k.read .head fl
  frees : fl.Perm ((bs.filter (·.free)).map (·.addr))
  even : ∀ x ∈ bs, x.size % 16 = 0
  base : k.va % 16 = 0
  low : k.va = 0 → bs = []
  high : k.stop ≤ 2 ^ 63

namespace Shape

variable {k : Heap} {bs : List Block} {fl : List Nat}

theorem mem_iff (hs : Shape k bs fl) (c : Nat) : c ∈ fl ↔ ∃ x ∈ bs, x.free = true ∧ x.addr = c := by
  rw [hs.frees.mem_iff]
  simp [and_assoc]

theorem nodup (hs : Shape k bs fl) : fl.Nodup := by
  rw [hs.frees.nodup_iff]
  exact hs.tiled.nodup.sublist ((List.filter_sublist (l := bs)).map _)

theorem bounds (hs : Shape k bs fl) {x : Block} (hx : x ∈ bs) :
    0 < x.addr ∧ k.va ≤ x.addr ∧ x.stop ≤ k.stop ∧ x.stop ≤ 2 ^ 63 := by
  have hbound := hs.tiled.bounds.2 x hx
  have hhigh := hs.high
  have hlow : k.va ≠ 0 := fun h => List.ne_nil_of_mem hx (hs.low h)
  omega

theorem fl_lt (hs : Shape k bs fl) : k.fl < 2 ^ 63 := by
  cases fl with
  | nil =>
    have hzero : k.fl = 0 := hs.chain
    omega
  | cons c t =>
    obtain ⟨x, hx, -, rfl⟩ := (hs.mem_iff c).mp List.mem_cons_self
    have hhead : k.fl = x.addr := hs.chain.1
    have hbound := (hs.bounds hx).2.2.2
    simp only [Block.stop] at hbound
    omega

theorem beside (hs : Shape k bs fl) {x : Block} (hx : x ∈ bs) {c : Nat} (hc : c ∈ fl) : Beside c x := by
  obtain ⟨z, hz, -, rfl⟩ := (hs.mem_iff c).mp hc
  simp only [Beside, Block.stop]
  rcases hs.tiled.apart hz hx with rfl | h | h
  · exact Or.inl rfl
  · simp only [Block.stop] at h
    omega
  · simp only [Block.stop] at h
    omega

theorem far (hs : Shape k bs fl) {c d : Nat} (hc : c ∈ fl) (hd : d ∈ fl) (hne : c ≠ d) : c + 32 ≤ d ∨ d + 32 ≤ c := by
  obtain ⟨z, hz, -, rfl⟩ := (hs.mem_iff d).mp hd
  have hbeside := hs.beside hz hc
  simp only [Beside, Block.stop] at hbeside
  omega

theorem length_lt (hs : Shape k bs fl) : bs.length < maxRounds ∧ fl.length < maxRounds := by
  have hlen := hs.tiled.bounds.1
  have hfree : fl.length ≤ bs.length := by
    rw [hs.frees.length_eq, List.length_map]
    exact List.length_filter_le _ bs
  have hhigh := hs.high
  simp only [maxRounds]
  omega

theorem links (hs : Shape k bs fl) {s t : List Nat} (hfl : fl = s ++ t) : (Link.head :: s.map Link.next).Nodup := by
  have hnd : s.Nodup := (hfl ▸ hs.nodup).sublist (List.sublist_append_left s t)
  rw [List.nodup_cons]
  exact ⟨by simp, hnd.map fun _ _ heq => Link.next.inj heq⟩

theorem after_head (s : List Nat) {c : Nat} (h : Link.head.after s = .next c) : c ∈ s := by
  rcases Link.after_mem .head s with heq | ⟨d, hd, heq⟩
  · rw [h] at heq
    simp at heq
  · rw [h] at heq
    exact Link.next.inj heq ▸ hd

end Shape

end Siathos.Spud
