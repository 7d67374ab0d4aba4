import Siathos.Spud.Program

/-!
# When memory suffices

`spud_grow` asks for as many pages as the bytes of the block fill, and the header and the footer come
out of these.
-/

open Lib

namespace Siathos.Spud

/-- `spud_malloc(n)` succeeds when SYS_MMAP does, maps nothing in vain, and gives no block that is too
small. -/
def MallocRight (k : Heap) (n : Nat) (mmap : Nat → Nat) : Prop :=
  ∃ r, k.spudMalloc n mmap = some r ∧
    ((∀ va, r.asked = some va → ¬ Refused va) → r.ptr ≠ 0) ∧
    (r.ptr = 0 → ∀ va, r.asked = some va → Refused va) ∧
    (r.ptr ≠ 0 → n ≤ r.heap.size (r.ptr - hdrSz))

/-- A block of the list is large enough. -/
def Fits (k : Heap) (need : Nat) : Prop := ∃ fl, Chain k.read .head fl ∧ ∃ c ∈ fl, need ≤ k.size c

/-- The new pages have room for `n` bytes beside the header and the footer. -/
def RoomLeft (n : Nat) : Prop := n ≤ 2 ^ 16 - 32 ∨ (2 ^ 16 < n ∧ n < 2 ^ 64 - 4096 ∧ 1 ≤ n % 4096 ∧ n % 4096 ≤ 4064)

/-- Where `spud_malloc(n)` does what it should. From `2^64 - 15` on, the rounded size is 0. -/
def Meets (k : Heap) (n : Nat) (mmap : Nat → Nat) : Prop :=
  (n ≤ 2 ^ 64 - 16 ∧ (Fits k (rounded n) ∨ Refused (mmap (growPages (wanted (rounded n)))) ∨ RoomLeft n)) ∨
    (2 ^ 64 - 16 < n ∧ k.fl = 0 ∧ Refused (mmap 16))

theorem rounded_small {n : Nat} (hn : n ≤ 2 ^ 64 - 16) : rounded n = (max n 1 + 15) / 16 * 16 := by
  simp only [rounded]
  split <;> omega

theorem rounded_large {n : Nat} (hn : 2 ^ 64 - 16 < n) (hlt : n < 2 ^ 64) : rounded n = 0 := by
  simp only [rounded]
  split <;> omega

theorem room_iff {n : Nat} (hn : n ≤ 2 ^ 64 - 16) (mmap : Nat → Nat) :
    rounded n ≤ (grown (wanted (rounded n)) mmap).size ↔ RoomLeft n := by
  have hsize : (grown (wanted (rounded n)) mmap).size = growPages (wanted (rounded n)) * 4096 - 32 := rfl
  rw [hsize, rounded_small hn]
  obtain ⟨d, hd⟩ : ∃ d, (max n 1 + 15) / 16 = d := ⟨_, rfl⟩
  simp only [RoomLeft, wanted, heapChunk, growPages, hd]
  by_cases hchunk : d * 16 < 64 * 1024
  · simp only [if_pos hchunk]
    omega
  · simp only [if_neg hchunk]
    omega

theorem Taken.size {need p : Nat} {k : Heap} {bs bs' : List Block} {fl : List Nat} (hs : Shape k bs' fl)
    (ht : Taken need p bs bs') : need ≤ k.size (p - hdrSz) ∧ k.size (p - hdrSz) < 2 ^ 63 := by
  obtain ⟨l, x, r, m, ys, -, -, rfl, rfl, hneed, -⟩ := ht
  have hmem : (⟨x.addr, m, false⟩ : Block) ∈ l ++ (⟨x.addr, m, false⟩ :: ys) ++ r := by simp
  have hsize : k.size x.addr = m := (hs.holds _ hmem).size
  have hbound := (hs.bounds hmem).2.2.2
  have hhdr : x.ptr - hdrSz = x.addr := by simp [Block.ptr, hdrSz]
  simp only [Block.stop] at hbound
  rw [hhdr, hsize]
  omega

section

variable {k : Heap} {bs : List Block} {fl : List Nat}

theorem Shape.fits_iff (hs : Shape k bs fl) (need : Nat) : Fits k need ↔ ∃ x ∈ bs, x.free = true ∧ need ≤ x.size := by
  have hsize : ∀ x ∈ bs, k.size x.addr = x.size := fun x hx => (hs.holds x hx).size
  constructor
  · rintro ⟨fl', hchain, c, hc, hle⟩
    obtain rfl := hchain.unique hs.chain
    obtain ⟨x, hx, hfree, rfl⟩ := (hs.mem_iff c).mp hc
    exact ⟨x, hx, hfree, by rwa [hsize x hx] at hle⟩
  · rintro ⟨x, hx, hfree, hle⟩
    exact ⟨fl, hs.chain, x.addr, (hs.mem_iff _).mpr ⟨x, hx, hfree, rfl⟩, by rwa [hsize x hx]⟩

theorem Shape.fl_zero_iff (hs : Shape k bs fl) : k.fl = 0 ↔ ∀ x ∈ bs, x.free = false := by
  constructor
  · intro hzero x hx
    cases hfree : x.free with
    | false => rfl
    | true =>
      have hmem := (hs.mem_iff _).mpr ⟨x, hx, hfree, rfl⟩
      have hempty : Chain k.read .head [] := hzero
      simp [← hempty.unique hs.chain] at hmem
  · intro hused
    cases fl with
    | nil => exact hs.chain
    | cons c t =>
      obtain ⟨x, hx, hfree, -⟩ := (hs.mem_iff c).mp List.mem_cons_self
      simp [hused x hx] at hfree

/-- On a row of blocks `spud_malloc` is right exactly under the condition. -/
theorem Shape.right_iff {n : Nat} {mmap : Nat → Nat} (hs : Shape k bs fl) (hmmap : Contiguous k mmap)
    (hlt : n < 2 ^ 64) :
    MallocRight k n mmap ↔ Meets k n mmap := by
  obtain ⟨r, bs', fl', hcall, hs', hserved⟩ := hs.malloc hmmap n
  have hright : MallocRight k n mmap ↔ (((∀ va, r.asked = some va → ¬ Refused va) → r.ptr ≠ 0) ∧
      (r.ptr = 0 → ∀ va, r.asked = some va → Refused va) ∧ (r.ptr ≠ 0 → n ≤ r.heap.size (r.ptr - hdrSz))) := by
    simp [MallocRight, hcall]
  rw [hright, Meets, hs.fits_iff, hs.fl_zero_iff]
  have hpages : growPages (wanted 0) = 16 := by decide
  by_cases hn : n ≤ 2 ^ 64 - 16
  · have hle : n ≤ rounded n := by
      rw [rounded_small hn]
      omega
    have hroom := room_iff hn mmap
    cases hserved with
    | here hfits ht =>
      have hsize := (ht.size hs').1
      exact iff_of_true ⟨fun _ => ht.ptr_ne, fun h => absurd h ht.ptr_ne, fun _ => Nat.le_trans hle hsize⟩
        (Or.inl ⟨hn, Or.inl hfits⟩)
    | refused hnone hrefused =>
      exact iff_of_true ⟨fun h => absurd hrefused (h _ rfl), fun _ va hva => Option.some.inj hva ▸ hrefused,
        fun h => absurd rfl h⟩
        (Or.inl ⟨hn, Or.inr (Or.inl hrefused)⟩)
    | there hnone hok hle' ht =>
      have hsize := (ht.size hs').1
      exact iff_of_true ⟨fun _ => ht.ptr_ne, fun h => absurd h ht.ptr_ne, fun _ => Nat.le_trans hle hsize⟩
        (Or.inl ⟨hn, Or.inr (Or.inr (hroom.mp hle'))⟩)
    | wasted hnone hok hlt' =>
      refine iff_of_false (fun h => h.1 (fun va hva => Option.some.inj hva ▸ hok) rfl) ?_
      rintro (⟨-, ⟨x, hx, hfree, hfit⟩ | hrefused | hleft⟩ | ⟨hn', -⟩)
      · exact absurd hfit (Nat.not_le.mpr (hnone x hx hfree))
      · exact hok hrefused
      · exact absurd (hroom.mpr hleft) (Nat.not_le.mpr hlt')
      · omega
  · -- The size wraps to 0, so that any free block is taken, and it is smaller than `n`.
    have hzero : rounded n = 0 := rounded_large (by omega) hlt
    have hsmall : ∀ p, Taken (rounded n) p bs bs' ∨ Taken (rounded n) p (bs ++ [grown (wanted (rounded n)) mmap]) bs' →
        ¬ n ≤ r.heap.size (p - hdrSz) := by
      intro p ht hle
      have hsize : r.heap.size (p - hdrSz) < 2 ^ 63 := ht.elim (fun ht => (ht.size hs').2) fun ht => (ht.size hs').2
      omega
    cases hserved with
    | here hfits ht =>
      obtain ⟨x, hx, hfree, -⟩ := hfits
      refine iff_of_false (fun h => hsmall _ (Or.inl ht) (h.2.2 ht.ptr_ne)) ?_
      rintro (⟨hn', -⟩ | ⟨-, hused, -⟩)
      · omega
      · simp [hused x hx] at hfree
    | refused hnone hrefused =>
      refine iff_of_true ⟨fun h => absurd hrefused (h _ rfl), fun _ va hva => Option.some.inj hva ▸ hrefused,
        fun h => absurd rfl h⟩ (Or.inr ⟨by omega, fun x hx => ?_, by rwa [hzero, hpages] at hrefused⟩)
      rw [hzero] at hnone
      cases hfree : x.free with
      | false => rfl
      | true => exact absurd (hnone x hx hfree) (Nat.not_lt_zero _)
    | there hnone hok hle' ht =>
      refine iff_of_false (fun h => hsmall _ (Or.inr ht) (h.2.2 ht.ptr_ne)) ?_
      rintro (⟨hn', -⟩ | ⟨-, -, hrefused⟩)
      · omega
      · rw [hzero, hpages] at hok
        exact hok hrefused
    | wasted hnone hok hlt' =>
      rw [hzero] at hlt'
      exact absurd hlt' (Nat.not_lt_zero _)

end

/-- `spud_malloc` is right exactly where header and footer fit into the new pages, or no new pages are needed. -/
theorem malloc_right_iff {mem : Buf} {ops : List Op} {s : Program} (h : Run Step (start mem) ops s) {n : Nat}
    (hn : n < 2 ^ 64) {mmap : Nat → Nat} (hmmap : Contiguous s.heap mmap) :
    MallocRight s.heap n mmap ↔ Meets s.heap n mmap := by
  obtain ⟨bs, fl, ho⟩ := owns h
  exact ho.shape.right_iff hmmap hn

/-- The first call takes the whole of a first chunk, the second one finds room in new pages. -/
theorem malloc_right_second :
    ∃ s, Run Step (start fun _ => 0) [.malloc 65504 (pagesFrom 0x40000000)] s ∧
      MallocRight s.heap 70000 (pagesFrom 0x40010000) := by
  have hsome : ((start fun _ => 0).heap.spudMalloc 65504 (pagesFrom 0x40000000)).isSome = true := by decide +kernel
  have hva : (((start fun _ => 0).heap.spudMalloc 65504 (pagesFrom 0x40000000)).map fun r => r.heap.stop) =
      some 0x40010000 := by decide +kernel
  obtain ⟨r, hcall⟩ := Option.isSome_iff_exists.mp hsome
  have hstop : r.heap.stop = 0x40010000 := by simpa [hcall] using hva
  have hrun := Run.single (Step.malloc (by decide) (contiguous_pagesFrom rfl (by decide) (absurd rfl)) hcall)
  refine ⟨_, hrun, (malloc_right_iff hrun (by decide)
    (contiguous_pagesFrom rfl (by decide) fun _ => hstop.symm)).mpr ?_⟩
  exact Or.inl ⟨by decide, Or.inr (Or.inr (Or.inr (by decide)))⟩

/-- The rounded size fills the 16 pages up to their end: they are mapped, and the call fails. -/
theorem chunk_wasted :
    ¬ ∀ mem ops s, Run Step (start mem) ops s → ∀ n < 2 ^ 64, ∀ mmap, Contiguous s.heap mmap →
    MallocRight s.heap n mmap := by
  intro hall
  obtain ⟨r, hcall, hsome, -⟩ := hall (fun _ => 0) [] _ (Run.nil _) 65505 (by decide) (pagesFrom 0x40000000)
    (contiguous_pagesFrom rfl (by decide) (absurd rfl))
  have hnull : (((start fun _ => 0).heap.spudMalloc 65505 (pagesFrom 0x40000000)).map fun r => (r.ptr, r.asked)) =
      some (0, some 0x40000000) := by decide +kernel
  simp only [hcall, Option.map_some, Option.some.injEq, Prod.mk.injEq] at hnull
  refine hsome (fun va hva => ?_) hnull.1
  rw [hnull.2] at hva
  obtain rfl := Option.some.inj hva
  decide

end Siathos.Spud
