import Siathos.Fb.Console

/-!
# The cells of a terminal in reading order

As long as nothing scrolls, writing and rubbing out move along one tape of cells.
-/

open Lib

namespace Siathos.Fb.Terminal

/-- A cell, counted over the rows. -/
def cellAt (cols : Nat) (t : Terminal) (i : Nat) : UInt8 := t.cells (i / cols) (i % cols)

/-- The cursor is on the cell `p`. Behind the last column it is on the first cell of the next row. -/
structure At (cols p : Nat) (t : Terminal) : Prop where
  right : t.x ≤ cols
  pos : t.y * cols + t.x = p

variable {cols rows p q x y : Nat} {t : Terminal} {c : UInt8}

theorem cell_iff (hx : x < cols) (i : Nat) : (i / cols = y ∧ i % cols = x) ↔ i = y * cols + x := by
  constructor
  · rintro ⟨rfl, rfl⟩
    rw [Nat.mul_comm]
    exact (Nat.div_add_mod i cols).symm
  · rintro rfl
    have hpos : 0 < cols := Nat.lt_of_le_of_lt (Nat.zero_le x) hx
    rw [Nat.mul_comm, Nat.mul_add_div hpos, Nat.div_eq_of_lt hx, Nat.mul_add_mod, Nat.mod_eq_of_lt hx]
    exact ⟨rfl, rfl⟩

theorem cellAt_set (hx : x < cols) (i : Nat) :
    (t.set x y c).cellAt cols i = if i = y * cols + x then c else t.cellAt cols i := by
  unfold cellAt set
  simp only [cell_iff hx]

theorem row_lt (hy : y * cols + x < cols * rows) : y < rows := by
  apply Nat.lt_of_mul_lt_mul_left (a := cols)
  rw [Nat.mul_comm cols y]
  exact Nat.lt_of_le_of_lt (Nat.le_add_right _ _) hy

theorem At.put_drawn (h : At cols p t) (hcols : 0 < cols) (hp : p < cols * rows) (hc : Drawn c) :
    At cols (p + 1) (t.put cols rows c) ∧
      ∀ i, (t.put cols rows c).cellAt cols i = if i = p then shown c else t.cellAt cols i := by
  obtain ⟨hfeed, hreturn, hback⟩ := hc
  obtain ⟨hright, rfl⟩ := h
  unfold put
  rw [if_neg hfeed, if_neg hreturn, if_neg hback]
  by_cases hx : t.x < cols
  · rw [if_pos hx]
    exact ⟨⟨hx, rfl⟩, cellAt_set hx⟩
  · have hlast : t.x = cols := Nat.le_antisymm hright (Nat.le_of_not_lt hx)
    have hpos : t.y * cols + t.x = (t.y + 1) * cols + 0 := by
      rw [hlast, Nat.add_mul, Nat.one_mul, Nat.add_zero]
    rw [hpos] at hp
    rw [if_neg hx, lineFeed, if_pos (row_lt hp), hpos]
    exact ⟨⟨hcols, rfl⟩, cellAt_set hcols⟩

theorem At.put_back (rows : Nat) (h : At cols (p + 1) t) (hcols : 0 < cols) :
    At cols p (t.put cols rows 0x08) ∧
      ∀ i, (t.put cols rows 0x08).cellAt cols i = if i = p then 0x20 else t.cellAt cols i := by
  obtain ⟨hright, hpos⟩ := h
  have hput : t.put cols rows 0x08 = if 0 < t.x then t.erase (t.x - 1) t.y
      else if 0 < t.y then t.erase (cols - 1) (t.y - 1) else t := rfl
  rw [hput]
  by_cases hx : 0 < t.x
  · have hp : t.y * cols + (t.x - 1) = p := by omega
    rw [if_pos hx]
    subst hp
    exact ⟨⟨by dsimp only [erase]; omega, rfl⟩, cellAt_set (by omega)⟩
  · have hy : 0 < t.y := by
      rcases Nat.eq_zero_or_pos t.y with hy | hy
      · rw [hy, Nat.zero_mul] at hpos
        omega
      · exact hy
    have hp : (t.y - 1) * cols + (cols - 1) = p := by
      have hrow : t.y * cols = (t.y - 1) * cols + cols := by
        rw [← Nat.succ_mul, Nat.succ_eq_add_one, Nat.sub_add_cancel hy]
      omega
    rw [if_neg hx, if_pos hy]
    subst hp
    exact ⟨⟨Nat.sub_le _ _, rfl⟩, cellAt_set (by omega)⟩

theorem At.rubout (h : At cols (p + 1) t) (hcols : 0 < cols) (hp : p < cols * rows) :
    At cols p ([0x08, 0x20, 0x08].foldl (put cols rows) t) ∧
      ∀ i, ([0x08, 0x20, 0x08].foldl (put cols rows) t).cellAt cols i = if i = p then 0x20 else t.cellAt cols i := by
  have hblank : Drawn 0x20 := ⟨by decide, by decide, by decide⟩
  obtain ⟨hback, hcells⟩ := h.put_back rows hcols
  obtain ⟨hforth, hcells'⟩ := hback.put_drawn hcols hp hblank
  obtain ⟨hend, hcells''⟩ := hforth.put_back rows hcols
  refine ⟨hend, fun i => ?_⟩
  rw [List.foldl_cons, List.foldl_cons, List.foldl_cons, List.foldl_nil, hcells'', hcells', hcells]
  split
  · rfl
  · rfl

end Siathos.Fb.Terminal
