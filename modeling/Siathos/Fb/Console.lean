import Siathos.Fb.Framebuffer
import Siathos.Lib.Run

/-!
# The console on the framebuffer (`fb.c`)

The console draws each character where its cursor is, and copies the rows of pixels when it scrolls. It is compared with
a terminal that knows characters only.
-/

open Lib

namespace Siathos.Fb

/-! ## A terminal -/

/-- The characters in the cells, first the row, and the cursor. -/
structure Terminal where
  cells : Nat → Nat → UInt8
  x : Nat
  y : Nat

/-- What is shown for a character. -/
def shown (c : UInt8) : UInt8 := if c < 32 ∨ 126 < c then 0x3F else c

namespace Terminal

def blank : Terminal := ⟨fun _ _ => 0x20, 0, 0⟩

def set (t : Terminal) (x y : Nat) (c : UInt8) : Terminal :=
  { t with cells := fun r q => if r = y ∧ q = x then c else t.cells r q }

/-- A blank cell, and the cursor on it. -/
def erase (t : Terminal) (x y : Nat) : Terminal := { t.set x y 0x20 with x, y }

/-- To the start of the next row. From the last one all rows move up, and a blank row follows. -/
def lineFeed (rows : Nat) (t : Terminal) : Terminal :=
  if t.y + 1 < rows then { t with x := 0, y := t.y + 1 }
  else { t with x := 0, cells := fun r => if r + 1 < rows then t.cells (r + 1) else fun _ => 0x20 }

/-- A character behind the last column goes to the next row. -/
def put (cols rows : Nat) (t : Terminal) (c : UInt8) : Terminal :=
  if c = 0x0A then t.lineFeed rows
  else if c = 0x0D then { t with x := 0 }
  else if c = 0x08 then
    if 0 < t.x then t.erase (t.x - 1) t.y
    else if 0 < t.y then t.erase (cols - 1) (t.y - 1)
    else t
  else
    let u := if t.x < cols then t else t.lineFeed rows
    { u.set u.x u.y (shown c) with x := u.x + 1 }

end Terminal

/-! ## The console -/

/-- `g_fb`. Its rows lie in memory. -/
structure Screen extends Raster where
  inMemory : height * pitch ≤ 2 ^ 64

def Screen.cols (g : Screen) : Nat := g.width / 8

def Screen.rows (g : Screen) : Nat := g.height / 16

structure Console where
  surface : Surface
  curX : Int
  curY : Int

def fgColor : BitVec 32 := 0xffffff

def bgColor : BitVec 32 := 0x0a0a12

/-- `(int)n` -/
def toInt (n : Nat) : Int := Int.bmod n (2 ^ 32)

section

variable (g : Screen)

def consoleScroll (s : Surface) : Option Surface := do
  let rows := toInt (g.height / 16)
  let top ← int (rows - 1)
  -- the round for row `r` of the source is number `r - 1`
  let s ← loop (fun k s => some (s.copy (k * 16 * g.pitch) ((k + 1) * 16 * g.pitch) (16 * g.pitch))) top.toNat s
  let last := (top * 16 * g.pitch % 2 ^ 64).toNat
  loop (fun i s => some (s.store (last + 4 * i) (littleEndian 4 bgColor.toNat))) (16 * g.width) s

/-- `fb_draw_char` at the cursor. -/
def drawAtCursor (c : UInt8) (st : Console) : Option Console := do
  let x ← int (st.curX * charW)
  let y ← int (st.curY * charH)
  let s ← fbDrawChar g.toRaster x y c fgColor bgColor st.surface
  some { st with surface := s }

/-- `fb_console_putc`, before it looks whether to scroll. -/
def consoleType (c : UInt8) (st : Console) : Option Console :=
  let cols := toInt (g.width / 8)
  if c = 0x0A then do
    let y ← int (st.curY + 1)
    some { st with curX := 0, curY := y }
  else if c = 0x0D then some { st with curX := 0 }
  else if c = 0x08 then
    if 0 < st.curX then drawAtCursor g 0x20 { st with curX := st.curX - 1 }
    else if 0 < st.curY then do
      let x ← int (cols - 1)
      drawAtCursor g 0x20 { st with curX := x, curY := st.curY - 1 }
    else some st
  else do
    let st ←
      if cols ≤ st.curX then do
        let y ← int (st.curY + 1)
        some { st with curX := 0, curY := y }
      else some st
    let st ← drawAtCursor g (if c < 32 ∨ 126 < c then 0x3F else c) st
    let x ← int (st.curX + 1)
    some { st with curX := x }

def fbConsolePutc (c : UInt8) (st : Console) : Option Console := do
  let st ← consoleType g c st
  let rows := toInt (g.height / 16)
  if rows ≤ st.curY then do
    let s ← consoleScroll g st.surface
    let y ← int (rows - 1)
    some { st with surface := s, curY := y }
  else some st

def fbConsoleWrite : CStr → Console → Option Console
  | [], st => some st
  | c :: cs, st => do
    let st ← fbConsolePutc g c st
    fbConsoleWrite cs st

/-- `fb_console_init` over what the memory held. The console is active from then on. -/
def fbConsoleInit (b : Buf) : Option Console := do
  let s ← fbClear g.toRaster bgColor ⟨b, []⟩
  some ⟨s, 0, 0⟩

/-! ## What is on the screen -/

def glyphColor (c : UInt8) (row col : Nat) : BitVec 32 :=
  match glyphIndex c with
  | none => bgColor
  | some gi => if inked gi row col then fgColor else bgColor

/-- The colour of a pixel of the text rows. Behind the last column nothing is shown. -/
def Terminal.color (t : Terminal) (cols x y : Nat) : BitVec 32 :=
  if x < 8 * cols then glyphColor (t.cells (y / 16) (x / 8)) (y % 16) (x % 8) else bgColor

/-- The cursor stands in the grid, or behind the last column. -/
structure InGrid (st : Console) : Prop where
  left : 0 ≤ st.curX
  right : st.curX ≤ g.cols
  top : 0 ≤ st.curY
  bottom : st.curY < g.rows

/-- The memory shows the characters of the terminal. -/
def ShowsCells (b : Buf) (t : Terminal) : Prop :=
  ∀ x y, x < g.width → y < 16 * g.rows → g.pixel b x y = t.color g.cols x y

/-- The console has drawn in its rows only, and it shows what the terminal does. -/
structure Shows (st : Console) (t : Terminal) : Prop where
  within : st.surface.Within g.size
  inGrid : InGrid g st
  curX : st.curX = t.x
  curY : st.curY = t.y
  cells : ShowsCells g st.surface.mem t

end

/-! ## What typing paints -/

/-- A character in a cell. -/
def cellPaint (x y : Nat) (c : UInt8) : Paint := charPaint (8 * x) (16 * y) c fgColor bgColor

/-- The cursor and the paint, before the console scrolls. -/
structure Stroke where
  x : Nat
  y : Nat
  paint : Paint

def stroke (cols x y : Nat) (c : UInt8) : Stroke :=
  if c = 0x0A then ⟨0, y + 1, Paint.blank⟩
  else if c = 0x0D then ⟨0, y, Paint.blank⟩
  else if c = 0x08 then
    if 0 < x then ⟨x - 1, y, cellPaint (x - 1) y 0x20⟩
    else if 0 < y then ⟨cols - 1, y - 1, cellPaint (cols - 1) (y - 1) 0x20⟩
    else ⟨x, y, Paint.blank⟩
  else if x < cols then ⟨x + 1, y, cellPaint x y (shown c)⟩
  else ⟨1, y + 1, cellPaint 0 (y + 1) (shown c)⟩

/-- A grid with at least one cell, and with room in an `int` for the places of its points and of the row behind it. -/
structure Roomy (g : Screen) : Prop where
  cols_pos : 0 < g.cols
  rows_pos : 0 < g.rows
  cols_le : g.cols ≤ 2 ^ 28
  rows_lt : g.rows < 2 ^ 27

theorem toInt_eq {n : Nat} (h : n < 2 ^ 31) : toInt n = n := by
  apply Int.bmod_eq_of_le_mul_two
  · omega
  · omega

theorem Roomy.toInt_cols {g : Screen} (hg : Roomy g) : toInt (g.width / 8) = g.cols := by
  have hle := hg.cols_le
  unfold Screen.cols at hle
  exact toInt_eq (by omega)

theorem Roomy.toInt_rows {g : Screen} (hg : Roomy g) : toInt (g.height / 16) = g.rows := by
  have hlt := hg.rows_lt
  unfold Screen.rows at hlt
  exact toInt_eq (by omega)

theorem Roomy.rows_sub {g : Screen} (hg : Roomy g) : (g.rows : Int) - 1 = ((g.rows - 1 : Nat) : Int) := by
  have hpos := hg.rows_pos
  omega

section

variable {g : Screen} {s : Surface} {x y : Nat}

theorem drawAtCursor_paints (c : UInt8) (hx : x < 2 ^ 28) (hy : y < 2 ^ 27) :
    ∃ t, drawAtCursor g c ⟨s, x, y⟩ = some ⟨t, x, y⟩ ∧ g.Painted s (cellPaint x y c) t := by
  obtain ⟨t, ht, hpaint⟩ := fbDrawChar_paints (g := g.toRaster) (x := 8 * x) (y := 16 * y) c fgColor bgColor
    (by omega) (by omega) (by omega) (by omega) s
  refine ⟨t, ?_, hpaint⟩
  dsimp only [drawAtCursor, charW, charH]
  rw [Int.mul_comm, Int.mul_comm (y : Int), int_fits (by omega) (by omega), int_fits (by omega) (by omega)]
  simp only [Option.bind_eq_bind, Option.bind_some]
  rw [ht]
  rfl

theorem consoleType_paints (hg : Roomy g) (hx : x ≤ g.cols) (hy : y < g.rows) (c : UInt8) :
    ∃ t, consoleType g c ⟨s, x, y⟩ = some ⟨t, (stroke g.cols x y c).x, (stroke g.cols x y c).y⟩ ∧
      g.Painted s (stroke g.cols x y c).paint t := by
  have hcolumns := hg.toInt_cols
  obtain ⟨hcols, hrows, hwide, hhigh⟩ := hg
  have hnext : int ((y : Int) + 1) = some ((y : Int) + 1) := int_fits (by omega) (by omega)
  have hblank := Raster.Painted.refl g.toRaster s
  unfold consoleType stroke
  simp only [hcolumns, hnext]
  by_cases hfeed : c = 0x0A
  · simp only [hfeed, if_true]
    exact ⟨s, rfl, hblank⟩
  by_cases hreturn : c = 0x0D
  · simp only [hreturn, if_true]
    exact ⟨s, rfl, hblank⟩
  simp only [hfeed, hreturn, if_false]
  by_cases hback : c = 0x08
  · simp only [hback, if_true]
    rcases Nat.eq_zero_or_pos x with hx0 | hx0
    · rcases Nat.eq_zero_or_pos y with hy0 | hy0
      · rw [if_neg (by omega), if_neg (by omega), if_neg (by omega), if_neg (by omega)]
        exact ⟨s, rfl, hblank⟩
      · have hlast : (g.cols : Int) - 1 = ((g.cols - 1 : Nat) : Int) := by omega
        have hup : (y : Int) - 1 = ((y - 1 : Nat) : Int) := by omega
        rw [if_neg (by omega), if_pos (by omega), if_neg (by omega), if_pos hy0, hlast, hup,
          int_fits (by omega) (by omega), Option.bind_eq_bind, Option.bind_some]
        exact drawAtCursor_paints 0x20 (by omega) (by omega)
    · have hleft : (x : Int) - 1 = ((x - 1 : Nat) : Int) := by omega
      rw [if_pos (by omega), if_pos hx0, hleft]
      exact drawAtCursor_paints 0x20 (by omega) (by omega)
  · simp only [hback, if_false]
    by_cases hroom : x < g.cols
    · obtain ⟨t, ht, hpaint⟩ := drawAtCursor_paints (g := g) (s := s) (shown c) (x := x) (y := y) (by omega) (by omega)
      have hroom' : ¬(g.cols : Int) ≤ x := by omega
      have hright : (x : Int) + 1 = ((x + 1 : Nat) : Int) := by omega
      rw [if_neg hroom', if_pos hroom, Option.bind_eq_bind, Option.bind_some]
      refine ⟨t, ?_, hpaint⟩
      rw [shown] at ht
      rw [ht, Option.bind_eq_bind, Option.bind_some, hright, int_fits (by omega) (by omega), Option.bind_some]
    · obtain ⟨t, ht, hpaint⟩ :=
        drawAtCursor_paints (g := g) (s := s) (shown c) (x := 0) (y := y + 1) (by omega) (by omega)
      have hroom' : (g.cols : Int) ≤ x := by omega
      have hdown : (y : Int) + 1 = ((y + 1 : Nat) : Int) := by omega
      have hright : ((0 : Nat) : Int) + 1 = ((1 : Nat) : Int) := by omega
      rw [if_pos hroom', if_neg hroom, Option.bind_eq_bind, Option.bind_some, Option.bind_eq_bind,
        Option.bind_some, hdown]
      refine ⟨t, ?_, hpaint⟩
      rw [shown] at ht
      have hstart : drawAtCursor g (if c < 32 ∨ 126 < c then 0x3F else c) ⟨s, 0, ((y + 1 : Nat) : Int)⟩ =
        some ⟨t, 0, ((y + 1 : Nat) : Int)⟩ := ht
      have hone : int ((0 : Int) + 1) = some 1 := int_fits (by decide) (by decide)
      rw [hstart, Option.bind_some]
      dsimp only
      rw [hone, Option.bind_some]
      rfl

end

/-! ## What scrolling leaves -/

section

variable (g : Screen)

/-- Where the last text row starts. -/
def lastRow : Nat := (g.rows - 1) * 16 * g.pitch

/-- The rows move up. Of the last one the first `64 * width` bytes are cleared, which are `16 * width` words. -/
def scrolled (b : Buf) : Buf := fun i =>
  if i < lastRow g then b (i + 16 * g.pitch)
  else if i < lastRow g + 64 * g.width then (littleEndian 4 bgColor.toNat).getD ((i - lastRow g) % 4) 0
  else b i

variable {g}

theorem lastRow_fits (hg : Roomy g) : lastRow g + 16 * g.pitch ≤ g.size := by
  have hrows : (g.rows - 1) * 16 + 16 ≤ g.height := by
    have hpos := hg.rows_pos
    unfold Screen.rows at hpos ⊢
    omega
  have hbytes := Nat.mul_le_mul_right g.pitch hrows
  rwa [Nat.add_mul] at hbytes

/-- The first rows of text have moved up by one. -/
structure MovedUp (g : Screen) (s : Surface) (k : Nat) (t : Surface) : Prop where
  mem : ∀ i, t.mem i = if i < k * 16 * g.pitch then s.mem (i + 16 * g.pitch) else s.mem i
  within : s.Within g.size → t.Within g.size

/-- The first words of the last row of text are cleared. -/
structure ClearedWords (g : Screen) (s : Surface) (k : Nat) (t : Surface) : Prop where
  mem : ∀ i, t.mem i = if lastRow g ≤ i ∧ i < lastRow g + 4 * k then
    (littleEndian 4 bgColor.toNat).getD ((i - lastRow g) % 4) 0 else s.mem i
  within : s.Within g.size → t.Within g.size

theorem moveUp_spec (hg : Roomy g) (s : Surface) : ∃ t,
    loop (fun k s => some (s.copy (k * 16 * g.pitch) ((k + 1) * 16 * g.pitch) (16 * g.pitch))) (g.rows - 1) s = some t ∧
      MovedUp g s (g.rows - 1) t := by
  refine loop_meets (I := MovedUp g s) ?_ ⟨fun i => by simp, id⟩
  rintro k hk t ⟨hmem, hwithin⟩
  have hnext : (k + 1) * 16 * g.pitch = k * 16 * g.pitch + 16 * g.pitch := by
    rw [Nat.add_mul, Nat.add_mul, Nat.one_mul]
  refine ⟨_, rfl, fun i => ?_, fun hw => (hwithin hw).copy _ ?_⟩
  · simp only [Surface.copy, hnext]
    split
    · next hi =>
      have hsource : k * 16 * g.pitch + 16 * g.pitch + (i - k * 16 * g.pitch) = i + 16 * g.pitch := by omega
      rw [hsource, hmem, if_neg (by omega), if_pos (by omega)]
    · next hi =>
      rw [hmem]
      split
      · rw [if_pos (by omega)]
      · rw [if_neg (by omega)]
  · have hlast := lastRow_fits hg
    have hle : k * 16 * g.pitch ≤ lastRow g := Nat.mul_le_mul_right _ (Nat.mul_le_mul_right 16 (Nat.le_of_lt hk))
    omega

theorem clearLast_spec (hg : Roomy g) (s : Surface) : ∃ t,
    loop (fun i s => some (s.store (lastRow g + 4 * i) (littleEndian 4 bgColor.toNat))) (16 * g.width) s = some t ∧
      ClearedWords g s (16 * g.width) t := by
  refine loop_meets (I := ClearedWords g s) ?_ ⟨fun i => by rw [if_neg (by omega)], id⟩
  rintro k hk t ⟨hmem, hwithin⟩
  refine ⟨_, rfl, fun i => ?_, fun hw => (hwithin hw).store ?_⟩
  · simp only [Surface.store]
    by_cases hin : lastRow g + 4 * k ≤ i ∧ i < lastRow g + 4 * k + 4
    · obtain ⟨n, rfl⟩ : ∃ n, i = lastRow g + 4 * k + n := ⟨i - (lastRow g + 4 * k), by omega⟩
      have hbyte : (lastRow g + 4 * k + n - lastRow g) % 4 = n := by omega
      rw [Buf.write_at _ _ (by rw [length_littleEndian]; omega), if_pos (by omega), hbyte]
    · have hkept : t.mem.write (lastRow g + 4 * k) (littleEndian 4 bgColor.toNat) i = t.mem i := by
        rcases Nat.lt_or_ge i (lastRow g + 4 * k) with h | h
        · exact Buf.write_before h _ _
        · exact Buf.write_after (by rw [length_littleEndian]; omega) _
      rw [hkept, hmem]
      split
      · rw [if_pos (by omega)]
      · rw [if_neg (by omega)]
  · have hlast := lastRow_fits hg
    have hfits := g.fits
    rw [length_littleEndian]
    omega

theorem consoleScroll_spec (hg : Roomy g) (s : Surface) : ∃ t, consoleScroll g s = some t ∧
    t.mem = scrolled g s.mem ∧ (s.Within g.size → t.Within g.size) := by
  obtain ⟨u, hu, hmoved⟩ := moveUp_spec hg s
  obtain ⟨t, ht, hcleared⟩ := clearLast_spec hg u
  have hlast : (((g.rows - 1 : Nat) : Int) * 16 * g.pitch % 2 ^ 64).toNat = lastRow g := by
    have hfits := lastRow_fits hg
    have hmemory := g.inMemory
    have hwide := g.fits
    have hcols := hg.cols_pos
    unfold Screen.cols at hcols
    unfold Raster.size at hfits
    have hcast : ((g.rows - 1 : Nat) : Int) * 16 * g.pitch = (lastRow g : Nat) := by
      rw [lastRow]
      push_cast
      rfl
    rw [hcast]
    omega
  refine ⟨t, ?_, funext fun i => ?_, fun hw => hcleared.within (hmoved.within hw)⟩
  · have hlt := hg.rows_lt
    rw [consoleScroll, hg.toInt_rows, hg.rows_sub, int_fits (by omega) (by omega), Option.bind_eq_bind,
      Option.bind_some, Int.toNat_natCast, hu, Option.bind_eq_bind, Option.bind_some, hlast]
    exact ht
  · have hstart : (g.rows - 1) * 16 * g.pitch = lastRow g := rfl
    rw [hcleared.mem, hmoved.mem, scrolled, hstart]
    grind

/-! ## A character -/

theorem stroke_bounds (hg : Roomy g) {x y : Nat} (hx : x ≤ g.cols) (hy : y < g.rows) (c : UInt8) :
    (stroke g.cols x y c).x ≤ g.cols ∧ (stroke g.cols x y c).y ≤ g.rows := by
  have hcols := hg.cols_pos
  unfold stroke
  split_ifs <;> exact ⟨by dsimp only; omega, by dsimp only; omega⟩

theorem fbConsolePutc_spec (hg : Roomy g) {x y : Nat} (hx : x ≤ g.cols) (hy : y < g.rows) (c : UInt8) (s : Surface) :
    ∃ t, fbConsolePutc g c ⟨s, x, y⟩ =
        some ⟨t, (stroke g.cols x y c).x, (min (stroke g.cols x y c).y (g.rows - 1) : Nat)⟩ ∧
      (s.Within g.size → t.Within g.size) ∧
      t.mem = if (stroke g.cols x y c).y < g.rows then g.paint (stroke g.cols x y c).paint s.mem
        else scrolled g (g.paint (stroke g.cols x y c).paint s.mem) := by
  obtain ⟨u, hu, hpaint⟩ := consoleType_paints (s := s) hg hx hy c
  obtain ⟨-, hbelow⟩ := stroke_bounds hg hx hy c
  have hlt := hg.rows_lt
  have hpos := hg.rows_pos
  rw [fbConsolePutc, hu, hg.toInt_rows, Option.bind_eq_bind, Option.bind_some]
  generalize stroke g.cols x y c = k at *
  dsimp only
  by_cases hscroll : k.y < g.rows
  · have hmin : min k.y (g.rows - 1) = k.y := by omega
    rw [if_neg (by omega), if_pos hscroll, hmin]
    exact ⟨u, rfl, hpaint.within, hpaint.mem⟩
  · obtain ⟨t, ht, hmem, hwithin⟩ := consoleScroll_spec hg u
    have hmin : min k.y (g.rows - 1) = g.rows - 1 := by omega
    rw [if_pos (by omega), if_neg hscroll, ht, hg.rows_sub, int_fits (by omega) (by omega), hmin]
    refine ⟨t, rfl, fun hw => hwithin (hpaint.within hw), ?_⟩
    rw [hmem, hpaint.mem]

/-! ## Which pixels show which character -/

theorem glyphColor_space (row col : Nat) : glyphColor 0x20 row col = bgColor := by
  have hglyph : font.getD (0x20 - 32) [] = List.replicate 16 0 := rfl
  have hindex : glyphIndex 0x20 = some (0x20 - 32) := rfl
  have hrow : (List.replicate 16 0).getD row 0 = 0 := by
    rw [List.getD_eq_getElem?_getD, List.getElem?_replicate]
    split <;> rfl
  have hblank : inked (0x20 - 32) row col = false := by
    rw [inked, hglyph, hrow, Nat.zero_and]
    rfl
  rw [glyphColor, hindex]
  change (if inked (0x20 - 32) row col = true then fgColor else bgColor) = bgColor
  rw [hblank]
  rfl

theorem cellPaint_at {c : UInt8} (hc : c ≠ 0) (x y i j : Nat) :
    cellPaint x y c i j = if i / 8 = x ∧ j / 16 = y then some (glyphColor c (j % 16) (i % 8)) else none := by
  obtain ⟨gi, hgi⟩ := glyphIndex_some hc
  have hcell : (8 * (x : Int) ≤ i ∧ (i : Int) < 8 * x + 8 ∧ 16 * (y : Int) ≤ j ∧ (j : Int) < 16 * y + 16) ↔
      i / 8 = x ∧ j / 16 = y := by omega
  rw [cellPaint, charPaint, glyphColor, hgi, Option.bind_some]
  simp only [hcell]
  split
  · next hin =>
    have hcol : ((i : Int) - 8 * x).toNat = i % 8 := by omega
    have hrow : ((j : Int) - 16 * y).toNat = j % 16 := by omega
    rw [hcol, hrow]
  · rfl

theorem ShowsCells.set {b : Buf} {t : Terminal} (h : ShowsCells g b t) {x : Nat} (hx : x < g.cols) (y : Nat) {c : UInt8}
    (hc : c ≠ 0) : ShowsCells g (g.paint (cellPaint x y c) b) (t.set x y c) := by
  intro i j hi hj
  have hheight : j < g.height := by
    unfold Screen.rows at hj
    omega
  rw [Raster.pixel_paint _ _ hi hheight, cellPaint_at hc, h i j hi hj]
  simp only [Terminal.color, Terminal.set]
  by_cases hcell : i / 8 = x ∧ j / 16 = y
  · have hcol : i < 8 * g.cols := by omega
    rw [if_pos hcell, if_pos hcol, if_pos hcol, if_pos ⟨hcell.2, hcell.1⟩]
    rfl
  · have hother : ¬(j / 16 = y ∧ i / 8 = x) := fun hsame => hcell ⟨hsame.2, hsame.1⟩
    rw [if_neg hcell, if_neg hother]
    rfl

theorem ShowsCells.congr {b : Buf} {t t' : Terminal} (h : ShowsCells g b t) (hcells : t'.cells = t.cells) :
    ShowsCells g b t' := by
  intro i j hi hj
  rw [h i j hi hj, Terminal.color, Terminal.color, hcells]

theorem pixel_up {i j : Nat} (hi : i < g.width) (hj : j + 16 < 16 * g.rows) (b : Buf) :
    g.pixel (scrolled g b) i j = g.pixel b i (j + 16) := by
  have hrow : g.offset i j + 4 ≤ lastRow g := by
    have hfits := g.fits
    have hnext : j + 1 ≤ (g.rows - 1) * 16 := by omega
    have hbytes := Nat.mul_le_mul_right g.pitch hnext
    rw [Nat.succ_mul] at hbytes
    rw [Raster.offset, lastRow]
    omega
  have hdown : g.offset i (j + 16) = g.offset i j + 16 * g.pitch := by
    rw [Raster.offset, Raster.offset, Nat.add_mul]
    omega
  refine Raster.pixel_congr fun t ht => ?_
  rw [scrolled, if_pos (by omega), hdown, Nat.add_right_comm]

/-- The place of a pixel in the last row of text. -/
def inLastRow (g : Screen) (i j : Nat) : Nat := j * g.pitch + 4 * i

theorem offset_lastRow (i j : Nat) : g.offset i (16 * (g.rows - 1) + j) = lastRow g + inLastRow g i j := by
  rw [Raster.offset, inLastRow, lastRow, Nat.add_mul, Nat.mul_comm 16, Nat.add_assoc]

theorem pixel_cleared {i j : Nat} (haligned : 4 ∣ inLastRow g i j) (hreached : inLastRow g i j + 4 ≤ 64 * g.width)
    (b : Buf) :
    g.pixel (scrolled g b) i (16 * (g.rows - 1) + j) = bgColor := by
  refine Raster.pixel_eq fun t ht => ?_
  have hbyte : (lastRow g + inLastRow g i j + t - lastRow g) % 4 = t := by omega
  rw [offset_lastRow, scrolled, if_neg (by omega), if_pos (by omega), hbyte]

theorem pixel_left {i j : Nat} (hmissed : 64 * g.width ≤ inLastRow g i j) (b : Buf) :
    g.pixel (scrolled g b) i (16 * (g.rows - 1) + j) = g.pixel b i (16 * (g.rows - 1) + j) := by
  refine Raster.pixel_congr fun t ht => ?_
  rw [offset_lastRow, scrolled, if_neg (by omega), if_neg (by omega)]

theorem ShowsCells.scroll {b : Buf} {t t' : Terminal} (h : ShowsCells g b t)
    (hup : ∀ r, r + 1 < g.rows → t'.cells r = t.cells (r + 1))
    (hlast : ∀ i j, i < g.width → j < 16 →
      g.pixel (scrolled g b) i (16 * (g.rows - 1) + j) = t'.color g.cols i (16 * (g.rows - 1) + j)) :
    ShowsCells g (scrolled g b) t' := by
  intro i j hi hj
  rcases Nat.lt_or_ge (j + 16) (16 * g.rows) with hmoved | hnew
  · have hrow : (j + 16) / 16 = j / 16 + 1 := by omega
    have hpoint : (j + 16) % 16 = j % 16 := by omega
    rw [pixel_up hi hmoved, h i (j + 16) hi hmoved, Terminal.color, Terminal.color, hrow, hpoint, hup _ (by omega)]
  · obtain ⟨n, rfl⟩ : ∃ n, j = 16 * (g.rows - 1) + n := ⟨j - 16 * (g.rows - 1), by omega⟩
    exact hlast i n hi (by omega)

/-! ## The steps that show what they should -/

/-- The character is shown, and does not only move the cursor. -/
def Drawn (c : UInt8) : Prop := c ≠ 0x0A ∧ c ≠ 0x0D ∧ c ≠ 0x08

instance (c : UInt8) : Decidable (Drawn c) := inferInstanceAs (Decidable (_ ∧ _))

def Scrolls (g : Screen) (st : Console) (c : UInt8) : Prop :=
  st.curY + 1 = g.rows ∧ (c = 0x0A ∨ Drawn c ∧ st.curX = g.cols)

/-- The colour of a point of the new last row: blank, or the character that did not fit the old one. -/
def freshColor (c : UInt8) (i j : Nat) : BitVec 32 := if Drawn c ∧ i < 8 then glyphColor (shown c) j i else bgColor

/-- If the console scrolls, each pixel of the last row either is cleared, and has to be blank, or is left alone, and
already has the colour that it has to have. -/
def Refreshes (g : Screen) (st : Console) (c : UInt8) : Prop :=
  Scrolls g st c → ∀ i j, i < g.width → j < 16 →
    4 ∣ inLastRow g i j ∧ inLastRow g i j + 4 ≤ 64 * g.width ∧ freshColor c i j = bgColor ∨
    64 * g.width ≤ inLastRow g i j ∧ g.pixel st.surface.mem i (16 * (g.rows - 1) + j) = freshColor c i j

theorem shown_ne_zero (c : UInt8) : shown c ≠ 0 := by
  unfold shown
  split
  · decide
  · next hc =>
    rintro rfl
    exact hc (.inl (by decide))

theorem Terminal.put_cursor (hg : Roomy g) {t : Terminal} (hy : t.y < g.rows) (c : UInt8) :
    (t.put g.cols g.rows c).x = (stroke g.cols t.x t.y c).x ∧
      (t.put g.cols g.rows c).y = min (stroke g.cols t.x t.y c).y (g.rows - 1) := by
  have hpos := hg.rows_pos
  unfold Terminal.put stroke
  simp only [Terminal.lineFeed, Terminal.erase, Terminal.set]
  split_ifs <;> grind

theorem color_lastRow (hg : Roomy g) {t : Terminal} {c : UInt8} {i j : Nat} (hj : j < 16)
    (hcells : ∀ q, t.cells (g.rows - 1) q = if Drawn c ∧ q = 0 then shown c else 0x20) :
    t.color g.cols i (16 * (g.rows - 1) + j) = freshColor c i j := by
  have hpos := hg.cols_pos
  have hrow : (16 * (g.rows - 1) + j) / 16 = g.rows - 1 := by omega
  have hpoint : (16 * (g.rows - 1) + j) % 16 = j := by omega
  rw [Terminal.color, hrow, hpoint, hcells, freshColor]
  by_cases hdrawn : Drawn c ∧ i < 8
  · have hcell : i / 8 = 0 := by omega
    have hcol : i % 8 = i := by omega
    rw [if_pos (by omega), if_pos ⟨hdrawn.1, hcell⟩, if_pos hdrawn, hcol]
  · have hother : ¬(Drawn c ∧ i / 8 = 0) := fun h => hdrawn ⟨h.1, by omega⟩
    rw [if_neg hother, if_neg hdrawn, glyphColor_space, ite_self]

theorem freshColor_reached {c : UInt8} {b : Buf} {i j : Nat} (hreached : inLastRow g i j < 64 * g.width)
    (hcolor : g.pixel (scrolled g b) i (16 * (g.rows - 1) + j) = freshColor c i j) :
    4 ∣ inLastRow g i j ∧ inLastRow g i j + 4 ≤ 64 * g.width ∧ freshColor c i j = bgColor := by
  by_cases haligned : 4 ∣ inLastRow g i j
  · have hwhole : inLastRow g i j + 4 ≤ 64 * g.width := by omega
    rw [pixel_cleared haligned hwhole] at hcolor
    exact ⟨haligned, hwhole, hcolor.symm⟩
  · exfalso
    have hcolors : freshColor c i j = bgColor ∨ freshColor c i j = fgColor := by
      unfold freshColor glyphColor
      split
      · split
        · exact .inl rfl
        · split
          · exact .inr rfl
          · exact .inl rfl
      · exact .inl rfl
    have hbyte : scrolled g b (g.offset i (16 * (g.rows - 1) + j)) =
        (littleEndian 4 bgColor.toNat).getD (inLastRow g i j % 4) 0 := by
      rw [offset_lastRow, scrolled, if_neg (by omega), if_pos (by omega), Nat.add_sub_cancel_left]
    have hlow := Raster.pixel_low (g := g.toRaster) (scrolled g b) i (16 * (g.rows - 1) + j)
    rw [hcolor, hbyte] at hlow
    have hmod : inLastRow g i j % 4 = 1 ∨ inLastRow g i j % 4 = 2 ∨ inLastRow g i j % 4 = 3 := by omega
    rcases hcolors with h | h <;> rw [h] at hlow <;> rcases hmod with h' | h' | h' <;> rw [h'] at hlow <;>
      exact absurd hlow (by decide)

theorem ShowsCells.refresh_iff (hg : Roomy g) {b : Buf} {t t' : Terminal} {c : UInt8} (h : ShowsCells g b t)
    (hup : ∀ r, r + 1 < g.rows → t'.cells r = t.cells (r + 1))
    (hnew : ∀ q, t'.cells (g.rows - 1) q = if Drawn c ∧ q = 0 then shown c else 0x20) :
    ShowsCells g (scrolled g b) t' ↔ ∀ i j, i < g.width → j < 16 →
      4 ∣ inLastRow g i j ∧ inLastRow g i j + 4 ≤ 64 * g.width ∧ freshColor c i j = bgColor ∨
      64 * g.width ≤ inLastRow g i j ∧ g.pixel b i (16 * (g.rows - 1) + j) = freshColor c i j := by
  have hpos := hg.rows_pos
  constructor
  · intro hshows i j hi hj
    have hcolor := hshows i (16 * (g.rows - 1) + j) hi (by omega)
    rw [color_lastRow hg hj hnew] at hcolor
    rcases Nat.lt_or_ge (inLastRow g i j) (64 * g.width) with hreached | hmissed
    · exact .inl (freshColor_reached hreached hcolor)
    · rw [pixel_left hmissed] at hcolor
      exact .inr ⟨hmissed, hcolor⟩
  · intro hlast
    refine h.scroll hup fun i j hi hj => ?_
    rw [color_lastRow hg hj hnew]
    rcases hlast i j hi hj with ⟨haligned, hreached, hblank⟩ | ⟨hmissed, hcolor⟩
    · rw [pixel_cleared haligned hreached, hblank]
    · rw [pixel_left hmissed, hcolor]

/-- What the memory is to be after a character. -/
def Put (g : Screen) (st : Console) (t : Terminal) (c : UInt8) : Prop :=
  ShowsCells g (if (stroke g.cols t.x t.y c).y < g.rows then g.paint (stroke g.cols t.x t.y c).paint st.surface.mem
    else scrolled g (g.paint (stroke g.cols t.x t.y c).paint st.surface.mem)) (t.put g.cols g.rows c)

section

variable {st : Console} {t : Terminal}

theorem Shows.bottom (h : Shows g st t) : t.y < g.rows := by
  have hlt := h.inGrid.bottom
  rw [h.curY] at hlt
  omega

theorem Shows.right (h : Shows g st t) : t.x ≤ g.cols := by
  have hle := h.inGrid.right
  rw [h.curX] at hle
  omega

theorem Shows.put_feed (hg : Roomy g) (h : Shows g st t) : Put g st t 0x0A ↔ Refreshes g st 0x0A := by
  have hbottom := h.bottom
  have hcurY := h.curY
  have hstroke : stroke g.cols t.x t.y 0x0A = ⟨0, t.y + 1, Paint.blank⟩ := rfl
  have hput : t.put g.cols g.rows 0x0A = t.lineFeed g.rows := rfl
  rw [Put, hstroke, hput, Raster.paint_blank, Terminal.lineFeed]
  by_cases hroom : t.y + 1 < g.rows
  · have hstays : ¬Scrolls g st 0x0A := fun hscrolls => by
      have hlast := hscrolls.1
      omega
    rw [if_pos hroom, if_pos hroom]
    exact iff_of_true (h.cells.congr rfl) fun hscrolls => absurd hscrolls hstays
  · have hscrolls : Scrolls g st 0x0A := ⟨by omega, .inl rfl⟩
    have hrow : ¬g.rows - 1 + 1 < g.rows := by omega
    rw [if_neg hroom, if_neg hroom,
      h.cells.refresh_iff hg (c := 0x0A) (fun r hr => if_pos hr) fun q => by simp [hrow, Drawn]]
    exact ⟨fun hlast _ => hlast, fun hrefresh => hrefresh hscrolls⟩

theorem Shows.put_back (hg : Roomy g) (h : Shows g st t) : Put g st t 0x08 := by
  have hpos := hg.cols_pos
  have hbottom := h.bottom
  have hright := h.right
  have hspace : (0x20 : UInt8) ≠ 0 := by decide
  have hstroke : stroke g.cols t.x t.y 0x08 =
      if 0 < t.x then ⟨t.x - 1, t.y, cellPaint (t.x - 1) t.y 0x20⟩
      else if 0 < t.y then ⟨g.cols - 1, t.y - 1, cellPaint (g.cols - 1) (t.y - 1) 0x20⟩
      else ⟨t.x, t.y, Paint.blank⟩ := rfl
  have hput : t.put g.cols g.rows 0x08 = if 0 < t.x then t.erase (t.x - 1) t.y
      else if 0 < t.y then t.erase (g.cols - 1) (t.y - 1) else t := rfl
  rw [Put, hstroke, hput]
  by_cases hx : 0 < t.x
  · rw [if_pos hx, if_pos hx, if_pos hbottom]
    exact (h.cells.set (by omega) t.y hspace).congr rfl
  · rw [if_neg hx, if_neg hx]
    by_cases hy : 0 < t.y
    · have habove : t.y - 1 < g.rows := by omega
      rw [if_pos hy, if_pos hy, if_pos habove]
      exact (h.cells.set (by omega) (t.y - 1) hspace).congr rfl
    · rw [if_neg hy, if_neg hy, if_pos hbottom, Raster.paint_blank]
      exact h.cells

theorem Shows.put_drawn (hg : Roomy g) (h : Shows g st t) {c : UInt8} (hdrawn : Drawn c) :
    Put g st t c ↔ Refreshes g st c := by
  have hbottom := h.bottom
  have hright := h.right
  have hcurX := h.curX
  have hcurY := h.curY
  have hshown := shown_ne_zero c
  obtain ⟨hfeed, hreturn, hback⟩ := hdrawn
  have hstroke : stroke g.cols t.x t.y c = if t.x < g.cols then ⟨t.x + 1, t.y, cellPaint t.x t.y (shown c)⟩
      else ⟨1, t.y + 1, cellPaint 0 (t.y + 1) (shown c)⟩ := by
    rw [stroke, if_neg hfeed, if_neg hreturn, if_neg hback]
  have hput : t.put g.cols g.rows c =
      let u := if t.x < g.cols then t else t.lineFeed g.rows
      { u.set u.x u.y (shown c) with x := u.x + 1 } := by
    rw [Terminal.put, if_neg hfeed, if_neg hreturn, if_neg hback]
  rw [Put, hstroke, hput]
  by_cases hscrolls : Scrolls g st c
  · obtain ⟨hlast, hx⟩ := hscrolls
    have hwraps : ¬t.x < g.cols := by
      rcases hx with hx | ⟨-, hx⟩
      · exact absurd hx hfeed
      · omega
    have hrows : t.y + 1 = g.rows := by omega
    have hnone : ¬t.y + 1 < g.rows := by omega
    -- what is on the screen and below it, before it scrolls
    have hbelow := h.cells.set hg.cols_pos (t.y + 1) hshown
    rw [if_neg hwraps, if_neg hwraps, Terminal.lineFeed, if_neg hnone, if_neg hnone,
      hbelow.refresh_iff hg (c := c) (fun r hr => ?_) fun q => ?_]
    · have hkept : ∀ i j, i < g.width → j < 16 →
          g.pixel (g.paint (cellPaint 0 (t.y + 1) (shown c)) st.surface.mem) i (16 * (g.rows - 1) + j) =
            g.pixel st.surface.mem i (16 * (g.rows - 1) + j) := by
        intro i j hi hj
        have hheight : 16 * (g.rows - 1) + j < g.height := by
          unfold Screen.rows at hrows ⊢
          omega
        have habove : ¬(i / 8 = 0 ∧ (16 * (g.rows - 1) + j) / 16 = t.y + 1) := by omega
        rw [Raster.pixel_paint _ _ hi hheight, cellPaint_at hshown, if_neg habove]
        rfl
      constructor
      · intro hall _ i j hi hj
        rw [← hkept i j hi hj]
        exact hall i j hi hj
      · intro hrefresh i j hi hj
        rw [hkept i j hi hj]
        exact hrefresh ⟨hlast, hx⟩ i j hi hj
    · funext q
      have hmoved : ¬r = t.y := by omega
      simp [Terminal.set, hr, hmoved]
    · have hy : g.rows - 1 = t.y := by omega
      simp [Terminal.set, hy, hnone, Drawn, hfeed, hreturn, hback]
  · refine iff_of_true ?_ fun hyes => absurd hyes hscrolls
    by_cases hx : t.x < g.cols
    · rw [if_pos hx, if_pos hx, if_pos hbottom]
      exact (h.cells.set hx t.y hshown).congr rfl
    · have hroom : t.y + 1 < g.rows := by
        by_contra hnone
        exact hscrolls ⟨by omega, .inr ⟨⟨hfeed, hreturn, hback⟩, by omega⟩⟩
      rw [if_neg hx, if_neg hx, Terminal.lineFeed, if_pos hroom, if_pos hroom]
      exact (h.cells.set hg.cols_pos (t.y + 1) hshown).congr rfl

theorem Shows.put_iff (hg : Roomy g) (h : Shows g st t) (c : UInt8) : Put g st t c ↔ Refreshes g st c := by
  by_cases hfeed : c = 0x0A
  · subst hfeed
    exact h.put_feed hg
  by_cases hdrawn : Drawn c
  · exact h.put_drawn hg hdrawn
  have hstays : ¬Scrolls g st c := fun hscrolls => hscrolls.2.elim hfeed fun hlast => hdrawn hlast.1
  refine iff_of_true ?_ fun hscrolls => absurd hscrolls hstays
  by_cases hreturn : c = 0x0D
  · subst hreturn
    have hstroke : stroke g.cols t.x t.y 0x0D = ⟨0, t.y, Paint.blank⟩ := rfl
    rw [Put, hstroke, Raster.paint_blank, if_pos h.bottom]
    exact h.cells.congr rfl
  · obtain rfl : c = 0x08 := by
      by_contra hback
      exact hdrawn ⟨hfeed, hreturn, hback⟩
    exact h.put_back hg

/-! ## Runs -/

/-- One character on the console. -/
def Puts (g : Screen) (st : Console) (c : UInt8) (st' : Console) : Prop := fbConsolePutc g c st = some st'

theorem InGrid.puts (hg : Roomy g) (h : InGrid g st) (hwithin : st.surface.Within g.size) (c : UInt8) :
    ∃ st', Puts g st c st' ∧ InGrid g st' ∧ st'.surface.Within g.size := by
  obtain ⟨s, curX, curY⟩ := st
  obtain ⟨hleft, hright, htop, hbottom⟩ := h
  obtain ⟨x, rfl⟩ := Int.eq_ofNat_of_zero_le hleft
  obtain ⟨y, rfl⟩ := Int.eq_ofNat_of_zero_le htop
  have hx : x ≤ g.cols := Int.ofNat_le.mp hright
  have hy : y < g.rows := Int.ofNat_lt.mp hbottom
  obtain ⟨t, ht, hkept, -⟩ := fbConsolePutc_spec hg hx hy c s
  have hbounds := stroke_bounds hg hx hy c
  have hpos := hg.rows_pos
  refine ⟨_, ht, ⟨Int.natCast_nonneg _, ?_, Int.natCast_nonneg _, ?_⟩, hkept hwithin⟩
  · dsimp only
    omega
  · dsimp only
    omega

theorem Shows.puts (hg : Roomy g) (h : Shows g st t) {c : UInt8} {st' : Console} (hputs : Puts g st c st') :
    st'.curX = (t.put g.cols g.rows c).x ∧ st'.curY = (t.put g.cols g.rows c).y ∧
      (ShowsCells g st'.surface.mem (t.put g.cols g.rows c) ↔ Refreshes g st c) := by
  have hstart : st = ⟨st.surface, t.x, t.y⟩ := by
    rw [← h.curX, ← h.curY]
  obtain ⟨s, hs, -, hmem⟩ := fbConsolePutc_spec hg h.right h.bottom c st.surface
  rw [Puts, hstart, hs] at hputs
  obtain rfl := Option.some.inj hputs
  obtain ⟨hx, hy⟩ := Terminal.put_cursor hg h.bottom c
  refine ⟨by rw [hx], by rw [hy], ?_⟩
  rw [← h.put_iff hg c, Put, ← hmem]

theorem Shows.step_iff (hg : Roomy g) (h : Shows g st t) {c : UInt8} {st' : Console} (hputs : Puts g st c st') :
    Shows g st' (t.put g.cols g.rows c) ↔ Refreshes g st c := by
  obtain ⟨st'', hputs', hgrid, hwithin⟩ := h.inGrid.puts hg h.within c
  obtain rfl : st' = st'' := Option.some.inj (hputs.symm.trans hputs')
  obtain ⟨hx, hy, hcells⟩ := h.puts hg hputs
  rw [← hcells]
  exact ⟨Shows.cells, fun hshown => ⟨hwithin, hgrid, hx, hy, hshown⟩⟩

theorem Shows.run (hg : Roomy g) {cs : CStr} {st' : Console} (hrun : Run (Guarded (Refreshes g) (Puts g)) st cs st')
    (h : Shows g st t) : Shows g st' (cs.foldl (Terminal.put g.cols g.rows) t) := by
  induction hrun generalizing t with
  | nil => exact h
  | cons hstep _ ih => exact ih ((h.step_iff hg hstep.2).mpr hstep.1)

theorem run_puts {cs : CStr} {st' : Console} : Run (Puts g) st cs st' ↔ fbConsoleWrite g cs st = some st' := by
  constructor
  · intro hrun
    induction hrun with
    | nil => rfl
    | cons hstep _ ih => rw [fbConsoleWrite, hstep, Option.bind_eq_bind, Option.bind_some, ih]
  · intro hwrite
    induction cs generalizing st with
    | nil =>
      obtain rfl := Option.some.inj hwrite
      exact .nil st
    | cons c cs ih =>
      rw [fbConsoleWrite, Option.bind_eq_bind, Option.bind_eq_some_iff] at hwrite
      obtain ⟨u, hu, hrest⟩ := hwrite
      exact .cons hu (ih hrest)

theorem InGrid.write (hg : Roomy g) (h : InGrid g st) (hwithin : st.surface.Within g.size) (cs : CStr) :
    ∃ st', fbConsoleWrite g cs st = some st' ∧ InGrid g st' ∧ st'.surface.Within g.size := by
  induction cs generalizing st with
  | nil => exact ⟨st, rfl, h, hwithin⟩
  | cons c cs ih =>
    obtain ⟨u, hu, hgrid, hstores⟩ := h.puts hg hwithin c
    obtain ⟨st', hst', hlast⟩ := ih hgrid hstores
    exact ⟨st', by rw [fbConsoleWrite, hu, Option.bind_eq_bind, Option.bind_some, hst'], hlast⟩

theorem fbConsoleInit_shows (hg : Roomy g) (b : Buf) :
    ∃ st, fbConsoleInit g b = some st ∧ Shows g st Terminal.blank := by
  obtain ⟨s, hs, hpaint⟩ := fbClear_paints (g := g.toRaster) bgColor ⟨b, []⟩
  have hpos := hg.rows_pos
  refine ⟨⟨s, 0, 0⟩, by rw [fbConsoleInit, hs]; rfl, hpaint.within ?_, ⟨?_, ?_, ?_, ?_⟩, rfl, rfl, fun i j hi hj => ?_⟩
  · exact fun w hw => absurd hw (List.not_mem_nil)
  · exact Int.le_refl 0
  · exact Int.natCast_nonneg _
  · exact Int.le_refl 0
  · exact Int.natCast_pos.mpr hpos
  · have hheight : j < g.height := by
      unfold Screen.rows at hj
      omega
    rw [hpaint.mem, Raster.pixel_paint _ _ hi hheight, Terminal.color, Terminal.blank, glyphColor_space, ite_self]
    rfl

end

/-- The screen shows what a terminal shows up to the first scroll that does not refresh the last row. -/
theorem console_right (g : Screen) (hwidth : 8 ≤ g.width) (hheight : 16 ≤ g.height) (hcols : g.width / 8 ≤ 2 ^ 28)
    (hrows : g.height / 16 < 2 ^ 27) (b : Buf) : ∃ st, fbConsoleInit g b = some st ∧
    (∀ cs, ∃ st', fbConsoleWrite g cs st = some st' ∧ InGrid g st' ∧ st'.surface.Within g.size) ∧
    ∀ cs st', Run (Guarded (Refreshes g) (Puts g)) st cs st' →
      Shows g st' (cs.foldl (Terminal.put g.cols g.rows) Terminal.blank) ∧
      ∀ c st'', Puts g st' c st'' →
        (Shows g st'' ((cs ++ [c]).foldl (Terminal.put g.cols g.rows) Terminal.blank) ↔ Refreshes g st' c) := by
  have hg : Roomy g := ⟨Nat.div_pos hwidth (by decide), Nat.div_pos hheight (by decide), hcols, hrows⟩
  obtain ⟨st, hst, hblank⟩ := fbConsoleInit_shows hg b
  refine ⟨st, hst, hblank.inGrid.write hg hblank.within, fun cs st' hrun => ?_⟩
  have hshows := hblank.run hg hrun
  refine ⟨hshows, fun c st'' hputs => ?_⟩
  rw [List.foldl_append]
  exact hshows.step_iff hg hputs

/-! ## Line feeds -/

theorem refreshes_feed (hpitch : g.pitch = 4 * g.width) (st : Console) : Refreshes g st 0x0A := by
  intro _ i j hi hj
  have hrow : j * (4 * g.width) ≤ 15 * (4 * g.width) := Nat.mul_le_mul_right _ (Nat.le_of_lt_succ hj)
  have hblank : freshColor 0x0A i j = bgColor := if_neg fun h => absurd h.1 (by decide)
  refine .inl ⟨?_, ?_, hblank⟩
  · rw [inLastRow, hpitch]
    exact Nat.dvd_add (Nat.dvd_trans (Nat.dvd_mul_right 4 _) (Nat.dvd_mul_left _ j)) (Nat.dvd_mul_right 4 i)
  · rw [inLastRow, hpitch]
    omega

/-- In the last row, no line is longer than the row. -/
def LinesFit (g : Screen) : Terminal → CStr → Prop
  | _, [] => True
  | t, c :: cs => (c = 0x0A ∨ ¬(t.y + 1 = g.rows ∧ t.x = g.cols)) ∧ LinesFit g (t.put g.cols g.rows c) cs

instance LinesFit.decidable (g : Screen) : (t : Terminal) → (cs : CStr) → Decidable (LinesFit g t cs)
  | _, [] => instDecidableTrue
  | t, c :: cs => @instDecidableAnd _ _ inferInstance (LinesFit.decidable g (t.put g.cols g.rows c) cs)

theorem Shows.lines (hg : Roomy g) (hpitch : g.pitch = 4 * g.width) (h : Shows g st t) {cs : CStr}
    (hlines : LinesFit g t cs) : ∃ st', Run (Guarded (Refreshes g) (Puts g)) st cs st' := by
  induction cs generalizing st t with
  | nil => exact ⟨st, .nil st⟩
  | cons c cs ih =>
    obtain ⟨hfits, hrest⟩ := hlines
    have hrefreshes : Refreshes g st c := by
      by_cases hfeed : c = 0x0A
      · rw [hfeed]
        exact refreshes_feed hpitch st
      · rintro ⟨hlast, hfull⟩
        obtain ⟨-, hfull⟩ := hfull.resolve_left hfeed
        rw [h.curY] at hlast
        rw [h.curX] at hfull
        exact absurd ⟨Int.ofNat_inj.mp hlast, Int.ofNat_inj.mp hfull⟩ (hfits.resolve_left hfeed)
    obtain ⟨u, hputs, -⟩ := h.inGrid.puts hg h.within c
    obtain ⟨st', hrun⟩ := ih ((h.step_iff hg hputs).mpr hrefreshes) hrest
    exact ⟨st', .cons ⟨hrefreshes, hputs⟩ hrun⟩

/-- A screen with one cell. -/
def oneCell : Screen := ⟨⟨8, 16, 32, by decide⟩, by decide⟩

/-- A screen with two rows of two cells. -/
def fourCells : Screen := ⟨⟨16, 32, 64, by decide⟩, by decide⟩

/-- The third character is in the second row, and the line feed behind it scrolls. -/
def scrolledText : CStr := [0x41, 0x42, 0x43, 0x0A, 0x44]

theorem console_right_scrolled : ∃ st st', fbConsoleInit fourCells (fun _ => 7) = some st ∧
    fbConsoleWrite fourCells scrolledText st = some st' ∧
    Shows fourCells st' (scrolledText.foldl (Terminal.put 2 2) Terminal.blank) := by
  have hg : Roomy fourCells := ⟨by decide, by decide, by decide, by decide⟩
  obtain ⟨st, hst, -, hrun⟩ := console_right fourCells (by decide) (by decide) (by decide) (by decide) fun _ => 7
  obtain ⟨st', hlines⟩ := (hrun [] st (.nil st)).1.lines hg rfl (show LinesFit fourCells _ scrolledText by decide)
  exact ⟨st, st', hst, run_puts.mp hlines.unguard, (hrun scrolledText st' hlines).1⟩

/-- The second of two characters is drawn below the only row, and then the row is cleared. -/
theorem console_loses_character : ∃ st st', fbConsoleInit oneCell (fun _ => 0) = some st ∧
    fbConsoleWrite oneCell [0x41, 0x42] st = some st' ∧
    ¬ShowsCells oneCell st'.surface.mem ([0x41, 0x42].foldl (Terminal.put 1 1) Terminal.blank) := by
  have hg : Roomy oneCell := ⟨by decide, by decide, by decide, by decide⟩
  obtain ⟨st, hst, hblank⟩ := fbConsoleInit_shows hg fun _ => 0
  obtain ⟨u, hfirst, -⟩ := hblank.inGrid.puts hg hblank.within 0x41
  have hstays : ¬Scrolls oneCell st 0x41 := by
    rintro ⟨-, hfeed | ⟨-, hlast⟩⟩
    · exact absurd hfeed (by decide)
    · rw [hblank.curX] at hlast
      exact absurd hlast (by decide)
  have hshows := (hblank.step_iff hg hfirst).mpr fun hscrolls => absurd hscrolls hstays
  obtain ⟨st', hsecond, hgrid, hwithin⟩ := hshows.inGrid.puts hg hshows.within 0x42
  refine ⟨st, st', hst, run_puts.mp (.cons hfirst (.single hsecond)), fun hcells => ?_⟩
  have hlast : Scrolls oneCell u 0x42 := ⟨by rw [hshows.curY]; rfl, .inr ⟨by decide, by rw [hshows.curX]; rfl⟩⟩
  -- a point of the letter, which the clearing reaches
  rcases ((hshows.puts hg hsecond).2.2.mp hcells) hlast 1 1 (by decide) (by decide) with ⟨-, -, hblank⟩ | ⟨hmissed, -⟩
  · exact absurd hblank (by decide +kernel)
  · exact absurd hmissed (by decide)

end

end Siathos.Fb
