import Siathos.Lib.Raster

/-!
# Drawing on the framebuffer (`fb.c`)

The functions draw on a framebuffer that is there (`g_fb.addr` is not null). Its rows lie in memory, so that no offset
into them wraps. Signed arithmetic that overflows is undefined, and a function that gets there fails.
-/

open Lib

namespace Siathos.Fb

/-- A number that has to fit in an `int`. -/
def int (n : Int) : Option Int := if -2 ^ 31 ≤ n ∧ n < 2 ^ 31 then some n else none

theorem int_fits {n : Int} (hlow : -2 ^ 31 ≤ n) (hhigh : n < 2 ^ 31) : int n = some n := if_pos ⟨hlow, hhigh⟩

theorem int_overflows {n : Int} (h : n < -2 ^ 31 ∨ 2 ^ 31 ≤ n) : int n = none := by
  rw [int, if_neg]
  omega

def charW : Int := 8

def charH : Int := 16

def font : List (List Nat) := [
  [0, 0, 0, 0, 0, 0, 0, 0, 0, 0, 0, 0, 0, 0, 0, 0],
  [0, 0x18, 0x18, 0x18, 0x18, 0x18, 0x18, 0x18, 0x18, 0, 0x18, 0x18, 0, 0, 0, 0],
  [0, 0x66, 0x66, 0x66, 0x66, 0x24, 0x24, 0, 0, 0, 0, 0, 0, 0, 0, 0],
  [0, 0x6C, 0x6C, 0x6C, 0x6C, 0xFE, 0x6C, 0x6C, 0xFE, 0x6C, 0x6C, 0x6C, 0, 0, 0, 0],
  [0, 0x18, 0x7E, 0x60, 0x60, 0x7C, 0x06, 0x06, 0x7C, 0x60, 0x60, 0x7E, 0x18, 0, 0, 0],
  [0, 0, 0x63, 0x66, 0x0C, 0x18, 0x30, 0x60, 0x66, 0x63, 0, 0, 0, 0, 0, 0],
  [0, 0x3C, 0x66, 0x66, 0x3C, 0x18, 0x7C, 0xC6, 0xC6, 0x7E, 0x06, 0x06, 0, 0, 0, 0],
  [0, 0x18, 0x18, 0x18, 0x18, 0, 0, 0, 0, 0, 0, 0, 0, 0, 0, 0],
  [0, 0x30, 0x18, 0x0C, 0x0C, 0x0C, 0x0C, 0x0C, 0x0C, 0x18, 0x30, 0, 0, 0, 0, 0],
  [0, 0x0C, 0x18, 0x30, 0x30, 0x30, 0x30, 0x30, 0x30, 0x18, 0x0C, 0, 0, 0, 0, 0],
  [0, 0, 0x66, 0x3C, 0xFF, 0x18, 0x18, 0xFF, 0x3C, 0x66, 0, 0, 0, 0, 0, 0],
  [0, 0, 0x18, 0x18, 0x18, 0x7E, 0x18, 0x18, 0x18, 0x18, 0, 0, 0, 0, 0, 0],
  [0, 0, 0, 0, 0, 0, 0, 0, 0, 0x18, 0x18, 0x30, 0, 0, 0, 0],
  [0, 0, 0, 0, 0, 0, 0x7E, 0, 0, 0, 0, 0, 0, 0, 0, 0],
  [0, 0, 0, 0, 0, 0, 0, 0, 0, 0x18, 0x18, 0, 0, 0, 0, 0],
  [0, 0x03, 0x06, 0x0C, 0x18, 0x30, 0x60, 0xC0, 0x80, 0, 0, 0, 0, 0, 0, 0],
  [0, 0x7C, 0x86, 0x8E, 0x9A, 0xB2, 0xC6, 0x82, 0x82, 0x86, 0x7C, 0, 0, 0, 0, 0],
  [0, 0x18, 0x38, 0x58, 0x18, 0x18, 0x18, 0x18, 0x18, 0x18, 0x7E, 0, 0, 0, 0, 0],
  [0, 0x7C, 0x82, 0x82, 0x02, 0x04, 0x18, 0x20, 0x40, 0x80, 0xFE, 0, 0, 0, 0, 0],
  [0, 0x7C, 0x82, 0x82, 0x02, 0x1C, 0x02, 0x02, 0x82, 0x82, 0x7C, 0, 0, 0, 0, 0],
  [0, 0x0C, 0x14, 0x24, 0x44, 0x84, 0x84, 0xFE, 0x04, 0x04, 0x04, 0, 0, 0, 0, 0],
  [0, 0xFE, 0x80, 0x80, 0xFC, 0x82, 0x02, 0x82, 0x82, 0x84, 0x78, 0, 0, 0, 0, 0],
  [0, 0x38, 0x40, 0x80, 0xFC, 0x82, 0x82, 0x82, 0x82, 0x84, 0x78, 0, 0, 0, 0, 0],
  [0, 0xFE, 0x02, 0x04, 0x08, 0x10, 0x20, 0x20, 0x20, 0x20, 0x20, 0, 0, 0, 0, 0],
  [0, 0x7C, 0x82, 0x82, 0x82, 0x7C, 0x82, 0x82, 0x82, 0x82, 0x7C, 0, 0, 0, 0, 0],
  [0, 0x7C, 0x82, 0x82, 0x82, 0x82, 0x7E, 0x02, 0x02, 0x04, 0x38, 0, 0, 0, 0, 0],
  [0, 0, 0x18, 0x18, 0, 0, 0x18, 0x18, 0, 0, 0, 0, 0, 0, 0, 0],
  [0, 0, 0x30, 0x30, 0, 0, 0x30, 0x30, 0x18, 0x30, 0, 0, 0, 0, 0, 0],
  [0, 0x06, 0x0C, 0x18, 0x30, 0x60, 0x30, 0x18, 0x0C, 0x06, 0, 0, 0, 0, 0, 0],
  [0, 0, 0, 0, 0x7E, 0, 0, 0x7E, 0, 0, 0, 0, 0, 0, 0, 0],
  [0, 0x60, 0x30, 0x18, 0x0C, 0x06, 0x0C, 0x18, 0x30, 0x60, 0, 0, 0, 0, 0, 0],
  [0, 0x7C, 0x82, 0x82, 0x02, 0x04, 0x08, 0x10, 0x10, 0, 0x10, 0, 0, 0, 0, 0],
  [0, 0x3C, 0xC6, 0xCE, 0xDE, 0xD6, 0xD6, 0xD6, 0xDC, 0xC0, 0x7C, 0, 0, 0, 0, 0],
  [0, 0x38, 0x6C, 0xC6, 0xC6, 0xC6, 0xFE, 0xC6, 0xC6, 0xC6, 0xC6, 0, 0, 0, 0, 0],
  [0, 0xFC, 0x82, 0x82, 0x82, 0xFC, 0x82, 0x82, 0x82, 0x82, 0xFC, 0, 0, 0, 0, 0],
  [0, 0x7C, 0x82, 0x80, 0x80, 0x80, 0x80, 0x80, 0x80, 0x82, 0x7C, 0, 0, 0, 0, 0],
  [0, 0xF8, 0x84, 0x82, 0x82, 0x82, 0x82, 0x82, 0x82, 0x84, 0xF8, 0, 0, 0, 0, 0],
  [0, 0xFE, 0x80, 0x80, 0x80, 0xF8, 0x80, 0x80, 0x80, 0x80, 0xFE, 0, 0, 0, 0, 0],
  [0, 0xFE, 0x80, 0x80, 0x80, 0xF8, 0x80, 0x80, 0x80, 0x80, 0x80, 0, 0, 0, 0, 0],
  [0, 0x7C, 0x82, 0x80, 0x80, 0x8C, 0x82, 0x82, 0x82, 0x82, 0x7E, 0, 0, 0, 0, 0],
  [0, 0xC6, 0xC6, 0xC6, 0xC6, 0xFE, 0xC6, 0xC6, 0xC6, 0xC6, 0xC6, 0, 0, 0, 0, 0],
  [0, 0x7E, 0x18, 0x18, 0x18, 0x18, 0x18, 0x18, 0x18, 0x18, 0x7E, 0, 0, 0, 0, 0],
  [0, 0x1E, 0x06, 0x06, 0x06, 0x06, 0x06, 0x06, 0xC6, 0xC6, 0x7C, 0, 0, 0, 0, 0],
  [0, 0xC6, 0x8C, 0x98, 0xB0, 0xE0, 0xB0, 0x98, 0x8C, 0x8C, 0xC6, 0, 0, 0, 0, 0],
  [0, 0x80, 0x80, 0x80, 0x80, 0x80, 0x80, 0x80, 0x80, 0x80, 0xFE, 0, 0, 0, 0, 0],
  [0, 0xC6, 0xEE, 0xFE, 0xD6, 0xC6, 0xC6, 0xC6, 0xC6, 0xC6, 0xC6, 0, 0, 0, 0, 0],
  [0, 0xC6, 0xE6, 0xF6, 0xFE, 0xDE, 0xCE, 0xC6, 0xC6, 0xC6, 0xC6, 0, 0, 0, 0, 0],
  [0, 0x7C, 0x82, 0x82, 0x82, 0x82, 0x82, 0x82, 0x82, 0x82, 0x7C, 0, 0, 0, 0, 0],
  [0, 0xFC, 0x82, 0x82, 0x82, 0xFC, 0x80, 0x80, 0x80, 0x80, 0x80, 0, 0, 0, 0, 0],
  [0, 0x7C, 0x82, 0x82, 0x82, 0x82, 0x82, 0x82, 0x8A, 0x84, 0x7A, 0, 0, 0, 0, 0],
  [0, 0xFC, 0x82, 0x82, 0x82, 0xFC, 0x88, 0x84, 0x82, 0x82, 0x82, 0, 0, 0, 0, 0],
  [0, 0x78, 0x84, 0x80, 0x80, 0x70, 0x0C, 0x04, 0x84, 0x84, 0x78, 0, 0, 0, 0, 0],
  [0, 0xFE, 0x10, 0x10, 0x10, 0x10, 0x10, 0x10, 0x10, 0x10, 0xFE, 0, 0, 0, 0, 0],
  [0, 0xC6, 0xC6, 0xC6, 0xC6, 0xC6, 0xC6, 0xC6, 0xC6, 0xC6, 0x7C, 0, 0, 0, 0, 0],
  [0, 0xC6, 0xC6, 0xC6, 0xC6, 0xC6, 0xC6, 0x6C, 0x6C, 0x38, 0x38, 0, 0, 0, 0, 0],
  [0, 0xC6, 0xC6, 0xC6, 0xC6, 0xC6, 0xD6, 0xFE, 0xEE, 0x6C, 0x6C, 0, 0, 0, 0, 0],
  [0, 0xC6, 0xC6, 0x6C, 0x6C, 0x38, 0x38, 0x6C, 0x6C, 0xC6, 0xC6, 0, 0, 0, 0, 0],
  [0, 0xC6, 0xC6, 0x6C, 0x6C, 0x38, 0x10, 0x10, 0x10, 0x10, 0x38, 0, 0, 0, 0, 0],
  [0, 0xFE, 0x04, 0x08, 0x10, 0x20, 0x40, 0x40, 0x80, 0x80, 0xFE, 0, 0, 0, 0, 0],
  [0, 0x78, 0x60, 0x60, 0x60, 0x60, 0x60, 0x60, 0x60, 0x60, 0x78, 0, 0, 0, 0, 0],
  [0, 0x80, 0xC0, 0x60, 0x30, 0x18, 0x0C, 0x06, 0x03, 0, 0, 0, 0, 0, 0, 0],
  [0, 0x1E, 0x06, 0x06, 0x06, 0x06, 0x06, 0x06, 0x06, 0x06, 0x1E, 0, 0, 0, 0, 0],
  [0, 0x18, 0x3C, 0x66, 0, 0, 0, 0, 0, 0, 0, 0, 0, 0, 0, 0],
  [0, 0, 0, 0, 0, 0, 0, 0, 0, 0, 0xFF, 0, 0, 0, 0, 0],
  [0, 0x30, 0x18, 0x0C, 0, 0, 0, 0, 0, 0, 0, 0, 0, 0, 0, 0],
  [0, 0, 0, 0x3C, 0x42, 0x42, 0x42, 0x42, 0x42, 0x46, 0x3A, 0, 0, 0, 0, 0],
  [0, 0x80, 0x80, 0x80, 0xFC, 0x82, 0x82, 0x82, 0x82, 0x82, 0xFC, 0, 0, 0, 0, 0],
  [0, 0, 0, 0x7C, 0x82, 0x80, 0x80, 0x80, 0x80, 0x82, 0x7C, 0, 0, 0, 0, 0],
  [0, 0x02, 0x02, 0x02, 0x7E, 0x82, 0x82, 0x82, 0x82, 0x82, 0x7E, 0, 0, 0, 0, 0],
  [0, 0, 0, 0x78, 0x84, 0xFC, 0x80, 0x80, 0x80, 0x84, 0x78, 0, 0, 0, 0, 0],
  [0, 0x1C, 0x22, 0x20, 0x20, 0xF8, 0x20, 0x20, 0x20, 0x20, 0x20, 0, 0, 0, 0, 0],
  [0, 0, 0, 0x3E, 0x42, 0x42, 0x42, 0x42, 0x46, 0x3A, 0x02, 0x3C, 0, 0, 0, 0],
  [0, 0x80, 0x80, 0x80, 0xFC, 0x82, 0x82, 0x82, 0x82, 0x82, 0x82, 0, 0, 0, 0, 0],
  [0, 0x18, 0x18, 0, 0x18, 0x18, 0x18, 0x18, 0x18, 0x18, 0x7E, 0, 0, 0, 0, 0],
  [0, 0x06, 0x06, 0, 0x06, 0x06, 0x06, 0x06, 0x06, 0x06, 0x66, 0x66, 0x3C, 0, 0, 0],
  [0, 0x80, 0x80, 0x80, 0x88, 0x90, 0xE0, 0x90, 0x88, 0x84, 0x82, 0, 0, 0, 0, 0],
  [0, 0x18, 0x18, 0x18, 0x18, 0x18, 0x18, 0x18, 0x18, 0x18, 0x7E, 0, 0, 0, 0, 0],
  [0, 0, 0, 0xCC, 0xCC, 0xFE, 0xD6, 0xC6, 0xC6, 0xC6, 0xC6, 0, 0, 0, 0, 0],
  [0, 0, 0, 0xFC, 0x82, 0x82, 0x82, 0x82, 0x82, 0x82, 0x82, 0, 0, 0, 0, 0],
  [0, 0, 0, 0x7C, 0x82, 0x82, 0x82, 0x82, 0x82, 0x82, 0x7C, 0, 0, 0, 0, 0],
  [0, 0, 0, 0xFC, 0x82, 0x82, 0x82, 0x82, 0x82, 0xFC, 0x80, 0x80, 0x80, 0, 0, 0],
  [0, 0, 0, 0x7E, 0x82, 0x82, 0x82, 0x82, 0x82, 0x7E, 0x02, 0x02, 0x02, 0, 0, 0],
  [0, 0, 0, 0xEC, 0x92, 0x90, 0x80, 0x80, 0x80, 0x80, 0x80, 0, 0, 0, 0, 0],
  [0, 0, 0, 0x78, 0x84, 0x80, 0x78, 0x04, 0x84, 0x84, 0x78, 0, 0, 0, 0, 0],
  [0, 0x20, 0x20, 0xF8, 0x20, 0x20, 0x20, 0x20, 0x20, 0x22, 0x1C, 0, 0, 0, 0, 0],
  [0, 0, 0, 0x82, 0x82, 0x82, 0x82, 0x82, 0x82, 0x82, 0x7E, 0, 0, 0, 0, 0],
  [0, 0, 0, 0x82, 0x82, 0x82, 0x82, 0x82, 0x44, 0x44, 0x38, 0, 0, 0, 0, 0],
  [0, 0, 0, 0xC6, 0xC6, 0xC6, 0xC6, 0xD6, 0xFE, 0xEE, 0x6C, 0, 0, 0, 0, 0],
  [0, 0, 0, 0x82, 0x82, 0x44, 0x38, 0x38, 0x44, 0x82, 0x82, 0, 0, 0, 0, 0],
  [0, 0, 0, 0x82, 0x82, 0x82, 0x82, 0x46, 0x3A, 0x02, 0x3C, 0x82, 0x44, 0x38, 0, 0],
  [0, 0, 0, 0xFE, 0x04, 0x08, 0x10, 0x20, 0x40, 0x80, 0xFE, 0, 0, 0, 0, 0],
  [0, 0x3C, 0x30, 0x30, 0x30, 0x30, 0x60, 0x30, 0x30, 0x30, 0x30, 0x3C, 0, 0, 0, 0],
  [0, 0x18, 0x18, 0x18, 0x18, 0x18, 0, 0x18, 0x18, 0x18, 0x18, 0x18, 0, 0, 0, 0],
  [0, 0x78, 0x0C, 0x0C, 0x0C, 0x0C, 0x06, 0x0C, 0x0C, 0x0C, 0x0C, 0x78, 0, 0, 0, 0],
  [0, 0x6C, 0x38, 0x10, 0, 0, 0, 0, 0, 0, 0, 0, 0, 0, 0, 0],
  [0, 0, 0, 0, 0, 0, 0, 0, 0, 0, 0, 0, 0, 0, 0, 0]]

/-- The glyph of a character. Those without one get that of `?`, and NUL none. -/
def glyphIndex (c : UInt8) : Option Nat :=
  if 32 ≤ c ∧ c ≤ 126 then some (c.toNat - 32) else if c = 0 then none else some (63 - 32)

/-- `bits&(0x80>>col)` -/
def inked (gi row col : Nat) : Bool := (font.getD gi []).getD row 0 &&& (0x80 >>> col) ≠ 0

section

variable (g : Raster)

def fbClear (color : BitVec 32) : Surface → Option Surface :=
  loop (fun y => loop (fun x s => some (s.store (g.offset x y) (littleEndian 4 color.toNat))) g.width) g.height

/-- What the inner loop of `fb_draw_rect` does in column `i` of row `j`. -/
def rectColumn (color : BitVec 32) (j : Nat) (i : Int) (s : Surface) : Option Surface :=
  if 0 ≤ i ∧ i.toNat < g.width then do
    let bytes ← int (i * 4)
    some (s.store (j * g.pitch + bytes.toNat) (littleEndian 4 color.toNat))
  else some s

/-- What the outer loop does in row `j`. -/
def rectRow (x w : Int) (color : BitVec 32) (j : Int) (s : Surface) : Option Surface :=
  if 0 ≤ j ∧ j.toNat < g.height then do
    let right ← int (x + w)
    loop (fun col => rectColumn g color j.toNat (x + col)) (right - x).toNat s
  else some s

def fbDrawRect (x y w h : Int) (color : BitVec 32) (s : Surface) : Option Surface := do
  let bottom ← int (y + h)
  loop (fun row => rectRow g x w color (y + row)) (bottom - y).toNat s

/-- What the inner loop of `fb_draw_char` does with one point of the glyph. -/
def charPoint (x y : Int) (gi row col : Nat) (fg bg : BitVec 32) (s : Surface) : Option Surface := do
  let colr := if inked gi row col then fg else bg
  let px ← int (x + col)
  let py ← int (y + row)
  if 0 ≤ px ∧ 0 ≤ py ∧ px.toNat < g.width ∧ py.toNat < g.height then
    some (s.store (g.offset px.toNat py.toNat) (littleEndian 4 colr.toNat))
  else some s

def fbDrawChar (x y : Int) (c : UInt8) (fg bg : BitVec 32) (s : Surface) : Option Surface :=
  match glyphIndex c with
  | none => some s
  | some gi => loop (fun row => loop (fun col => charPoint g x y gi row col fg bg) 8) 16 s

def fbDrawText (x y : Int) (fg bg : BitVec 32) : CStr → Surface → Option Surface
  | [], s => some s
  | c :: cs, s => do
    let s ← fbDrawChar g x y c fg bg s
    let next ← int (x + charW)
    fbDrawText next y fg bg cs s

end

/-! ## What they paint -/

def solid (color : BitVec 32) : Paint := fun _ _ => some color

/-- The points with `x ≤ i < x + w` and `y ≤ j < y + h`. -/
def rectPaint (x y w h : Int) (color : BitVec 32) : Paint := fun i j =>
  if x ≤ i ∧ i < x + w ∧ y ≤ j ∧ j < y + h then some color else none

def charPaint (x y : Int) (c : UInt8) (fg bg : BitVec 32) : Paint := fun i j =>
  (glyphIndex c).bind fun gi =>
    if x ≤ i ∧ i < x + 8 ∧ y ≤ j ∧ j < y + 16 then
      some (if inked gi (j - y).toNat (i - x).toNat then fg else bg)
    else none

/-- One character beside the other. -/
def textPaint (x y : Int) (s : CStr) (fg bg : BitVec 32) : Paint := fun i j =>
  if x ≤ i then
    (s[((i - x) / 8).toNat]?).bind fun c => charPaint (x + 8 * ((i - x) / 8)) y c fg bg i j
  else none

section

variable {g : Raster} {x y w h : Int} {color fg bg : BitVec 32}

theorem fbClear_paints (color : BitVec 32) (s : Surface) :
    ∃ t, fbClear g color s = some t ∧ g.Painted s (solid color) t := by
  have hrow : ∀ y < g.height, ∀ s, ∃ t,
      loop (fun x s => some (s.store (g.offset x y) (littleEndian 4 color.toNat))) g.width s = some t ∧
        g.Painted s (fun _ j => if j = y then some color else none) t := by
    intro y hy s
    obtain ⟨t, ht, hpaint⟩ := Raster.Painted.loop (g := g) (fun x => Paint.dot x y color)
      (fun n i j => if i < n ∧ j = y then some color else none)
      (fun x hx s => ⟨_, rfl, Raster.Painted.store hx hy color s⟩) (fun i j _ _ => if_neg (by omega))
      (fun k i j _ _ => by simp only [Paint.dot]; grind) s
    exact ⟨t, ht, hpaint.congr fun i j hi _ => by simp [hi]⟩
  obtain ⟨t, ht, hpaint⟩ := Raster.Painted.loop (g := g) (fun y _ j => if j = y then some color else none)
    (fun n _ j => if j < n then some color else none) hrow (fun i j _ _ => if_neg (by omega))
      (fun k i j _ _ => by grind) s
  exact ⟨t, ht, hpaint.congr fun i j _ hj => by simp [solid, hj]⟩

/-- No sum and no product of a rectangle overflows that the loops compute: the right edge only counts where
there is a row, and the offset in a row only for the columns that there are. -/
def RectFits (g : Raster) (x y w h : Int) : Prop :=
  -2 ^ 31 ≤ y + h ∧ y + h < 2 ^ 31 ∧ (max y 0 < min (y + h) g.height →
    -2 ^ 31 ≤ x + w ∧ x + w < 2 ^ 31 ∧ min (x + w) g.width ≤ max x (2 ^ 29))

theorem rectColumn_paints {i : Int} {j : Nat} (hj : j < g.height) (hi : i < g.width → i < 2 ^ 29) (s : Surface) :
    ∃ t, rectColumn g color j i s = some t ∧ g.Painted s (Paint.dot i j color) t := by
  unfold rectColumn
  split
  · next hin =>
    obtain ⟨n, rfl⟩ : ∃ n : Nat, i = n := ⟨i.toNat, by omega⟩
    have hoffset : j * g.pitch + ((n : Int) * 4).toNat = g.offset n j := by
      rw [Raster.offset]
      omega
    rw [int_fits (by omega) (by omega), Option.bind_eq_bind, Option.bind_some, hoffset]
    exact ⟨_, rfl, Raster.Painted.store (by omega) hj color s⟩
  · next hout =>
    refine ⟨s, rfl, (Raster.Painted.refl g s).congr fun i' j' hi' _ => ?_⟩
    rw [Paint.dot, if_neg (by omega)]
    rfl

theorem rectRow_paints {j : Int} (hright : 0 ≤ j ∧ j < g.height →
      -2 ^ 31 ≤ x + w ∧ x + w < 2 ^ 31 ∧ min (x + w) g.width ≤ max x (2 ^ 29)) (s : Surface) :
    ∃ t, rectRow g x w color j s = some t ∧
      g.Painted s (fun i' j' => if x ≤ i' ∧ i' < x + w ∧ j' = j then some color else none) t := by
  unfold rectRow
  split
  · next hj =>
    obtain ⟨hlow, hhigh, hcolumns⟩ := hright (by omega)
    rw [int_fits hlow hhigh, Option.bind_eq_bind, Option.bind_some]
    obtain ⟨t, ht, hpaint⟩ := Raster.Painted.loop (g := g) (n := (x + w - x).toNat)
      (fun col => Paint.dot (x + (col : Int)) j.toNat color)
      (fun n i' j' => if x ≤ i' ∧ i' < x + n ∧ j' = j.toNat then some color else none)
      (fun col hcol s => rectColumn_paints (j := j.toNat) (i := x + col) (by omega) (by omega) s)
      (fun i' j' _ _ => if_neg (by omega))
      (fun k i' j' _ _ => by simp only [Paint.dot]; grind) s
    refine ⟨t, ht, hpaint.congr fun i' j' _ _ => ?_⟩
    have hpoint : (x ≤ (i' : Int) ∧ (i' : Int) < x + ((x + w - x).toNat : Int) ∧ (j' : Int) = j.toNat) ↔
        (x ≤ (i' : Int) ∧ (i' : Int) < x + w ∧ (j' : Int) = j) := by omega
    simp only [hpoint]
  · next hout =>
    refine ⟨s, rfl, (Raster.Painted.refl g s).congr fun i' j' _ hj' => ?_⟩
    rw [if_neg (by omega)]
    rfl

theorem fbDrawRect_paints (h' : RectFits g x y w h) (color : BitVec 32) (s : Surface) :
    ∃ t, fbDrawRect g x y w h color s = some t ∧ g.Painted s (rectPaint x y w h color) t := by
  obtain ⟨hlow, hhigh, hright⟩ := h'
  rw [fbDrawRect, int_fits hlow hhigh, Option.bind_eq_bind, Option.bind_some]
  obtain ⟨t, ht, hpaint⟩ := Raster.Painted.loop (g := g) (n := (y + h - y).toNat)
    (fun row i' j' => if x ≤ i' ∧ i' < x + w ∧ j' = y + (row : Int) then some color else none)
    (fun n i' j' => if x ≤ i' ∧ i' < x + w ∧ y ≤ j' ∧ j' < y + n then some color else none)
    (fun row hrow s => rectRow_paints (j := y + row) (fun hj => hright (by omega)) s)
      (fun i' j' _ _ => if_neg (by omega))
    (fun k i' j' _ _ => by grind) s
  refine ⟨t, ht, hpaint.congr fun i' j' _ _ => ?_⟩
  have hpoint : (x ≤ (i' : Int) ∧ (i' : Int) < x + w ∧ y ≤ (j' : Int) ∧ (j' : Int) < y + ((y + h - y).toNat : Int)) ↔
      (x ≤ (i' : Int) ∧ (i' : Int) < x + w ∧ y ≤ (j' : Int) ∧ (j' : Int) < y + h) := by omega
  simp only [hpoint, rectPaint]

theorem fbDrawRect_overflows (h' : ¬RectFits g x y w h) (color : BitVec 32) (s : Surface) :
    fbDrawRect g x y w h color s = none := by
  rw [fbDrawRect]
  by_cases hbottom : -2 ^ 31 ≤ y + h ∧ y + h < 2 ^ 31
  · rw [int_fits hbottom.1 hbottom.2, Option.bind_eq_bind, Option.bind_some]
    obtain ⟨hrow, hbad⟩ : max y 0 < min (y + h) g.height ∧
        ¬(-2 ^ 31 ≤ x + w ∧ x + w < 2 ^ 31 ∧ min (x + w) g.width ≤ max x (2 ^ 29)) := by
      simpa only [RectFits, hbottom.1, hbottom.2, true_and, Classical.not_imp] using h'
    -- the first row that the screen has
    refine loop_fails (k := (max y 0 - y).toNat) (by omega) (fun s => ?_) s
    rw [rectRow, if_pos (by omega)]
    by_cases hright : -2 ^ 31 ≤ x + w ∧ x + w < 2 ^ 31
    · rw [int_fits hright.1 hright.2, Option.bind_eq_bind, Option.bind_some]
      refine loop_fails (k := (max x (2 ^ 29) - x).toNat) (by omega) (fun s => ?_) s
      rw [rectColumn, if_pos (by omega), int_overflows (by omega)]
      rfl
    · rw [int_overflows (by omega)]
      rfl
  · rw [int_overflows (by omega)]
    rfl

/-! ### Characters -/

theorem charPoint_paints (gi : Nat) {row col : Nat} (hrow : row < 16) (hcol : col < 8) (hx : x + 7 < 2 ^ 31)
    (hy : y + 15 < 2 ^ 31) (hx' : -2 ^ 31 ≤ x) (hy' : -2 ^ 31 ≤ y) (s : Surface) :
    ∃ t, charPoint g x y gi row col fg bg s = some t ∧
      g.Painted s (Paint.dot (x + col) (y + row) (if inked gi row col then fg else bg)) t := by
  unfold charPoint
  rw [int_fits (by omega) (by omega), int_fits (by omega) (by omega)]
  simp only [Option.bind_eq_bind, Option.bind_some]
  split
  · next hin =>
    obtain ⟨i, hi⟩ : ∃ i : Nat, x + (col : Int) = i := ⟨(x + (col : Int)).toNat, by omega⟩
    obtain ⟨j, hj⟩ : ∃ j : Nat, y + (row : Int) = j := ⟨(y + (row : Int)).toNat, by omega⟩
    rw [hi, hj] at hin ⊢
    exact ⟨_, rfl, Raster.Painted.store (by omega) (by omega) _ s⟩
  · next hout =>
    refine ⟨s, rfl, (Raster.Painted.refl g s).congr fun i' j' hi' hj' => ?_⟩
    rw [Paint.dot, if_neg (by omega)]
    rfl

theorem fbDrawChar_paints (c : UInt8) (fg bg : BitVec 32) (hx : x + 7 < 2 ^ 31) (hy : y + 15 < 2 ^ 31)
    (hx' : -2 ^ 31 ≤ x)
    (hy' : -2 ^ 31 ≤ y) (s : Surface) : ∃ t, fbDrawChar g x y c fg bg s = some t ∧
    g.Painted s (charPaint x y c fg bg) t := by
  unfold fbDrawChar charPaint
  cases glyphIndex c with
  | none => exact ⟨s, rfl, Raster.Painted.refl g s⟩
  | some gi =>
    have hrow : ∀ row < 16, ∀ s, ∃ t, loop (fun col => charPoint g x y gi row col fg bg) 8 s = some t ∧
        g.Painted s (fun i j => if x ≤ i ∧ i < x + 8 ∧ j = y + row then
          some (if inked gi row (i - x).toNat then fg else bg) else none) t := by
      intro row hrow s
      refine Raster.Painted.loop (g := g)
        (fun col => Paint.dot (x + col) (y + row) (if inked gi row col then fg else bg))
        (fun n i j => if x ≤ i ∧ i < x + n ∧
        j = y + row then some (if inked gi row (i - x).toNat then fg else bg) else none)
        (fun col hcol s => charPoint_paints gi hrow hcol hx hy hx' hy' s) (fun i j _ _ => if_neg (by omega)) ?_ s
      intro k i j _ _
      simp only [Paint.dot]
      by_cases hlast : (i : Int) = x + k
      · have hcol : ((i : Int) - x).toNat = k := by omega
        grind
      · grind
    obtain ⟨t, ht, hpaint⟩ := Raster.Painted.loop (g := g)
      (fun row i j => if x ≤ i ∧ i < x + 8 ∧
      j = y + row then some (if inked gi row (i - x).toNat then fg else bg) else none)
      (fun n i j => if x ≤ i ∧ i < x + 8 ∧ y ≤ j ∧ j < y + n then
        some (if inked gi (j - y).toNat (i - x).toNat then fg else bg) else none) hrow
          (fun i j _ _ => if_neg (by omega))
      (fun k i j _ _ => by
        by_cases hlast : (j : Int) = y + k
        · have hrow : ((j : Int) - y).toNat = k := by omega
          grind
        · grind) s
    exact ⟨t, ht, hpaint⟩

theorem glyphIndex_some {c : UInt8} (hc : c ≠ 0) : ∃ gi, glyphIndex c = some gi := by
  rw [glyphIndex, if_neg hc]
  split
  · exact ⟨_, rfl⟩
  · exact ⟨_, rfl⟩

theorem fbDrawChar_overflows {c : UInt8} (hc : c ≠ 0) (h : 2 ^ 31 ≤ x + 7 ∨ 2 ^ 31 ≤ y + 15) (s : Surface) :
    fbDrawChar g x y c fg bg s = none := by
  obtain ⟨gi, hgi⟩ := glyphIndex_some hc
  unfold fbDrawChar
  rw [hgi]
  refine loop_fails (n := 16) (k := 15) (by decide)
    (fun s => loop_fails (n := 8) (k := 7) (by decide) (fun s => ?_) s) s
  unfold charPoint
  rcases h with h | h
  · rw [int_overflows (.inr (by omega))]
    rfl
  · rw [int_overflows (n := y + _) (.inr (by omega))]
    cases int (x + _) <;> rfl

/-! ### Text -/

/-- No sum overflows that the loop over a text computes. The place behind the last character is computed too. -/
def TextFits (x y : Int) (s : CStr) : Prop := s = [] ∨ y + 15 < 2 ^ 31 ∧ x + 8 * s.length < 2 ^ 31

theorem charPaint_beside {c : UInt8} {i j : Int} (h : i < x ∨ x + 8 ≤ i) : charPaint x y c fg bg i j = none := by
  rw [charPaint]
  cases glyphIndex c with
  | none => rfl
  | some gi =>
    rw [Option.bind_some, if_neg]
    omega

theorem textPaint_cons (c : UInt8) (cs : CStr) (i j : Int) : textPaint x y (c :: cs) fg bg i j =
    (textPaint (x + 8) y cs fg bg i j).or (charPaint x y c fg bg i j) := by
  simp only [textPaint]
  rcases Int.lt_or_le i x with hleft | hleft
  · rw [if_neg (by omega), if_neg (by omega), charPaint_beside (.inl hleft)]
    rfl
  rcases Int.lt_or_le i (x + 8) with hright | hright
  · have hfirst : (i - x) / 8 = 0 := by omega
    rw [if_pos hleft, if_neg (by omega)]
    simp [hfirst]
  · have hnext : (i - x) / 8 = (i - (x + 8)) / 8 + 1 := by omega
    have hindex : ((i - (x + 8)) / 8 + 1).toNat = ((i - (x + 8)) / 8).toNat + 1 := by omega
    have hplace : x + 8 * ((i - (x + 8)) / 8 + 1) = x + 8 + 8 * ((i - (x + 8)) / 8) := by omega
    rw [if_pos hleft, if_pos (by omega), charPaint_beside (.inr hright), Option.or_none]
    simp only [hnext, hindex, hplace, List.getElem?_cons_succ]

theorem fbDrawText_paints {text : CStr} (h : TextFits x y text) (hx : -2 ^ 31 ≤ x) (hy : -2 ^ 31 ≤ y) (s : Surface) :
    ∃ t, fbDrawText g x y fg bg text s = some t ∧ g.Painted s (textPaint x y text fg bg) t := by
  induction text generalizing x s with
  | nil => exact ⟨s, rfl, (Raster.Painted.refl g s).congr fun i j _ _ => by simp [textPaint, Paint.blank]⟩
  | cons c cs ih =>
    obtain ⟨hrows, hcolumns⟩ := h.resolve_left (List.cons_ne_nil c cs)
    rw [List.length_cons] at hcolumns
    obtain ⟨t, ht, hchar⟩ := fbDrawChar_paints (g := g) (x := x) c fg bg (by omega) hrows hx hy s
    obtain ⟨u, hu, hrest⟩ := ih (x := x + 8) (.inr ⟨hrows, by omega⟩) (by omega) t
    refine ⟨u, ?_, (hchar.trans hrest).congr fun i j _ _ => (textPaint_cons c cs i j).symm⟩
    rw [fbDrawText, ht, charW, Option.bind_eq_bind, Option.bind_some, int_fits (by omega) (by omega)]
    exact hu

theorem fbDrawText_overflows {text : CStr} (h : ¬TextFits x y text) (hchars : ∀ c ∈ text, c ≠ 0) (hx : -2 ^ 31 ≤ x)
    (hy : -2 ^ 31 ≤ y) (s : Surface) : fbDrawText g x y fg bg text s = none := by
  induction text generalizing x s with
  | nil => exact absurd (.inl rfl) h
  | cons c cs ih =>
    have hbad : 2 ^ 31 ≤ y + 15 ∨ 2 ^ 31 ≤ x + 8 * (cs.length + 1) := by
      by_contra hno
      refine h (.inr ⟨by omega, ?_⟩)
      rw [List.length_cons]
      omega
    rw [fbDrawText, charW]
    by_cases hdrawn : x + 7 < 2 ^ 31 ∧ y + 15 < 2 ^ 31
    · obtain ⟨t, ht, -⟩ := fbDrawChar_paints (g := g) c fg bg hdrawn.1 hdrawn.2 hx hy s
      rw [ht, Option.bind_eq_bind, Option.bind_some]
      by_cases hnext : x + 8 < 2 ^ 31
      · rw [int_fits (by omega) (by omega), Option.bind_eq_bind, Option.bind_some]
        refine ih (fun hfits => ?_) (fun c' hc' => hchars c' (List.mem_cons_of_mem c hc')) (by omega) t
        rcases hfits with rfl | ⟨-, hroom⟩
        · rw [List.length_nil] at hbad
          omega
        · omega
      · rw [int_overflows (.inr (by omega))]
        rfl
    · rw [fbDrawChar_overflows (hchars c (List.mem_cons_self)) (by omega)]
      rfl

end

end Siathos.Fb
