import Siathos.Lib.Buffer
import Siathos.Lib.Span

/-!
# Pictures in memory

Rows of pixels of four bytes each, with room behind every row. What was drawn is told as a painting of the
plane, of which the memory shows the part that it has pixels for.
-/

namespace Lib

/-! ## Loops that can fail -/

section

variable {σ : Type} {body : Nat → σ → Option σ} {n : Nat}

/-- Runs the body for 0, 1 and so on, `n` times. -/
def loop (body : Nat → σ → Option σ) : Nat → σ → Option σ
  | 0, s => some s
  | n + 1, s => (loop body n s).bind (body n)

theorem loop_meets {I : Nat → σ → Prop} (hstep : ∀ k < n, ∀ s, I k s → ∃ t, body k s = some t ∧ I (k + 1) t) {s : σ}
    (h : I 0 s) : ∃ t, loop body n s = some t ∧ I n t := by
  induction n with
  | zero => exact ⟨s, rfl, h⟩
  | succ n ih =>
    obtain ⟨t, ht, hinv⟩ := ih fun k hk => hstep k (Nat.lt_succ_of_lt hk)
    obtain ⟨u, hu, hinv'⟩ := hstep n (Nat.lt_succ_self n) t hinv
    exact ⟨u, by rw [loop, ht, Option.bind_some, hu], hinv'⟩

theorem loop_fails {k : Nat} (hk : k < n) (hfail : ∀ s, body k s = none) (s : σ) : loop body n s = none := by
  induction n with
  | zero => exact absurd hk (Nat.not_lt_zero k)
  | succ n ih =>
    rw [loop]
    rcases Nat.lt_succ_iff_lt_or_eq.mp hk with hk' | rfl
    · rw [ih hk']
      rfl
    · apply Option.bind_eq_none_iff.mpr
      intro t _
      exact hfail t

end

/-! ## Memory with its stores -/

/-- Memory, and the ranges that were written. -/
structure Surface where
  mem : Buf
  stores : List Span

namespace Surface

def store (s : Surface) (i : Nat) (l : List UInt8) : Surface := ⟨s.mem.write i l, ⟨i, l.length⟩ :: s.stores⟩

/-- `memcpy` of `n` bytes. -/
def copy (s : Surface) (dst src n : Nat) : Surface :=
  ⟨fun i => if dst ≤ i ∧ i < dst + n then s.mem (src + (i - dst)) else s.mem i, ⟨dst, n⟩ :: s.stores⟩

/-- All stores went to the first `n` bytes. -/
def Within (s : Surface) (n : Nat) : Prop := ∀ w ∈ s.stores, w.base + w.len ≤ n

theorem Within.store {s : Surface} {n i : Nat} {l : List UInt8} (h : s.Within n) (hi : i + l.length ≤ n) :
    (s.store i l).Within n := by
  intro w hw
  rcases List.mem_cons.mp hw with rfl | hw
  · exact hi
  · exact h w hw

theorem Within.copy {s : Surface} {n dst len : Nat} (src : Nat) (h : s.Within n) (hdst : dst + len ≤ n) :
    (s.copy dst src len).Within n := by
  intro w hw
  rcases List.mem_cons.mp hw with rfl | hw
  · exact hdst
  · exact h w hw

end Surface

theorem Buf.write_at (b : Buf) (i : Nat) {l : List UInt8} {t : Nat} (ht : t < l.length) :
    b.write i l (i + t) = l.getD t 0 := by
  have hbytes := b.bytes_drop_write i l
  have hget := congrArg (·[t]?) hbytes
  simp only [Buf.bytes, List.getElem?_map, List.getElem?_range ht, Option.map_some] at hget
  rw [List.getD_eq_getElem?_getD, ← hget]
  rfl

/-! ## Rows of pixels -/

structure Raster where
  width : Nat
  height : Nat
  pitch : Nat
  fits : 4 * width ≤ pitch

/-- Colours of points of the plane. -/
abbrev Paint := Int → Int → Option (BitVec 32)

namespace Paint

def blank : Paint := fun _ _ => none

/-- The first paint, over the second. -/
def atop (p q : Paint) : Paint := fun x y => (p x y).or (q x y)

def dot (x y : Int) (c : BitVec 32) : Paint := fun i j => if i = x ∧ j = y then some c else none

end Paint

namespace Raster

variable (g : Raster)

def size : Nat := g.height * g.pitch

def offset (x y : Nat) : Nat := y * g.pitch + 4 * x

def pixel (b : Buf) (x y : Nat) : BitVec 32 := BitVec.ofNat 32 (b.numberAt (g.offset x y) 4)

/-- The memory after the paint came on it, as far as there are pixels. -/
def paint (p : Paint) (b : Buf) : Buf := fun i =>
  if i % g.pitch < 4 * g.width ∧ i < g.size then
    (p (i % g.pitch / 4 : Nat) (i / g.pitch : Nat)).elim (b i) fun c => (littleEndian 4 c.toNat).getD
    (i % g.pitch % 4) 0
  else b i

variable {g} {x y : Nat}

theorem offset_add (hx : x < g.width) {t : Nat} (ht : t < 4) :
    (g.offset x y + t) % g.pitch = 4 * x + t ∧ (g.offset x y + t) / g.pitch = y := by
  have hfits := g.fits
  have hlow : 4 * x + t < g.pitch := by omega
  have hpos : 0 < g.pitch := by omega
  rw [offset, Nat.add_assoc, Nat.mul_comm y]
  refine ⟨?_, ?_⟩
  · rw [Nat.mul_add_mod, Nat.mod_eq_of_lt hlow]
  · rw [Nat.mul_add_div hpos, Nat.div_eq_of_lt hlow, Nat.add_zero]

theorem offset_fits (hx : x < g.width) (hy : y < g.height) : g.offset x y + 4 ≤ g.size := by
  have hfits := g.fits
  have hrow : (y + 1) * g.pitch ≤ g.size := Nat.mul_le_mul_right g.pitch hy
  rw [Nat.succ_mul] at hrow
  rw [offset]
  omega

theorem paint_at (p : Paint) (b : Buf) (hx : x < g.width) (hy : y < g.height) {t : Nat} (ht : t < 4) :
    g.paint p b (g.offset x y + t) =
      (p x y).elim (b (g.offset x y + t)) fun c => (littleEndian 4 c.toNat).getD t 0 := by
  obtain ⟨hmod, hdiv⟩ := offset_add (g := g) (y := y) hx ht
  have hsize := offset_fits hx hy
  rw [paint, hmod, hdiv, if_pos ⟨by omega, by omega⟩]
  have hcol : (4 * x + t) / 4 = x := by omega
  have hbyte : (4 * x + t) % 4 = t := by omega
  rw [hcol, hbyte]

@[simp] theorem paint_blank (b : Buf) : g.paint Paint.blank b = b := by
  funext i
  simp [paint, Paint.blank]

theorem paint_over (p q : Paint) (b : Buf) : g.paint (p.atop q) b = g.paint p (g.paint q b) := by
  funext i
  simp only [paint, Paint.atop]
  split
  · cases p (i % g.pitch / 4 : Nat) (i / g.pitch : Nat) <;> simp
  · rfl

theorem paint_congr {p q : Paint} (h : ∀ x y : Nat, x < g.width → y < g.height → p x y = q x y) (b : Buf) :
    g.paint p b = g.paint q b := by
  funext i
  simp only [paint]
  split
  · next hi =>
    have hrow : i / g.pitch < g.height := by
      refine Nat.div_lt_of_lt_mul ?_
      rw [Nat.mul_comm]
      exact hi.2
    rw [h (i % g.pitch / 4) (i / g.pitch) (by omega) hrow]
  · rfl

theorem write_pixel (hx : x < g.width) (hy : y < g.height) (c : BitVec 32) (b : Buf) :
    b.write (g.offset x y) (littleEndian 4 c.toNat) = g.paint (Paint.dot x y c) b := by
  funext i
  by_cases hin : g.offset x y ≤ i ∧ i < g.offset x y + 4
  · obtain ⟨t, rfl⟩ : ∃ t, i = g.offset x y + t := ⟨i - g.offset x y, by omega⟩
    have ht : t < 4 := by omega
    rw [paint_at _ b hx hy ht, b.write_at _ (by simpa using ht), Paint.dot, if_pos ⟨rfl, rfl⟩]
    rfl
  · have hkept : b.write (g.offset x y) (littleEndian 4 c.toNat) i = b i := by
      rcases Nat.lt_or_ge i (g.offset x y) with h | h
      · exact Buf.write_before h _ b
      · refine Buf.write_after ?_ b
        rw [length_littleEndian]
        omega
    rw [hkept, paint]
    split
    · have hpoint : ¬(((i % g.pitch / 4 : Nat) : Int) = x ∧ ((i / g.pitch : Nat) : Int) = y) := by
        rintro ⟨hcol, hrow⟩
        have hdiv := Nat.div_add_mod i g.pitch
        rw [Int.ofNat_inj] at hcol hrow
        rw [offset] at hin
        rw [hrow, Nat.mul_comm] at hdiv
        omega
      rw [Paint.dot, if_neg hpoint]
      rfl
    · rfl

theorem pixel_congr {b b' : Buf} {x' y' : Nat} (h : ∀ t < 4, b (g.offset x y + t) = b' (g.offset x' y' + t)) :
    g.pixel b x y = g.pixel b' x' y' := by
  have hbytes : (b.drop (g.offset x y)).bytes 4 = (b'.drop (g.offset x' y')).bytes 4 := Buf.bytes_congr h
  rw [pixel, pixel, Buf.numberAt, Buf.numberAt, hbytes]

theorem pixel_eq {b : Buf} {c : BitVec 32} (h : ∀ t < 4, b (g.offset x y + t) = (littleEndian 4 c.toNat).getD t 0) :
    g.pixel b x y = c := by
  have hwritten : g.pixel (b.write (g.offset x y) (littleEndian 4 c.toNat)) x y = c := by
    rw [pixel, Buf.numberAt_write c.isLt, BitVec.ofNat_toNat, BitVec.setWidth_eq]
  rw [← hwritten]
  refine pixel_congr fun t ht => ?_
  rw [h t ht, b.write_at _ (by simpa using ht)]

theorem pixel_low (b : Buf) (x y : Nat) : (g.pixel b x y).toNat % 256 = (b (g.offset x y)).toNat := by
  have hbyte : (b.drop (g.offset x y) 0).toNat < 256 := UInt8.toNat_lt _
  have hnumber : b.numberAt (g.offset x y) 4 % 256 = (b (g.offset x y)).toNat := by
    rw [Buf.numberAt, Buf.bytes_cons, List.foldr_cons, Nat.add_mul_mod_self_left, Nat.mod_eq_of_lt hbyte]
    rfl
  rw [pixel, BitVec.toNat_ofNat, ← hnumber]
  omega

theorem pixel_paint (p : Paint) (b : Buf) (hx : x < g.width) (hy : y < g.height) :
    g.pixel (g.paint p b) x y = (p x y).getD (g.pixel b x y) := by
  cases hp : p x y with
  | none =>
    refine pixel_congr fun t ht => ?_
    rw [paint_at p b hx hy ht, hp]
    rfl
  | some c =>
    refine pixel_eq fun t ht => ?_
    rw [paint_at p b hx hy ht, hp]
    rfl

/-! ## What was drawn -/

/-- The paint came on the surface, and no store went elsewhere than to the rows. -/
structure Painted (g : Raster) (s : Surface) (p : Paint) (t : Surface) : Prop where
  mem : t.mem = g.paint p s.mem
  within : s.Within g.size → t.Within g.size

namespace Painted

theorem refl (g : Raster) (s : Surface) : Painted g s Paint.blank s := ⟨(paint_blank s.mem).symm, id⟩

theorem trans {s t u : Surface} {p q : Paint} (h : Painted g s q t) (h' : Painted g t p u) : Painted g s (p.atop q) u :=
  ⟨by rw [paint_over, ← h.mem, h'.mem], fun hw => h'.within (h.within hw)⟩

theorem congr {s t : Surface} {p q : Paint} (h : Painted g s p t)
    (hpq : ∀ x y : Nat, x < g.width → y < g.height → p x y = q x y) : Painted g s q t :=
  ⟨h.mem.trans (paint_congr hpq s.mem), h.within⟩

theorem store (hx : x < g.width) (hy : y < g.height) (c : BitVec 32) (s : Surface) :
    Painted g s (Paint.dot x y c) (s.store (g.offset x y) (littleEndian 4 c.toNat)) :=
  ⟨write_pixel hx hy c s.mem, fun hw => hw.store (by simpa using offset_fits hx hy)⟩

theorem loop {body : Nat → Surface → Option Surface} {n : Nat} (p q : Nat → Paint)
    (hbody : ∀ k < n, ∀ s, ∃ t, body k s = some t ∧ Painted g s (p k) t)
    (hzero : ∀ x y : Nat, x < g.width → y < g.height → q 0 x y = none)
    (hsucc : ∀ k, ∀ x y : Nat, x < g.width → y < g.height → q (k + 1) x y = (p k x y).or (q k x y)) (s : Surface) :
    ∃ t, Lib.loop body n s = some t ∧ Painted g s (q n) t := by
  refine loop_meets (I := fun k t => Painted g s (q k) t) ?_ ?_
  · intro k hk t ht
    obtain ⟨u, hu, hpaint⟩ := hbody k hk t
    exact ⟨u, hu, (ht.trans hpaint).congr fun x y hx hy => (hsucc k x y hx hy).symm⟩
  · exact (refl g s).congr fun x y hx hy => (hzero x y hx hy).symm

end Painted

end Raster

end Lib
