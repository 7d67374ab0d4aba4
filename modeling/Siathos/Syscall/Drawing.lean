import Siathos.Fb.Framebuffer
import Siathos.Syscall.Rules
import Siathos.Syscall.Validation

/-!
# Drawing for programs (`SYS_FB_DRAW`)

A program fills a `spud_fb_t` (`spud.h`), which is packed, and the kernel reads it as an `fb_cmd_t`
(`thais.h`), which is not.
-/

open Lib Siathos.Nomos Siathos.Proc Siathos.Fb

namespace Siathos.Syscall

/-- The fields of a command. -/
structure FbCmd where
  op : BitVec 32
  x : BitVec 32
  y : BitVec 32
  w : BitVec 32
  h : BitVec 32
  color : BitVec 32
  color2 : BitVec 32
  text : U64
  deriving DecidableEq, Repr

def fbClearOp : BitVec 32 := 0
def fbRectOp : BitVec 32 := 1
def fbPixelOp : BitVec 32 := 2
def fbTextOp : BitVec 32 := 3
def fbCharOp : BitVec 32 := 4

/-- `spud_fb_t` in the memory of a program. -/
def spudFb (c : FbCmd) : List UInt8 :=
  littleEndian 4 c.op.toNat ++ littleEndian 4 c.x.toNat ++ littleEndian 4 c.y.toNat ++ littleEndian 4 c.w.toNat ++
    littleEndian 4 c.h.toNat ++ littleEndian 4 c.color.toNat ++ littleEndian 4 c.color2.toNat ++
      littleEndian 8 c.text.toNat

def sizeofSpudFb : Nat := 36

/-- The number in `w` bytes from an offset on. -/
def fieldAt (bytes : List UInt8) (i w : Nat) : Nat := number ((bytes.drop i).take w)

/-- `fb_cmd_t`. Four bytes of padding stand before the pointer. -/
def fbCmd (bytes : List UInt8) : FbCmd where
  op := BitVec.ofNat 32 (fieldAt bytes 0 4)
  x := BitVec.ofNat 32 (fieldAt bytes 4 4)
  y := BitVec.ofNat 32 (fieldAt bytes 8 4)
  w := BitVec.ofNat 32 (fieldAt bytes 12 4)
  h := BitVec.ofNat 32 (fieldAt bytes 16 4)
  color := BitVec.ofNat 32 (fieldAt bytes 20 4)
  color2 := BitVec.ofNat 32 (fieldAt bytes 24 4)
  text := BitVec.ofNat 64 (fieldAt bytes 32 8)

def spudFbClear (color : BitVec 32) : FbCmd := ⟨fbClearOp, 0, 0, 0, 0, color, 0, 0⟩

def spudFbRect (x y w h color : BitVec 32) : FbCmd := ⟨fbRectOp, x, y, w, h, color, 0, 0⟩

def spudFbPixel (x y color : BitVec 32) : FbCmd := ⟨fbPixelOp, x, y, 0, 0, color, 0, 0⟩

def spudFbText (x y : BitVec 32) (s : U64) (fg bg : BitVec 32) : FbCmd := ⟨fbTextOp, x, y, 0, 0, fg, bg, s⟩

/-- `(char)w` -/
def FbCmd.char (c : FbCmd) : UInt8 := UInt8.ofNat c.w.toNat

/-- The operation of a command whose text is in the buffer. -/
def fbDraw (g : Raster) (cmd : FbCmd) (textbuf : CStr) (s : Surface) : Option (U64 × Surface) :=
  if cmd.op = fbClearOp then (fbClear g cmd.color s).map (0, ·)
  else if cmd.op = fbRectOp then
    (fbDrawRect g cmd.x.toInt cmd.y.toInt cmd.w.toInt cmd.h.toInt cmd.color s).map (0, ·)
  else if cmd.op = fbPixelOp then (fbDrawRect g cmd.x.toInt cmd.y.toInt 1 1 cmd.color s).map (0, ·)
  else if cmd.op = fbTextOp then
    (fbDrawText g cmd.x.toInt cmd.y.toInt cmd.color cmd.color2 textbuf s).map (0, ·)
  else if cmd.op = fbCharOp then
    (fbDrawChar g cmd.x.toInt cmd.y.toInt cmd.char cmd.color cmd.color2 s).map (0, ·)
  else some (err, s)

/-- `syscall_dispatch` for `SYS_FB_DRAW`: what the call returns, and the screen behind it. `textbuf` is the array on the
kernel's stack. -/
def fbDrawCall (g : Raster) (p : Process) (mem : U64 → UInt8) (textbuf : Buf) (a1 : U64) (s : Surface) :
    Option (U64 × Surface) :=
  if ¬May p capSyscall then some (err, s)
  else if ¬May p capFbDraw then some (err, s)
  else if a1 = 0 then some (err, s)
  else if !userPtrOk p a1 (BitVec.ofNat 64 sizeofFbCmd) then some (err, s)
  else
    let cmd := fbCmd (bytesAt mem a1 sizeofFbCmd)
    if cmd.op = fbCharOp then some (0, s)
    else if cmd.op = fbTextOp then
      let text := userStrInto p mem cmd.text (fbCmdTextMax + 1) textbuf
      if cmd.text = 0 then some (err, s)
      else if !text.2 then some (err, s)
      else fbDraw g cmd (text.1.cstr (fbCmdTextMax + 1)) s
    else fbDraw g cmd [] s

/-! ## What the kernel reads -/

theorem bytesAt_append (mem : U64 → UInt8) (a : U64) (m n : Nat) :
    bytesAt mem a (m + n) = bytesAt mem a m ++ bytesAt mem (a + BitVec.ofNat 64 m) n := by
  simp only [bytesAt, List.range_add, List.map_append, List.map_map, BitVec.add_assoc]
  congr 1
  refine List.map_congr_left fun i _ => ?_
  simp only [Function.comp_apply, BitVec.ofNat_add]

theorem ofNat_littleEndian (n : BitVec 32) : BitVec.ofNat 32 (number (littleEndian 4 n.toNat)) = n := by
  have hlt : n.toNat < 256 ^ 4 := n.isLt
  rw [number_littleEndian, Nat.mod_eq_of_lt hlt, BitVec.ofNat_toNat, BitVec.setWidth_eq]

theorem littleEndian_high (n : Nat) : (littleEndian 8 n).drop 4 = littleEndian 4 (n / 2 ^ 32) := by
  have hhalves : (littleEndian 8 n).drop 4 = littleEndian 4 (n / 256 / 256 / 256 / 256) := rfl
  have hhigh : n / 256 / 256 / 256 / 256 = n / 2 ^ 32 := by omega
  rw [hhalves, hhigh]

theorem fbCmd_spudFb (c : FbCmd) {tail : List UInt8} (htail : tail.length = 4) : fbCmd (spudFb c ++ tail) =
    { c with text := BitVec.ofNat 64 (c.text.toNat / 2 ^ 32 + 2 ^ 32 * number tail) } := by
  have hop : ((spudFb c ++ tail).drop 0).take 4 = littleEndian 4 c.op.toNat := rfl
  have hx : ((spudFb c ++ tail).drop 4).take 4 = littleEndian 4 c.x.toNat := rfl
  have hy : ((spudFb c ++ tail).drop 8).take 4 = littleEndian 4 c.y.toNat := rfl
  have hw : ((spudFb c ++ tail).drop 12).take 4 = littleEndian 4 c.w.toNat := rfl
  have hh : ((spudFb c ++ tail).drop 16).take 4 = littleEndian 4 c.h.toNat := rfl
  have hcolor : ((spudFb c ++ tail).drop 20).take 4 = littleEndian 4 c.color.toNat := rfl
  have hcolor2 : ((spudFb c ++ tail).drop 24).take 4 = littleEndian 4 c.color2.toNat := rfl
  have htext : ((spudFb c ++ tail).drop 32).take 8 = (littleEndian 8 c.text.toNat).drop 4 ++ tail.take 4 := rfl
  have hword := c.text.isLt
  have hhigh : c.text.toNat / 2 ^ 32 % 256 ^ 4 = c.text.toNat / 2 ^ 32 := by omega
  rw [List.take_of_length_le (Nat.le_of_eq htail), littleEndian_high] at htext
  simp only [fbCmd, fieldAt, hop, hx, hy, hw, hh, hcolor, hcolor2, htext, ofNat_littleEndian]
  have hbase : 256 ^ 4 = 2 ^ 32 := by decide
  rw [number_append, number_littleEndian, hhigh, length_littleEndian, hbase]

theorem fbCmd_spudFb_iff (c : FbCmd) {tail : List UInt8} (htail : tail.length = 4) : fbCmd (spudFb c ++ tail) = c ↔
    c.text.toNat / 2 ^ 32 = c.text.toNat % 2 ^ 32 ∧ tail = littleEndian 4 (c.text.toNat / 2 ^ 32) := by
  have hword := c.text.isLt
  have hbytes := littleEndian_number tail
  have hbound := number_lt tail
  rw [htail] at hbytes hbound
  have hfields : fbCmd (spudFb c ++ tail) = c ↔ c.text.toNat / 2 ^ 32 + 2 ^ 32 * number tail = c.text.toNat := by
    rw [fbCmd_spudFb c htail]
    constructor
    · intro h
      have htext := congrArg (·.text.toNat) h
      simp only [BitVec.toNat_ofNat] at htext
      omega
    · intro h
      rw [h, BitVec.ofNat_toNat, BitVec.setWidth_eq]
  rw [hfields]
  constructor
  · intro h
    have hlast : number tail = c.text.toNat / 2 ^ 32 := by omega
    rw [hlast] at hbytes
    exact ⟨by omega, hbytes.symm⟩
  · rintro ⟨hsame, rfl⟩
    rw [number_littleEndian]
    omega

/-! ## The call in the dispatcher -/

theorem wordAt_number (mem : U64 → UInt8) (a : U64) {n : Nat} (hn : n ≤ 8) :
    (wordAt mem a n).toNat = number (bytesAt mem a n) := by
  have hlist : ∀ l : List UInt8, l.length ≤ 8 →
      (l.foldr (fun b (w : U64) => w <<< 8 ||| b.toBitVec.setWidth 64) 0).toNat = number l := by
    intro l
    induction l with
    | nil => exact fun _ => rfl
    | cons c cs ih =>
      intro hlength
      have hlt := number_lt cs
      have hpow : 256 ^ cs.length ≤ 256 ^ 7 := Nat.pow_le_pow_right (by decide) (Nat.le_of_succ_le_succ hlength)
      have hbyte : c.toNat < 2 ^ 8 := c.toNat_lt
      rw [List.foldr_cons, number_cons, BitVec.toNat_or, BitVec.toNat_shiftLeft, ih (Nat.le_of_succ_le hlength)]
      have hhigh : number cs <<< 8 % 2 ^ 64 = number cs <<< 8 := by
        rw [Nat.shiftLeft_eq]
        omega
      have hlow : (c.toBitVec.setWidth 64 : U64).toNat = c.toNat := by
        rw [BitVec.toNat_setWidth, UInt8.toNat_toBitVec]
        omega
      rw [hhigh, hlow, ← Nat.shiftLeft_add_eq_or_of_lt hbyte, Nat.shiftLeft_eq]
      omega
  exact hlist (bytesAt mem a n) (by simpa [bytesAt] using hn)

theorem wordAt_op (mem : U64 → UInt8) (a : U64) :
    wordAt mem a 4 = (fbCmd (bytesAt mem a sizeofFbCmd)).op.setWidth 64 := by
  have hfield : fieldAt (bytesAt mem a sizeofFbCmd) 0 4 = number (bytesAt mem a 4) := rfl
  have hop : (fbCmd (bytesAt mem a sizeofFbCmd)).op = BitVec.ofNat 32 (fieldAt (bytesAt mem a sizeofFbCmd) 0 4) := rfl
  have hlt := number_lt (bytesAt mem a 4)
  have hlength : (bytesAt mem a 4).length = 4 := by simp [bytesAt]
  rw [hlength] at hlt
  rw [hop, hfield, ← BitVec.toNat_inj, wordAt_number mem a (by decide), BitVec.toNat_setWidth, BitVec.toNat_ofNat]
  omega

theorem wordAt_text (mem : U64 → UInt8) (a : U64) :
    wordAt mem (a + 32) 8 = (fbCmd (bytesAt mem a sizeofFbCmd)).text := by
  have hbytes : bytesAt mem a sizeofFbCmd = bytesAt mem a 32 ++ bytesAt mem (a + 32) 8 := bytesAt_append mem a 32 8
  have hfield : fieldAt (bytesAt mem a sizeofFbCmd) 32 8 = number (bytesAt mem (a + 32) 8) := by
    rw [fieldAt, hbytes, List.drop_left' (by simp [bytesAt]), List.take_of_length_le (by simp [bytesAt])]
  have htext : (fbCmd (bytesAt mem a sizeofFbCmd)).text =
    BitVec.ofNat 64 (fieldAt (bytesAt mem a sizeofFbCmd) 32 8) := rfl
  rw [htext, hfield, ← wordAt_number mem (a + 32) (Nat.le_refl 8), BitVec.ofNat_toNat, BitVec.setWidth_eq]

theorem fbDraw_value {g : Raster} {c : FbCmd} {text : CStr} {s t : Surface} {v : U64} (hop : c.op ≠ fbCharOp)
    (h : fbDraw g c text s = some (v, t)) : v = if c.op ≤ fbTextOp then 0 else err := by
  have hmap : ∀ o : Option Surface, o.map ((0 : U64), ·) = some (v, t) → v = 0 := by
    intro o ho
    obtain ⟨u, -, hu⟩ := Option.map_eq_some_iff.mp ho
    exact (Prod.mk.inj hu).1.symm
  unfold fbDraw at h
  split at h
  · next hclear =>
    rw [hmap _ h, hclear]
    rfl
  split at h
  · next hrect =>
    rw [hmap _ h, hrect]
    rfl
  split at h
  · next hpixel =>
    rw [hmap _ h, hpixel]
    rfl
  split at h
  · next htext =>
    rw [hmap _ h, htext]
    rfl
  · next hclear hrect hpixel htext =>
    have hbig : ¬c.op ≤ fbTextOp := by
      unfold fbClearOp at hclear
      unfold fbRectOp at hrect
      unfold fbPixelOp at hpixel
      unfold fbTextOp at htext ⊢
      bv_omega
    rw [if_neg hbig]
    exact (Prod.mk.inj (Option.some.inj h)).1.symm

theorem userStrInto_found (env : Env) (k : Kernel) (cur : Nat) (src : U64) (n : Nat) (dst : Buf) :
    (userStrInto (k.proc cur) env.mem src n dst).2 = (strArg env k cur src n).isSome := by
  unfold userStrInto strArg
  by_cases hnull : src = 0
  · rw [if_pos hnull, if_pos hnull]
    rfl
  · rw [if_neg hnull, if_neg hnull, userStrLoop_found]

theorem setWidth_char (op : BitVec 32) : op.setWidth 64 = fbCmdChar ↔ op = fbCharOp := by
  unfold fbCmdChar fbCharOp
  bv_omega

theorem setWidth_text (op : BitVec 32) : op.setWidth 64 = fbCmdText ↔ op = fbTextOp := by
  unfold fbCmdText fbTextOp
  bv_omega

theorem setWidth_known (op : BitVec 32) : op.setWidth 64 ≤ fbCmdText ↔ op ≤ fbTextOp := by
  unfold fbCmdText fbTextOp
  bv_omega

theorem known_result {g : Raster} {c : FbCmd} {text : CStr} {s t : Surface} {v : U64} (hop : c.op ≠ fbCharOp)
    (h : fbDraw g c text s = some (v, t)) (k : Kernel) :
    Call.Outcome.result ((Call.demand (decide (c.op.setWidth 64 ≤ fbCmdText)) err >>= fun _ =>
      (pure 0 : SysM U64)) k) = v := by
  rw [fbDraw_value hop h]
  by_cases hknown : c.op ≤ fbTextOp
  · rw [Call.demand_bind_true (decide_eq_true ((setWidth_known c.op).mpr hknown)), if_pos hknown]
    rfl
  · rw [Call.demand_bind_false (decide_eq_false fun hle => hknown ((setWidth_known c.op).mp hle)), if_neg hknown]
    rfl

theorem discard_userStr_none {env : Env} {k : Kernel} {cur : Nat} {src : U64} {n : Nat}
    (h : strArg env k cur src n = none) :
    (discard (userStr env cur src n) k).val = .error err :=
  (userStr_bind_none h fun _ => (pure () : SysM Unit)).2

theorem discard_userStr_some {env : Env} {k : Kernel} {cur : Nat} {src : U64} {n : Nat} {text : CStr}
    (h : strArg env k cur src n = some text) :
    (discard (userStr env cur src n) k).val = .ok () ∧ (discard (userStr env cur src n) k).state = k := by
  have hgood := userStr_bind_some h fun _ => (pure () : SysM Unit)
  exact ⟨hgood.2.1, hgood.1⟩

theorem sysFbDraw_result {m : Machine} {env : Env} {cur : Nat} {a1 a2 a3 a4 : U64} {k : Kernel} {g : Raster}
    {textbuf : Buf} {s t : Surface} {v : U64} (h : fbDrawCall g (k.proc cur) env.mem textbuf a1 s = some (v, t)) :
    Call.Outcome.result (syscallDispatch m env cur 31 a1 a2 a3 a4 k) = v := by
  have herr : ∀ {w : U64}, some (w, s) = some (v, t) → w = v := fun hw => (Prod.mk.inj (Option.some.inj hw)).1
  change Call.Outcome.result ((syscallCap cur capSyscall >>= fun _ => sysFbDraw env cur a1) k) = v
  unfold fbDrawCall at h
  by_cases hcall : May (k.proc cur) capSyscall
  swap
  · rw [if_pos hcall] at h
    rw [syscallCap_bind_not hcall]
    exact herr h
  rw [if_neg (not_not_intro hcall)] at h
  rw [syscallCap_bind_may hcall]
  unfold sysFbDraw
  by_cases hmay : May (k.proc cur) capFbDraw
  swap
  · rw [if_pos hmay] at h
    rw [syscallCap_bind_not hmay]
    exact herr h
  rw [if_neg (not_not_intro hmay)] at h
  rw [syscallCap_bind_may hmay]
  by_cases hnull : a1 = 0
  · rw [if_pos hnull] at h
    rw [Call.demand_bind_false (decide_eq_false (not_not_intro hnull))]
    exact herr h
  rw [if_neg hnull] at h
  rw [Call.demand_bind_true (decide_eq_true hnull)]
  by_cases hptr : userPtrOk (k.proc cur) a1 (BitVec.ofNat 64 sizeofFbCmd) = true
  swap
  · rw [if_pos (by simpa using hptr)] at h
    rw [checkPtr_bind_bad hptr]
    exact herr h
  rw [if_neg (by simpa using hptr)] at h
  rw [checkPtr_bind_ok hptr, Call.touch_bind]
  have hop := wordAt_op env.mem a1
  have htext := wordAt_text env.mem a1
  dsimp only at h ⊢
  rw [hop, htext]
  generalize fbCmd (bytesAt env.mem a1 sizeofFbCmd) = c at *
  by_cases hcharOp : c.op = fbCharOp
  · rw [if_pos hcharOp] at h
    rw [Call.demand_bind_false (decide_eq_false (not_not_intro ((setWidth_char c.op).mpr hcharOp)))]
    exact herr h
  rw [if_neg hcharOp] at h
  have hnot : c.op.setWidth 64 ≠ fbCmdChar := fun heq => hcharOp ((setWidth_char c.op).mp heq)
  rw [Call.demand_bind_true (decide_eq_true hnot)]
  by_cases hop : c.op = fbTextOp
  swap
  · rw [if_neg hop] at h
    rw [Call.when_bind_false fun heq => hop ((setWidth_text c.op).mp heq)]
    exact known_result hcharOp h k
  rw [if_pos hop] at h
  rw [Call.when_bind_true ((setWidth_text c.op).mpr hop)]
  have hfound := userStrInto_found env k cur c.text (fbCmdTextMax + 1) textbuf
  cases hstr : strArg env k cur c.text (fbCmdTextMax + 1) with
  | none =>
    rw [hstr] at hfound
    have hmiss : (!(userStrInto (k.proc cur) env.mem c.text (fbCmdTextMax + 1) textbuf).2) = true := by simp [hfound]
    rw [if_pos hmiss, ite_self] at h
    rw [Call.bind_of_error (discard_userStr_none hstr)]
    exact herr h
  | some text =>
    have htext0 : c.text ≠ 0 := by
      intro hnull
      rw [strArg, if_pos hnull] at hstr
      cases hstr
    obtain ⟨hgood, hstate⟩ := discard_userStr_some hstr
    rw [hstr] at hfound
    rw [if_neg htext0, if_neg (by simp [hfound])] at h
    rw [Call.bind_of_ok hgood, hstate]
    exact known_result hcharOp h k

/-! ## What should be drawn -/

/-- The drawing of a command on the whole plane, as its documentation has it. -/
def reference (c : FbCmd) (text : CStr) : Paint :=
  if c.op = fbClearOp then solid c.color
  else if c.op = fbRectOp then rectPaint c.x.toInt c.y.toInt c.w.toInt c.h.toInt c.color
  else if c.op = fbPixelOp then Paint.dot c.x.toInt c.y.toInt c.color
  else if c.op = fbTextOp then textPaint c.x.toInt c.y.toInt text c.color c.color2
  else if c.op = fbCharOp then charPaint c.x.toInt c.y.toInt c.char c.color c.color2
  else Paint.blank

/-- The command is in the memory of a process that may draw, with a text that is a string there. Like every
array it ends before the last address. -/
structure Issued (p : Process) (mem : U64 → UInt8) (a : U64) (c : FbCmd) (text : CStr) : Prop where
  cap : May p capFbDraw
  bytes : bytesAt mem a sizeofSpudFb = spudFb c
  text : c.op = fbTextOp → c.text ≠ 0 ∧ text.length ≤ fbCmdTextMax ∧ StringAt p mem c.text text.length ∧
    bytesAt mem c.text text.length = text ∧ c.text.toNat + text.length + 1 < 2 ^ 64

/-- The call is let in, the kernel reads what the program wrote, and it draws what it should. -/
structure Delivered (g : Raster) (p : Process) (mem : U64 → UInt8) (textbuf : Buf) (a : U64) (c : FbCmd) (text : CStr)
    (s : Surface) : Prop where
  called : May p capSyscall
  accepted : userPtrOk p a (BitVec.ofNat 64 sizeofFbCmd) = true
  decoded : fbCmd (bytesAt mem a sizeofFbCmd) = c
  drawn : ∃ v t, fbDrawCall g p mem textbuf a s = some (v, t) ∧ t.mem = g.paint (reference c text) s.mem

/-- No sum overflows that drawing the command computes. -/
def Fits (g : Raster) (c : FbCmd) (text : CStr) : Prop :=
  (c.op = fbRectOp → RectFits g c.x.toInt c.y.toInt c.w.toInt c.h.toInt) ∧
  (c.op = fbPixelOp → RectFits g c.x.toInt c.y.toInt 1 1) ∧
  (c.op = fbTextOp → TextFits c.x.toInt c.y.toInt text)

section

variable {g : Raster} {p : Process} {mem : U64 → UInt8} {textbuf : Buf} {a : U64} {c : FbCmd} {text : CStr}
    {s : Surface}

theorem drawn_iff {o : Option Surface} {fits : Prop} {q : Paint} (hfits : fits → ∃ t, o = some t ∧ g.Painted s q t)
    (hfails : ¬fits → o = none) :
    (∃ v t, o.map ((0 : U64), ·) = some (v, t) ∧ t.mem = g.paint q s.mem) ↔ fits := by
  constructor
  · rintro ⟨v, t, ho, -⟩
    by_contra hno
    rw [hfails hno] at ho
    cases ho
  · intro h
    obtain ⟨t, rfl, hpaint⟩ := hfits h
    exact ⟨0, t, rfl, hpaint.mem⟩

theorem toInt_low (n : BitVec 32) : -2 ^ 31 ≤ n.toInt := by
  have h := BitVec.le_toInt n
  simpa using h

theorem rectPaint_one (x y : Int) (color : BitVec 32) : rectPaint x y 1 1 color = Paint.dot x y color := by
  funext i j
  have hpoint : (x ≤ i ∧ i < x + 1 ∧ y ≤ j ∧ j < y + 1) ↔ (i = x ∧ j = y) := by omega
  simp only [rectPaint, Paint.dot, hpoint]

theorem fbDraw_iff (hop : c.op ≠ fbCharOp) (hchars : c.op = fbTextOp → ∀ ch ∈ text, ch ≠ 0) :
    (∃ v t, fbDraw g c text s = some (v, t) ∧ t.mem = g.paint (reference c text) s.mem) ↔ Fits g c text := by
  unfold fbDraw reference
  by_cases hclear : c.op = fbClearOp
  · have hfits : Fits g c text := by simp [Fits, hclear, fbClearOp, fbRectOp, fbPixelOp, fbTextOp]
    rw [if_pos hclear, if_pos hclear]
    exact drawn_iff (fun _ => fbClear_paints c.color s) fun hno => absurd hfits hno
  by_cases hrect : c.op = fbRectOp
  · have hfits : Fits g c text ↔ RectFits g c.x.toInt c.y.toInt c.w.toInt c.h.toInt := by
      simp [Fits, hrect, fbRectOp, fbPixelOp, fbTextOp]
    rw [if_neg hclear, if_neg hclear, if_pos hrect, if_pos hrect, hfits]
    exact drawn_iff (fun h => fbDrawRect_paints h c.color s) fun h => fbDrawRect_overflows h c.color s
  by_cases hpixel : c.op = fbPixelOp
  · have hfits : Fits g c text ↔ RectFits g c.x.toInt c.y.toInt 1 1 := by
      simp [Fits, hpixel, fbRectOp, fbPixelOp, fbTextOp]
    rw [if_neg hclear, if_neg hclear, if_neg hrect, if_neg hrect, if_pos hpixel, if_pos hpixel, hfits, ← rectPaint_one]
    exact drawn_iff (fun h => fbDrawRect_paints h c.color s) fun h => fbDrawRect_overflows h c.color s
  rw [if_neg hclear, if_neg hclear, if_neg hrect, if_neg hrect, if_neg hpixel, if_neg hpixel]
  by_cases htext : c.op = fbTextOp
  · have hfits : Fits g c text ↔ TextFits c.x.toInt c.y.toInt text := by
      simp [Fits, htext, fbRectOp, fbPixelOp, fbTextOp]
    have hx := toInt_low c.x
    have hy := toInt_low c.y
    rw [if_pos htext, if_pos htext, hfits]
    exact drawn_iff (fun h => fbDrawText_paints h hx hy s) fun h => fbDrawText_overflows h (hchars htext) hx hy s
  · have hfits : Fits g c text := ⟨fun h => absurd h hrect, fun h => absurd h hpixel, fun h => absurd h htext⟩
    rw [if_neg htext, if_neg htext, if_neg hop, if_neg hop, Raster.paint_blank]
    exact iff_of_true ⟨err, s, rfl, rfl⟩ hfits

theorem textbuf_text (textbuf : Buf) (huser : p.isUser = true) (hissued : Issued p mem a c text)
    (hop : c.op = fbTextOp) : (userStrInto p mem c.text (fbCmdTextMax + 1) textbuf).2 = true ∧
      (userStrInto p mem c.text (fbCmdTextMax + 1) textbuf).1.cstr (fbCmdTextMax + 1) = text ∧ ∀ ch ∈ text, ch ≠ 0 := by
  obtain ⟨hnull, hlength, hstring, hbytes, hend⟩ := hissued.text hop
  have hroom : text.length < fbCmdTextMax + 1 := Nat.lt_succ_of_le hlength
  have hchars : ∀ ch ∈ text, ch ≠ 0 := by
    intro ch hch
    rw [← hbytes, bytesAt, List.mem_map] at hch
    obtain ⟨i, hi, rfl⟩ := hch
    exact hstring.first i (List.mem_range.mp hi)
  obtain ⟨hok, htext⟩ := userStrLoop_copies huser hnull hroom hstring hend 0 textbuf
  rw [userStrInto, if_neg hnull]
  rw [Buf.drop_zero, hbytes] at htext
  exact ⟨hok, Buf.cstr_ended htext hroom fun hmem => hchars 0 hmem rfl, hchars⟩

theorem fbDrawCall_decoded (huser : p.isUser = true) (hissued : Issued p mem a c text) (hcall : May p capSyscall)
    (hptr : userPtrOk p a (BitVec.ofNat 64 sizeofFbCmd) = true) (hread : fbCmd (bytesAt mem a sizeofFbCmd) = c) :
    fbDrawCall g p mem textbuf a s =
      if c.op = fbCharOp then some (0, s) else fbDraw g c (if c.op = fbTextOp then text else []) s := by
  have hnull : a ≠ 0 := by
    rintro rfl
    revert hptr
    simp [userPtrOk, sizeofFbCmd]
  unfold fbDrawCall
  rw [if_neg (not_not_intro hcall), if_neg (not_not_intro hissued.cap), if_neg hnull, if_neg (by simpa using hptr)]
  simp only [hread]
  by_cases hchar : c.op = fbCharOp
  · rw [if_pos hchar, if_pos hchar]
  rw [if_neg hchar, if_neg hchar]
  by_cases htext : c.op = fbTextOp
  · obtain ⟨hok, hcopy, -⟩ := textbuf_text textbuf huser hissued htext
    rw [if_pos htext, if_pos htext, if_neg (hissued.text htext).1, if_neg (by simpa using hok), hcopy]
  · rw [if_neg htext, if_neg htext]

/-- When a command is delivered. -/
structure Deliverable (g : Raster) (p : Process) (mem : U64 → UInt8) (a : U64) (c : FbCmd) (text : CStr) (s : Surface) :
    Prop where
  called : May p capSyscall
  accepted : userPtrOk p a (BitVec.ofNat 64 sizeofFbCmd) = true
  halves : c.text.toNat / 2 ^ 32 = c.text.toNat % 2 ^ 32
  behind : bytesAt mem (a + BitVec.ofNat 64 sizeofSpudFb) 4 = littleEndian 4 (c.text.toNat / 2 ^ 32)
  fits : Fits g c text
  unseen : c.op = fbCharOp → g.paint (charPaint c.x.toInt c.y.toInt c.char c.color c.color2) s.mem = s.mem

theorem decoded_iff (hissued : Issued p mem a c text) : fbCmd (bytesAt mem a sizeofFbCmd) = c ↔
    c.text.toNat / 2 ^ 32 = c.text.toNat % 2 ^ 32 ∧
      bytesAt mem (a + BitVec.ofNat 64 sizeofSpudFb) 4 = littleEndian 4 (c.text.toNat / 2 ^ 32) := by
  have hbytes : bytesAt mem a sizeofFbCmd = spudFb c ++ bytesAt mem (a + BitVec.ofNat 64 sizeofSpudFb) 4 := by
    rw [← hissued.bytes, ← bytesAt_append]
    rfl
  rw [hbytes]
  exact fbCmd_spudFb_iff c (by simp [bytesAt])

theorem drawn_decoded_iff (huser : p.isUser = true) (hissued : Issued p mem a c text) (hcall : May p capSyscall)
    (hptr : userPtrOk p a (BitVec.ofNat 64 sizeofFbCmd) = true) (hread : fbCmd (bytesAt mem a sizeofFbCmd) = c) :
    (∃ v t, fbDrawCall g p mem textbuf a s = some (v, t) ∧ t.mem = g.paint (reference c text) s.mem) ↔
      Fits g c text ∧
        (c.op = fbCharOp → g.paint (charPaint c.x.toInt c.y.toInt c.char c.color c.color2) s.mem = s.mem) := by
  rw [fbDrawCall_decoded huser hissued hcall hptr hread]
  by_cases hchar : c.op = fbCharOp
  · have hpaint : reference c text = charPaint c.x.toInt c.y.toInt c.char c.color c.color2 := by
      simp [reference, hchar, fbClearOp, fbRectOp, fbPixelOp, fbTextOp, fbCharOp]
    have hfits : Fits g c text := by simp [Fits, hchar, fbRectOp, fbPixelOp, fbTextOp, fbCharOp]
    rw [if_pos hchar, hpaint]
    constructor
    · rintro ⟨v, t, ho, hmem⟩
      obtain ⟨-, rfl⟩ := Prod.mk.inj (Option.some.inj ho)
      exact ⟨hfits, fun _ => hmem.symm⟩
    · rintro ⟨-, hunseen⟩
      exact ⟨0, s, rfl, (hunseen hchar).symm⟩
  rw [if_neg hchar, and_iff_left fun h => absurd h hchar]
  by_cases htext : c.op = fbTextOp
  · rw [if_pos htext]
    exact fbDraw_iff hchar fun _ => (textbuf_text textbuf huser hissued htext).2.2
  · have hpaint : reference c text = reference c [] := by simp [reference, htext]
    have hfits : Fits g c text ↔ Fits g c [] := by simp [Fits, htext]
    rw [if_neg htext, hpaint, hfits]
    exact fbDraw_iff hchar fun h => absurd h htext

theorem textless_delivered_iff (huser : p.isUser = true) (hissued : Issued p mem a c text)
    (hnull : c.text = 0) (hop : c.op ≠ fbCharOp) : Delivered g p mem textbuf a c text s ↔
      May p capSyscall ∧ userPtrOk p a (BitVec.ofNat 64 sizeofFbCmd) = true ∧
        bytesAt mem (a + BitVec.ofNat 64 sizeofSpudFb) 4 = [0, 0, 0, 0] ∧ Fits g c text := by
  have hread : fbCmd (bytesAt mem a sizeofFbCmd) = c ↔
      bytesAt mem (a + BitVec.ofNat 64 sizeofSpudFb) 4 = [0, 0, 0, 0] := by
    rw [decoded_iff hissued, hnull]
    exact and_iff_right rfl
  constructor
  · rintro ⟨hcall, hptr, hdecoded, hdrawn⟩
    exact ⟨hcall, hptr, hread.mp hdecoded, ((drawn_decoded_iff huser hissued hcall hptr hdecoded).mp hdrawn).1⟩
  · rintro ⟨hcall, hptr, hbehind, hfits⟩
    have hdecoded := hread.mpr hbehind
    exact ⟨hcall, hptr, hdecoded,
      (drawn_decoded_iff huser hissued hcall hptr hdecoded).mpr ⟨hfits, fun hchar => absurd hchar hop⟩⟩

theorem spudFbRect_delivered_iff {x y w h color : BitVec 32} (huser : p.isUser = true)
    (hissued : Issued p mem a (spudFbRect x y w h color) text) :
    Delivered g p mem textbuf a (spudFbRect x y w h color) text s ↔
      May p capSyscall ∧ userPtrOk p a (BitVec.ofNat 64 sizeofFbCmd) = true ∧
        bytesAt mem (a + BitVec.ofNat 64 sizeofSpudFb) 4 = [0, 0, 0, 0] ∧
        RectFits g x.toInt y.toInt w.toInt h.toInt := by
  rw [textless_delivered_iff huser hissued rfl (by simp [spudFbRect, fbRectOp, fbCharOp])]
  simp [Fits, spudFbRect, fbRectOp, fbPixelOp, fbTextOp]

theorem spudFbPixel_delivered_iff {x y color : BitVec 32} (huser : p.isUser = true)
    (hissued : Issued p mem a (spudFbPixel x y color) text) :
    Delivered g p mem textbuf a (spudFbPixel x y color) text s ↔
      May p capSyscall ∧ userPtrOk p a (BitVec.ofNat 64 sizeofFbCmd) = true ∧
        bytesAt mem (a + BitVec.ofNat 64 sizeofSpudFb) 4 = [0, 0, 0, 0] ∧ RectFits g x.toInt y.toInt 1 1 := by
  rw [textless_delivered_iff huser hissued rfl (by simp [spudFbPixel, fbPixelOp, fbCharOp])]
  simp [Fits, spudFbPixel, fbRectOp, fbPixelOp, fbTextOp]

/-- A command survives where it may be issued and read, its pointer stands where the kernel looks, and no sum
overflows. -/
theorem drawing_delivered_iff (huser : p.isUser = true) (hissued : Issued p mem a c text)
    (g : Raster) (textbuf : Buf) (s : Surface) :
    Delivered g p mem textbuf a c text s ↔ Deliverable g p mem a c text s := by
  constructor
  · rintro ⟨hcall, hptr, hread, hdrawn⟩
    obtain ⟨hhalves, hbehind⟩ := (decoded_iff hissued).mp hread
    obtain ⟨hfits, hunseen⟩ := (drawn_decoded_iff huser hissued hcall hptr hread).mp hdrawn
    exact ⟨hcall, hptr, hhalves, hbehind, hfits, hunseen⟩
  · rintro ⟨hcall, hptr, hhalves, hbehind, hfits, hunseen⟩
    have hread := (decoded_iff hissued).mpr ⟨hhalves, hbehind⟩
    exact ⟨hcall, hptr, hread, (drawn_decoded_iff huser hissued hcall hptr hread).mpr ⟨hfits, hunseen⟩⟩

/-! ## Two commands -/

/-- A process that may call and draw, with 256 bytes of memory. -/
def drawer : Process := { emptySlot with isUser := true, rights := capSyscall ||| capFbDraw, umap := [⟨0x1000, 0x100⟩] }

/-- A command at the start of the memory, and behind it zeros and an `A` in the middle. -/
def drawerMem (c : FbCmd) : U64 → UInt8 :=
  fun a => (spudFb c ++ List.replicate 92 0 ++ [0x41]).getD (a - 0x1000).toNat 0

def redScreen : FbCmd := spudFbClear 0xff0000

theorem redScreen_issued : Issued drawer (drawerMem redScreen) 0x1000 redScreen [] :=
  ⟨by decide, by decide +kernel, fun htext => absurd htext (by decide)⟩

theorem drawing_delivered_red :
    Delivered ⟨8, 16, 32, by decide⟩ drawer (drawerMem redScreen) (fun _ => 7) 0x1000 redScreen []
      ⟨fun _ => 0, []⟩ := by
  refine (drawing_delivered_iff rfl redScreen_issued _ _ _).mpr
    ⟨by decide, by decide, rfl, by decide +kernel, ?_, ?_⟩
  · exact ⟨fun h => absurd h (by decide), fun h => absurd h (by decide), fun h => absurd h (by decide)⟩
  · exact fun h => absurd h (by decide)

/-- The `A` in white at the top left. -/
def whiteA : FbCmd := spudFbText 0 0 0x1080 0xffffff 0

/-- The kernel looks for the text at address 0. -/
theorem text_not_delivered : Issued drawer (drawerMem whiteA) 0x1000 whiteA [0x41] ∧
    ∀ g textbuf s, ¬Delivered g drawer (drawerMem whiteA) textbuf 0x1000 whiteA [0x41] s := by
  refine ⟨⟨by decide, by decide +kernel, fun _ => ⟨by decide, by decide, ⟨?_, by decide +kernel, ?_⟩, by decide +kernel,
    by decide⟩⟩, ?_⟩
  · intro i hi
    refine ⟨⟨0x1000, 0x100⟩, by simp [drawer], ?_⟩
    simp [Region.Holds, whiteA, spudFbText]
    simp at hi
    omega
  · intro i hi
    obtain rfl := Nat.lt_one_iff.mp hi
    decide +kernel
  · intro g textbuf s hdelivered
    exact absurd hdelivered.decoded (by decide +kernel)

end

end Siathos.Syscall
