import Siathos.Lib.CStr

/-!
# The keyboard (`keyboard.c`, `hid.c`)

The decoder of scan codes and of USB reports, with what the controllers still hold. A key that
`keyboard_getc_nonblock` returns is gone.
-/

open Lib

namespace Siathos.Device

/-- The statics of `keyboard.c` and `usb_kbd_getc`, and what waits in the controllers: the bytes of
port 0x60, and the reports of the USB keyboard. -/
structure Keyboard where
  shift : Bool
  capslock : Bool
  ctrl : Bool
  dead : UInt8
  queued : UInt8
  usbKbdPresent : Bool
  prev : List UInt8
  ps2 : List UInt8
  reports : List (List UInt8)
  deriving DecidableEq, Repr

/-! ## Scan codes -/

def sc1 : List UInt8 :=
  [0, 0] ++ ascii "1234567890-=" ++ [0x08, 0] ++ ascii "qwertyuiop[]" ++ [0x0D, 0] ++
    ascii "asdfghjkl;'`" ++ [0] ++ ascii "\\zxcvbnm,./" ++ [0] ++ ascii "*" ++ [0] ++ ascii " " ++ [0]

def sc1Shift : List UInt8 :=
  [0, 0] ++ ascii "!@#$%^&*()_+" ++ [0x08, 0] ++ ascii "QWERTYUIOP\x7b\x7d" ++ [0x0D, 0] ++
    ascii "ASDFGHJKL:\"~" ++ [0] ++ ascii "|ZXCVBNM<>?" ++ [0] ++ ascii "*" ++ [0] ++ ascii " " ++ [0]

/-- `is_dead`: the accents. -/
def isDead (c : UInt8) : Bool := (ascii "'\"`~^").contains c

def isLower (c : UInt8) : Bool := 0x61 ≤ c && c ≤ 0x7A

def isUpper (c : UInt8) : Bool := 0x41 ≤ c && c ≤ 0x5A

/-- The other case of a letter. -/
def toggle (c : UInt8) : UInt8 := if isLower c then c - 0x61 + 0x41 else c - 0x41 + 0x61

/-- `kbd_poll`. -/
def kbdPoll (kb : Keyboard) : Option (UInt8 × Keyboard) :=
  match kb.ps2 with
  | [] => none
  | scan :: rest => some (scan, { kb with ps2 := rest })

/-- The character of a key that goes down. -/
def decode (kb : Keyboard) (scan : UInt8) : UInt8 :=
  if scan = 0x56 ∨ scan = 0x73 then if kb.shift then 0x3F else 0x2F
  else
    let c := (if kb.shift then sc1Shift else sc1).getD scan.toNat 0
    if kb.capslock && (isLower c || isUpper c) then toggle c else c

/-- `ps2_process`: 0 where the scan code gives no character. -/
def ps2Process (kb : Keyboard) (scan : UInt8) : Keyboard × UInt8 :=
  if scan = 0xE0 then
    match kbdPoll kb with
    | none => (kb, 0)
    | some (_, kb) => (kb, 0)
  else if scan &&& 0x80 ≠ 0 then
    let up := scan &&& 0x7F
    ({ kb with
      shift := if up = 0x2A ∨ up = 0x36 then false else kb.shift
      ctrl := if up = 0x1D then false else kb.ctrl }, 0)
  else if scan = 0x2A ∨ scan = 0x36 then ({ kb with shift := true }, 0)
  else if scan = 0x1D then ({ kb with ctrl := true }, 0)
  else if scan = 0x3A then ({ kb with capslock := !kb.capslock }, 0)
  else
    let c := decode kb scan
    if c = 0 then (kb, 0)
    else if isDead c && kb.dead = 0 then ({ kb with dead := c }, 0)
    else if kb.dead ≠ 0 then
      if c = 0x20 then ({ kb with dead := 0 }, kb.dead) else ({ kb with dead := 0, queued := c }, kb.dead)
    else (kb, c)

/-! ## USB reports -/

def usbKeyToAscii : List UInt8 :=
  [0, 0, 0] ++ ascii "1234567890-=" ++ [0x08] ++ ascii "qwertyuiop[]\n" ++ [0] ++
    ascii "asdfghjkl;'`" ++ [0] ++ ascii "\\zxcvbnm,./" ++ [0] ++ ascii "* <>?"

/-- The character that shift makes of another one. -/
def usbShift (base : UInt8) : UInt8 :=
  match (ascii "1234567890-=[]\\;'`,./").idxOf? base with
  | some i => (ascii "!@#$%^&*()_+\x7b\x7d|:\"~<>?").getD i 0
  | none => if isLower base || isUpper base then toggle base else base

/-- `usb_keycode_to_ascii`. -/
def usbKeycodeToAscii (keycode : UInt8) (shift : Bool) : UInt8 :=
  if keycode = 0 ∨ keycode > 0x65 then 0
  else
    let base := usbKeyToAscii.getD keycode.toNat 0
    if base = 0 ∨ !shift then base else usbShift base

/-- The keys of a report, without its byte of modifiers. -/
def reportKeys (report : List UInt8) : List UInt8 := (report.drop 1).take 6

/-- `usb_kbd_getc`. Nothing where there is no report. The comparison with the last report leaves out
its first key. -/
def usbKbdGetc (kb : Keyboard) : Option (Keyboard × UInt8) :=
  match kb.reports with
  | [] => none
  | report :: rest =>
    let shift := report.headD 0 &&& 2 ≠ 0
    let key := (reportKeys report).find? fun k => k ≠ 0 && !(kb.prev.drop 1).contains k
    some ({ kb with reports := rest, prev := reportKeys report },
      (key.map (usbKeycodeToAscii · shift)).getD 0)

/-! ## Reading -/

/-- The end of `keyboard_getc_nonblock`: a byte of port 0x60. -/
def readPs2 (kb : Keyboard) : Option UInt8 × Keyboard :=
  match kbdPoll kb with
  | none => (none, kb)
  | some (scan, kb) =>
    let r := ps2Process kb scan
    (if r.2 = 0 then none else some r.2, r.1)

/-- `keyboard_getc_nonblock`. -/
def keyboardGetcNonblock (kb : Keyboard) : Option UInt8 × Keyboard :=
  if kb.queued ≠ 0 then (some kb.queued, { kb with queued := 0 })
  else if kb.usbKbdPresent then
    match usbKbdGetc kb with
    | none => readPs2 kb
    | some (kb, c) =>
      if c ≠ 0 then (some c, { kb with dead := 0, queued := 0 }) else readPs2 kb
  else readPs2 kb

/-! ## A key that is read is gone -/

theorem ps2Process_ps2 (kb : Keyboard) (scan : UInt8) :
    (ps2Process kb scan).1.ps2.length ≤ kb.ps2.length := by
  unfold ps2Process
  split
  · unfold kbdPoll
    cases hps2 : kb.ps2 with
    | nil => simp [hps2]
    | cons b rest => simp
  dsimp only
  repeat' first | exact Nat.le_refl _ | split

theorem readPs2_some {kb : Keyboard} {c : UInt8} (h : (readPs2 kb).1 = some c) :
    (readPs2 kb).2.ps2.length < kb.ps2.length := by
  unfold readPs2 at h ⊢
  unfold kbdPoll at h ⊢
  cases hps2 : kb.ps2 with
  | nil =>
    rw [hps2] at h
    simp at h
  | cons b rest =>
    have hless := ps2Process_ps2 { kb with ps2 := rest } b
    exact Nat.lt_succ_of_le hless

theorem keyboard_changes {kb : Keyboard} {c : UInt8} (h : (keyboardGetcNonblock kb).1 = some c) :
    (keyboardGetcNonblock kb).2 ≠ kb := by
  intro hsame
  unfold keyboardGetcNonblock at h hsame
  split at h
  · next hq =>
    rw [if_pos hq] at hsame
    exact hq (congrArg Keyboard.queued hsame).symm
  next hq =>
  rw [if_neg hq] at hsame
  split at h
  · next husb =>
    rw [if_pos husb] at hsame
    unfold usbKbdGetc at h hsame
    cases hreports : kb.reports with
    | nil =>
      rw [hreports] at h hsame
      have hless := readPs2_some h
      rw [hsame] at hless
      exact Nat.lt_irrefl _ hless
    | cons report rest =>
      rw [hreports] at h hsame
      dsimp only at h hsame
      split at h
      · next hc =>
        rw [if_pos hc] at hsame
        have hlen := congrArg (fun kb => kb.reports.length) hsame
        simp [hreports] at hlen
      · next hc =>
        rw [if_neg hc] at hsame
        have hless := readPs2_some h
        rw [hsame] at hless
        exact Nat.lt_irrefl _ hless
  · next husb =>
    rw [if_neg husb] at hsame
    have hless := readPs2_some h
    rw [hsame] at hless
    exact Nat.lt_irrefl _ hless

end Siathos.Device
