import Siathos.Device.Keyboard

/-!
# Two decoders of one keyboard (`keyboard.c`, `odigos_pliktrologiou.c`)

The kernel reads port 0x60 itself, or asks the driver in ring 3, which has a decoder of its own.
-/

namespace Siathos.Device

/-! ## The port -/

/-- Port 0x60: the bytes that are still to be read, and for each look at port 0x64 whether the next
of them has come by then. Past the end of the list all have. -/
structure Port where
  bytes : List UInt8
  come : List Bool
  deriving DecidableEq, Repr

def Port.poll (p : Port) : Option UInt8 × Port :=
  match p.come, p.bytes with
  | false :: come, bytes => (none, ⟨bytes, come⟩)
  | come, [] => (none, ⟨[], come.tail⟩)
  | come, b :: bytes => (some b, ⟨bytes, come.tail⟩)

/-- Throws the next byte away, unless it takes more than `n` looks to come. -/
def Port.skip : Nat → Port → Port
  | 0, p => p
  | n + 1, p =>
    match p.poll with
    | (some _, p) => p
    | (none, p) => p.skip n

/-! ## What both have -/

structure Decoder where
  shift : Bool
  capslock : Bool
  ctrl : Bool
  dead : UInt8
  deriving DecidableEq, Repr

structure Reader extends Decoder where
  queued : UInt8
  port : Port
  deriving DecidableEq, Repr

def Decoder.start : Decoder := ⟨false, false, false, 0⟩

/-- Before the first byte. -/
def Reader.boot (bytes : List UInt8) (come : List Bool) : Reader := ⟨.start, 0, ⟨bytes, come⟩⟩

/-- The codes of no character: a key that goes up, shift, control and caps lock. -/
def modifier (d : Decoder) (scan : UInt8) : Option Decoder :=
  if scan &&& 0x80 ≠ 0 then
    let up := scan &&& 0x7F
    some { d with
      shift := if up = 0x2A ∨ up = 0x36 then false else d.shift
      ctrl := if up = 0x1D then false else d.ctrl }
  else if scan = 0x2A ∨ scan = 0x36 then some { d with shift := true }
  else if scan = 0x1D then some { d with ctrl := true }
  else if scan = 0x3A then some { d with capslock := !d.capslock }
  else none

/-- The character of any other code, 0 where it has none. -/
def keyChar (d : Decoder) (scan : UInt8) : UInt8 :=
  if scan = 0x56 ∨ scan = 0x73 then if d.shift then 0x3F else 0x2F
  else
    let c := (if d.shift then sc1Shift else sc1).getD scan.toNat 0
    if d.capslock && (isLower c || isUpper c) then toggle c else c

/-! ## The kernel -/

namespace Fallback

/-- The end of `ps2_process`: a key with a character. -/
def press (r : Reader) (c : UInt8) : Option UInt8 × Reader :=
  if isDead c && r.dead = 0 then (none, { r with dead := c })
  else if r.dead ≠ 0 then
    if c = 0x20 then (some r.dead, { r with dead := 0 })
    else (some r.dead, { r with dead := 0, queued := c })
  else (some c, r)

def ps2Process (r : Reader) (scan : UInt8) : Option UInt8 × Reader :=
  if scan = 0xE0 then (none, { r with port := r.port.skip 1000 })
  else
    match modifier r.toDecoder scan with
    | some d => (none, { r with toDecoder := d })
    | none => if keyChar r.toDecoder scan = 0 then (none, r) else press r (keyChar r.toDecoder scan)

/-- `keyboard_getc_nonblock`, with no USB keyboard. -/
def getc (r : Reader) : Option UInt8 × Reader :=
  if r.queued ≠ 0 then (some r.queued, { r with queued := 0 })
  else
    match r.port.poll with
    | (none, port) => (none, { r with port := port })
    | (some scan, port) => ps2Process { r with port := port } scan

end Fallback

/-! ## The driver -/

namespace Odigos

/-- A queued character goes out in the place of the next one. -/
def press (r : Reader) (c : UInt8) : Option UInt8 × Reader :=
  if isDead c && r.dead = 0 then (none, { r with dead := c })
  else if r.dead ≠ 0 then
    if c = 0x20 then (some r.dead, { r with dead := 0 })
    else (some r.dead, { r with dead := 0, queued := c })
  else if r.queued ≠ 0 then (some r.queued, { r with queued := 0 })
  else (some c, r)

/-- The loop of `kbd_drain_to_char`, with `n` turns to go. The result is `kbd_pending`, where `kbd_hit`
is set. -/
def kbdDrainToChar : Nat → Reader → Option UInt8 × Reader
  | 0, r => (none, r)
  | n + 1, r =>
    match r.port.poll with
    | (none, port) => (none, { r with port := port })
    | (some scan, port) =>
      if scan = 0xE0 then kbdDrainToChar n { r with port := port.skip 8 }
      else
        match modifier r.toDecoder scan with
        | some d => kbdDrainToChar n { r with toDecoder := d, port := port }
        | none =>
          if keyChar r.toDecoder scan = 0 then kbdDrainToChar n { r with port := port }
          else
            match press { r with port := port } (keyChar r.toDecoder scan) with
            | (none, r) => kbdDrainToChar n r
            | (some c, r) => (some c, r)

/-- `kbd_handler`, for `IPC_TYPE_KBD_GET`. -/
def kbdHandler (r : Reader) : Option UInt8 × Reader := kbdDrainToChar 64 r

end Odigos

/-! ## Requests in a row -/

/-- The characters of `n` requests. -/
def requests (get : Reader → Option UInt8 × Reader) : Nat → Reader → List UInt8 × Reader
  | 0, r => ([], r)
  | n + 1, r =>
    let later := requests get n (get r).2
    ((get r).1.toList ++ later.1, later.2)

/-- The text of requests until all bytes are read and no key is reported. -/
def Produces (get : Reader → Option UInt8 × Reader) (r : Reader) (text : List UInt8) : Prop :=
  ∃ n, (requests get n r).1 = text ∧ (requests get n r).2.port.bytes = [] ∧
    (get (requests get n r).2).1 = none

/-- Whenever the bytes come, and whoever reads them, there is one text. -/
def Agree (bytes : List UInt8) : Prop :=
  ∀ comeD comeK, ∃ text,
    (∀ t, Produces Odigos.kbdHandler (.boot bytes comeD) t ↔ t = text) ∧
      ∀ t, Produces Fallback.getc (.boot bytes comeK) t ↔ t = text

/-! ## The model of all bytes at once -/

/-- What a reader has of the keyboard, when all bytes have come. -/
def Keyboard.reader (kb : Keyboard) : Reader :=
  ⟨⟨kb.shift, kb.capslock, kb.ctrl, kb.dead⟩, kb.queued, ⟨kb.ps2, []⟩⟩

theorem skip_reader (n : Nat) (bytes : List UInt8) : Port.skip (n + 1) ⟨bytes, []⟩ = ⟨bytes.tail, []⟩ := by
  cases bytes with
  | nil =>
    induction n with
    | zero => rfl
    | succ n ih => exact ih
  | cons b bytes => rfl

theorem ps2Process_reader (kb : Keyboard) (scan : UInt8) :
    Fallback.ps2Process kb.reader scan =
      (if (ps2Process kb scan).2 = 0 then none else some (ps2Process kb scan).2,
        (ps2Process kb scan).1.reader) := by
  have hchar : keyChar kb.reader.toDecoder scan = decode kb scan := rfl
  unfold Fallback.ps2Process ps2Process
  by_cases hext : scan = 0xE0
  · rw [if_pos hext, if_pos hext]
    simp only [Keyboard.reader, skip_reader 999]
    cases hps2 : kb.ps2 <;> simp [kbdPoll, hps2]
  rw [if_neg hext, if_neg hext, hchar]
  generalize decode kb scan = c
  unfold modifier
  by_cases hup : scan &&& 0x80 ≠ 0
  · rw [if_pos hup, if_pos hup]
    rfl
  rw [if_neg hup, if_neg hup]
  by_cases hshift : scan = 0x2A ∨ scan = 0x36
  · rw [if_pos hshift, if_pos hshift]
    rfl
  rw [if_neg hshift, if_neg hshift]
  by_cases hctrl : scan = 0x1D
  · rw [if_pos hctrl, if_pos hctrl]
    rfl
  rw [if_neg hctrl, if_neg hctrl]
  by_cases hcaps : scan = 0x3A
  · rw [if_pos hcaps, if_pos hcaps]
    rfl
  rw [if_neg hcaps, if_neg hcaps]
  by_cases hc : c = 0
  · simp [hc]
  have hdead : kb.reader.dead = kb.dead := rfl
  simp only [if_neg hc, Fallback.press, hdead]
  by_cases haccent : (isDead c && decide (kb.dead = 0)) = true
  · simp only [if_pos haccent]
    rfl
  simp only [if_neg haccent]
  by_cases hpending : kb.dead ≠ 0
  · simp only [if_pos hpending]
    by_cases hspace : c = 0x20
    · simp only [if_pos hspace, if_neg hpending]
      rfl
    · simp only [if_neg hspace, if_neg hpending]
      rfl
  · simp only [if_neg hpending, if_neg hc]

/-- Where all bytes have come, this reader is the one of `Keyboard`. -/
theorem keyboardGetcNonblock_reader (kb : Keyboard) (h : kb.usbKbdPresent = false) :
    Fallback.getc kb.reader = ((keyboardGetcNonblock kb).1, (keyboardGetcNonblock kb).2.reader) := by
  have hqueued : kb.reader.queued = kb.queued := rfl
  unfold Fallback.getc keyboardGetcNonblock
  by_cases hq : kb.queued ≠ 0
  · simp only [hqueued, if_pos hq]
    rfl
  simp only [hqueued, if_neg hq]
  rw [if_neg (by simp [h])]
  unfold readPs2 kbdPoll
  cases hps2 : kb.ps2 with
  | nil => simp [Keyboard.reader, Port.poll, hps2]
  | cons scan rest =>
    have hpoll : kb.reader.port.poll = (some scan, ⟨rest, []⟩) := by
      simp [Keyboard.reader, Port.poll, hps2]
    rw [hpoll]
    exact ps2Process_reader { kb with ps2 := rest } scan

end Siathos.Device
