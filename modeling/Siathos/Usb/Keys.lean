import Mathlib.Data.List.Dedup
import Siathos.Lib.CStr

/-!
# The keys of the keyboard (`hid.c`)

A report shows the keys that are down. `usb_kbd_getc` should give a character for each key that the last
report did not show.
-/

open Lib

namespace Siathos.Usb

/-! ## The characters of the keys -/

/-- `usb_key_to_ascii`: the character of each usage code. Behind the last one are zeros. -/
def usbKeyToAscii : List UInt8 :=
  [0, 0, 0] ++ ascii "1234567890-=" ++ [0x08] ++ ascii "qwertyuiop" ++ [0x5B, 0x5D, 0x0A, 0] ++
    ascii "asdfghjkl;" ++ [0x27, 0x60, 0, 0x5C] ++ ascii "zxcvbnm,./" ++ [0] ++ ascii "* <>?"

/-- The keys whose shifted character the driver lists. -/
def shiftedKeys : List (UInt8 × UInt8) :=
  (ascii "1234567890-=" ++ [0x5B, 0x5D, 0x5C] ++ ascii ";" ++ [0x27, 0x60] ++ ascii ",./").zip
    (ascii "!@#$%^&*()_+" ++ [0x7B, 0x7D, 0x7C] ++ ascii ":" ++ [0x22, 0x7E] ++ ascii "<>?")

/-- `usb_keycode_to_ascii`, with 0 for a key that has no character. -/
def usbKeycodeToAscii (keycode : UInt8) (shift : Bool) : UInt8 :=
  if keycode = 0 then 0
  else if keycode > 0x65 then 0
  else
    let base := usbKeyToAscii.getD keycode.toNat 0
    if base = 0 then 0
    else if !shift then base
    else
      match shiftedKeys.lookup base with
      | some c => c
      | none =>
        if 0x61 ≤ base ∧ base ≤ 0x7A then base - 0x61 + 0x41
        else if 0x41 ≤ base ∧ base ≤ 0x5A then base - 0x41 + 0x61
        else base

def mapped (keycode : UInt8) : Bool := usbKeycodeToAscii keycode false != 0

theorem mapped_iff (keycode : UInt8) (shift : Bool) : mapped keycode = true ↔ usbKeycodeToAscii keycode shift ≠ 0 := by
  have hall : ∀ (n : Fin 256) (b : Bool),
      mapped (UInt8.ofNat n) = true ↔ usbKeycodeToAscii (UInt8.ofNat n) b ≠ 0 := by decide +kernel
  have hcode := hall ⟨keycode.toNat, keycode.toNat_lt⟩ shift
  rwa [UInt8.ofNat_toNat] at hcode

/-! ## The driver -/

/-- The modifiers, six codes and a byte that is not read. -/
abbrev KeyReport := Vector UInt8 8

def KeyReport.shift (r : KeyReport) : Bool := r[0] &&& 2 != 0

/-- The six codes. -/
def KeyReport.codes (r : KeyReport) : List UInt8 := [r[1], r[2], r[3], r[4], r[5], r[6]]

/-- What the loop compares a code with. -/
def prevSeen (prev : Vector UInt8 7) : List UInt8 := [prev[1], prev[2], prev[3], prev[4], prev[5], prev[6]]

/-- `memcpy(prev, &report[1], 6)`. -/
def copyCodes (prev : Vector UInt8 7) (r : KeyReport) : Vector UInt8 7 :=
  #v[r[1], r[2], r[3], r[4], r[5], r[6], prev[6]]

/-- `usb_kbd_getc`, with what `usb_kbd_read_report` brings. What comes out is `*c`, and nothing for -1. -/
def usbKbdGetc (prev : Vector UInt8 7) : Option KeyReport → Option UInt8 × Vector UInt8 7
  | none => (none, prev)
  | some r =>
    match r.codes.find? fun k => k != 0 && !(prevSeen prev).contains k with
    | some k => (some (usbKeycodeToAscii k r.shift), copyCodes prev r)
    | none => (some 0, copyCodes prev r)

/-- The characters of a series of calls. -/
def typedFrom (prev : Vector UInt8 7) : List (Option KeyReport) → List UInt8
  | [] => []
  | read :: reads =>
    let out := usbKbdGetc prev read
    (out.1.toList.filter (· != 0)) ++ typedFrom out.2 reads

def typed (reads : List (Option KeyReport)) : List UInt8 := typedFrom (Vector.replicate 7 0) reads

/-! ## What is due -/

/-- Each report with the codes of the one before. -/
def withHeld (held : List UInt8) : List (Option KeyReport) → List (List UInt8 × KeyReport)
  | [] => []
  | none :: reads => withHeld held reads
  | some r :: reads => (held, r) :: withHeld r.codes reads

/-- The keys with a character that are down and were not. -/
def newKeys (p : List UInt8 × KeyReport) : List UInt8 := (p.2.codes.filter fun k => mapped k && !p.1.contains k).dedup

def dueOf (p : List UInt8 × KeyReport) : List UInt8 := (newKeys p).map fun k => usbKeycodeToAscii k p.2.shift

def noKeys : List UInt8 := List.replicate 6 0

def due (reads : List (Option KeyReport)) : List UInt8 := (withHeld noKeys reads).flatMap dueOf

/-- After each call the characters that were due have been given, and no others. -/
def TypesRight (reads : List (Option KeyReport)) : Prop := ∀ n, typed (reads.take n) = due (reads.take n)

/-- The code that the driver takes for new: it does not look at the first code of the last report. -/
def taken (p : List UInt8 × KeyReport) : Option UInt8 := p.2.codes.find? fun k => k != 0 && !p.1.tail.contains k

/-- The driver takes no code for new, or one without a character where none was pressed, or one with the
character of the only key that was pressed. -/
def TakesRight (p : List UInt8 × KeyReport) : Prop :=
  ∀ k ∈ taken p, if mapped k then ∃ k', newKeys p = [k'] ∧
  usbKeycodeToAscii k' p.2.shift = usbKeycodeToAscii k p.2.shift
    else newKeys p = []

/-! ## One call -/

def given (p : List UInt8 × KeyReport) : List UInt8 :=
  ((taken p).map fun k => usbKeycodeToAscii k p.2.shift).toList.filter (· != 0)

theorem usbKbdGetc_some {prev : Vector UInt8 7} {held : List UInt8} (h : prevSeen prev = held.tail ++ [0])
    (r : KeyReport) :
    (usbKbdGetc prev (some r)).1.toList.filter (· != 0) = given (held, r) ∧
      prevSeen (usbKbdGetc prev (some r)).2 = r.codes.tail ++ [0] := by
  have hlast : prev[6] = 0 := by
    have hend := congrArg List.getLast? h
    simpa [prevSeen] using hend
  have hcopy : prevSeen (copyCodes prev r) = r.codes.tail ++ [0] := by
    simp [prevSeen, copyCodes, KeyReport.codes, hlast]
  have hfind : (r.codes.find? fun k => k != 0 && !(prevSeen prev).contains k) = taken (held, r) := by
    unfold taken
    congr 1
    funext k
    by_cases hk : k = 0 <;> simp [hk, h]
  rw [usbKbdGetc, hfind, given]
  cases taken (held, r) with
  | none => exact ⟨rfl, hcopy⟩
  | some k => exact ⟨rfl, hcopy⟩

theorem newKeys_nil {p : List UInt8 × KeyReport} (h : taken p = none) : newKeys p = [] := by
  have hfilter : (p.2.codes.filter fun k => mapped k && !p.1.contains k) = [] := by
    rw [List.filter_eq_nil_iff]
    intro k hk
    have hheld := List.find?_eq_none.mp h k hk
    by_cases hzero : k = 0
    · subst hzero
      simp [mapped, usbKeycodeToAscii]
    · have hmem : k ∈ p.1.tail := by simpa [hzero] using hheld
      simp [List.mem_of_mem_tail hmem]
  rw [newKeys, hfilter, List.dedup_nil]

theorem given_eq_iff (p : List UInt8 × KeyReport) : given p = dueOf p ↔ TakesRight p := by
  cases htaken : taken p with
  | none => simp [given, dueOf, TakesRight, htaken, newKeys_nil htaken]
  | some k =>
    have hchar := mapped_iff k p.2.shift
    by_cases hk : mapped k = true
    · have hne := hchar.mp hk
      have hright : TakesRight p ↔
          ∃ k', newKeys p = [k'] ∧ usbKeycodeToAscii k' p.2.shift = usbKeycodeToAscii k p.2.shift := by
        simp only [TakesRight, htaken, Option.mem_some_iff, forall_eq', if_pos hk]
      rw [hright, given, htaken, dueOf, eq_comm]
      simp [hne, List.map_eq_singleton_iff]
    · have hzero : usbKeycodeToAscii k p.2.shift = 0 := by
        by_contra hne
        exact hk (hchar.mpr hne)
      simp [given, dueOf, TakesRight, htaken, hk, hzero, eq_comm (a := [])]

/-! ## A series of calls -/

theorem typedFrom_eq {prev : Vector UInt8 7} {held : List UInt8} (h : prevSeen prev = held.tail ++ [0])
    (reads : List (Option KeyReport)) : typedFrom prev reads = (withHeld held reads).flatMap given := by
  induction reads generalizing prev held with
  | nil => rfl
  | cons read reads ih =>
    cases read with
    | none => exact ih h
    | some r =>
      obtain ⟨hout, hprev⟩ := usbKbdGetc_some h r
      rw [typedFrom, withHeld, List.flatMap_cons, ← hout, ← ih hprev]

theorem flatMap_withHeld_iff (f g : List UInt8 × KeyReport → List UInt8) (held : List UInt8)
    (reads : List (Option KeyReport)) :
    (∀ n, (withHeld held (reads.take n)).flatMap f = (withHeld held (reads.take n)).flatMap g) ↔
      ∀ p ∈ withHeld held reads, f p = g p := by
  induction reads generalizing held with
  | nil => simp [withHeld]
  | cons read reads ih =>
    cases read with
    | none =>
      rw [withHeld, ← ih held]
      constructor
      · intro h n
        exact h (n + 1)
      · intro h n
        cases n with
        | zero => rfl
        | succ n => exact h n
    | some r =>
      rw [withHeld, List.forall_mem_cons, ← ih r.codes]
      constructor
      · intro h
        have hfirst : f (held, r) = g (held, r) := by simpa [withHeld] using h 1
        refine ⟨hfirst, fun n => ?_⟩
        have hnext := h (n + 1)
        rw [List.take_succ_cons, withHeld, List.flatMap_cons, List.flatMap_cons, hfirst] at hnext
        exact List.append_cancel_left hnext
      · rintro ⟨hfirst, hrest⟩ n
        cases n with
        | zero => rfl
        | succ n => rw [List.take_succ_cons, withHeld, List.flatMap_cons, List.flatMap_cons, hfirst, hrest n]

/-- The driver gives what is due exactly where it takes each report right. -/
theorem typesRight_iff (reads : List (Option KeyReport)) :
    TypesRight reads ↔ ∀ p ∈ withHeld noKeys reads, TakesRight p := by
  have hstart : prevSeen (Vector.replicate 7 0) = noKeys.tail ++ [0] := by decide
  have hparts := flatMap_withHeld_iff given dueOf noKeys reads
  simp only [given_eq_iff] at hparts
  rw [← hparts, TypesRight]
  simp only [typed, due, typedFrom_eq hstart]

/-- The key in the first slot is typed again while it is held. -/
theorem held_key_again : ¬ TypesRight [some #v[0, 0x10, 0, 0, 0, 0, 0, 0], some #v[0, 0x10, 0, 0, 0, 0, 0, 0]] := by
  intro h
  have hboth := h 2
  revert hboth
  decide +kernel

end Siathos.Usb
