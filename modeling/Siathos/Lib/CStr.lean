import Mathlib.Data.List.Basic

/-!
# C strings

A C string is the list of its bytes before the NUL.
-/

namespace Lib

abbrev CStr := List UInt8

def ascii (s : String) : CStr := s.toList.map fun c => UInt8.ofNat c.toNat

/-- What a copy into an array of `n` bytes keeps, with its last byte cleared. -/
def cut (n : Nat) (s : CStr) : CStr := s.take (n - 1)

def digits (base n : Nat) : CStr := (Nat.toDigits base n).map fun c => UInt8.ofNat c.toNat

/-- `%llu`. -/
def decimal (n : Nat) : CStr := digits 10 n

/-- `%llx`. -/
def hexadecimal (n : Nat) : CStr := digits 16 n

/-- `%02x`. -/
def hexByte (b : UInt8) : CStr := if b < 16 then ascii "0" ++ digits 16 b.toNat else digits 16 b.toNat

def slash : UInt8 := 0x2F

/-- The string goes on with the text, and then ends or has a slash. -/
def underDir (dir path : CStr) : Bool :=
  dir.isPrefixOf path && (path.drop dir.length).head?.all (· == slash)

theorem mem_splitOn {a c : UInt8} {l s : CStr} (hl : l ∈ s.splitOn a) (hc : c ∈ l) : c ∈ s ∧ c ≠ a := by
  induction s generalizing l with
  | nil =>
    rw [List.splitOn_nil, List.mem_singleton] at hl
    subst hl
    cases hc
  | cons d s ih =>
    rw [List.splitOn_cons_eq_if_modifyHead] at hl
    split at hl
    · rcases List.mem_cons.mp hl with rfl | hl
      · cases hc
      · exact ⟨List.mem_cons_of_mem _ (ih hl hc).1, (ih hl hc).2⟩
    · next hd =>
      cases hsplit : s.splitOn a with
      | nil => exact absurd hsplit (List.splitOn_ne_nil a s)
      | cons first rest =>
        rw [hsplit] at hl ih
        rw [List.modifyHead_cons, List.mem_cons] at hl
        rcases hl with rfl | hl
        · rcases List.mem_cons.mp hc with rfl | hc
          · exact ⟨List.mem_cons_self .., by simpa using hd⟩
          · have := ih (List.mem_cons_self ..) hc
            exact ⟨List.mem_cons_of_mem _ this.1, this.2⟩
        · have := ih (List.mem_cons_of_mem _ hl) hc
          exact ⟨List.mem_cons_of_mem _ this.1, this.2⟩

end Lib
