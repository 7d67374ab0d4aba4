import Siathos.Lib.CStr

/-!
# What a format stands for

A format is a row of ordinary characters and directives. The C standard says for each directive which text
stands in its place.
-/

namespace Lib.Format

/-- An argument as the caller passes it. A string may be a null pointer. -/
inductive Arg
  | int (v : BitVec 32)
  | long (v : BitVec 64)
  | str (s : Option CStr)

/-- A conversion with its argument. -/
inductive Conv
  | s (text : CStr)
  | c (v : BitVec 32)
  | d (v : BitVec 32)
  | u (v : BitVec 32)
  | x (v : BitVec 32)
  | lld (v : BitVec 64)
  | llu (v : BitVec 64)
  | llx (v : BitVec 64)

namespace Conv

def letters : Conv → CStr
  | s _ => ascii "s"
  | c _ => ascii "c"
  | d _ => ascii "d"
  | u _ => ascii "u"
  | x _ => ascii "x"
  | lld _ => ascii "lld"
  | llu _ => ascii "llu"
  | llx _ => ascii "llx"

def arg : Conv → Arg
  | s text => .str (some text)
  | c v | d v | u v | x v => .int v
  | lld v | llu v | llx v => .long v

def numeric : Conv → Bool
  | s _ | c _ => false
  | _ => true

def minus (v : Int) : CStr := if v < 0 then ascii "-" else []

/-- The sign, and what stands behind it. -/
def parts : Conv → CStr × CStr
  | s text => ([], text)
  | c v => ([], [⟨v.setWidth 8⟩])
  | d v => (minus v.toInt, decimal v.toInt.natAbs)
  | u v => ([], decimal v.toNat)
  | x v => ([], hexadecimal v.toNat)
  | lld v => (minus v.toInt, decimal v.toInt.natAbs)
  | llu v => ([], decimal v.toNat)
  | llx v => ([], hexadecimal v.toNat)

end Conv

def digitByte (d : Fin 10) : UInt8 := UInt8.ofNat (0x30 + d)

theorem decimal_eq (n : Nat) :
    decimal n = (if n < 10 then [] else decimal (n / 10)) ++ [digitByte ⟨n % 10, Nat.mod_lt n (by decide)⟩] := by
  have hdigit : ∀ d : Fin 10, UInt8.ofNat (Nat.digitChar d).toNat = digitByte d := by decide
  have hlast := hdigit ⟨n % 10, Nat.mod_lt n (by decide)⟩
  rw [decimal, digits, Nat.toDigits_eq_if (by decide)]
  split
  · next h =>
    rw [← hlast, List.nil_append, List.map_singleton]
    simp only [Nat.mod_eq_of_lt h]
  · rw [← hlast, List.map_append]
    rfl

theorem mem_decimal {n : Nat} {c : UInt8} (h : c ∈ decimal n) : ∃ k, c = digitByte k := by
  induction n using Nat.strongRecOn with
  | _ n ih =>
    rw [decimal_eq, List.mem_append, List.mem_singleton] at h
    rcases h with h | rfl
    · split at h
      · cases h
      · exact ih (n / 10) (Nat.div_lt_self (by omega) (by decide)) h
    · exact ⟨_, rfl⟩

theorem decimal_zeros {n : Nat} (h : ∀ c ∈ decimal n, c = digitByte 0) : n = 0 := by
  induction n using Nat.strongRecOn with
  | _ n ih =>
    rw [decimal_eq] at h
    have hinj : ∀ k, digitByte k = digitByte 0 → k.val = 0 := by decide
    have hlast : n % 10 = 0 := hinj ⟨n % 10, Nat.mod_lt n (by decide)⟩ (h _ (by simp))
    by_cases hlt : n < 10
    · omega
    · rw [if_neg hlt] at h
      have hrest := ih (n / 10) (Nat.div_lt_self (by omega) (by decide)) fun c hc =>
        h c (List.mem_append_left _ hc)
      omega

theorem length_decimal_mono {m n : Nat} (h : m ≤ n) : (decimal m).length ≤ (decimal n).length := by
  simp only [decimal, digits, List.length_map]
  rw [Nat.length_toDigits_le_iff (by decide) Nat.length_toDigits_pos]
  exact Nat.lt_of_le_of_lt h ((Nat.length_toDigits_le_iff (by decide) Nat.length_toDigits_pos).mp (Nat.le_refl _))

/-- Zeros stand behind the sign, and blanks before it. -/
def layout (zero : Bool) (width : Nat) (sign body : CStr) : CStr :=
  let pad := width - (sign.length + body.length)
  if zero then sign ++ List.replicate pad 0x30 ++ body else List.replicate pad 0x20 ++ sign ++ body

theorem length_layout (zero : Bool) (width : Nat) (sign body : CStr) :
    (layout zero width sign body).length = max width (sign.length + body.length) := by
  simp only [layout]
  split <;>
  · simp
    omega

theorem mem_layout {zero : Bool} {width : Nat} {sign body : CStr} {c : UInt8} (h : c ∈ layout zero width sign body) :
    c = 0x30 ∨ c = 0x20 ∨ c ∈ sign ∨ c ∈ body := by
  simp only [layout] at h
  split at h <;>
  · simp only [List.mem_append, List.mem_replicate] at h
    grind

/-- The flag `0` is defined for numbers only, and a width does not begin with it. -/
structure Directive where
  zero : Bool
  digits : List (Fin 10)
  conv : Conv
  flag : zero = true → conv.numeric = true
  lead : zero = false → digits.head? ≠ some 0

namespace Directive

def width (d : Directive) : Nat := d.digits.foldl (fun w (k : Fin 10) => 10 * w + k.val) 0

def format (d : Directive) : CStr :=
  ascii "%" ++ (if d.zero then ascii "0" else []) ++ d.digits.map digitByte ++ d.conv.letters

def render (d : Directive) : CStr := layout d.zero d.width d.conv.parts.1 d.conv.parts.2

theorem width_le_render (d : Directive) : d.width ≤ d.render.length := by
  rw [render, length_layout]
  exact Nat.le_max_left _ _

end Directive

inductive Item
  | char (c : UInt8) (h : c ≠ 0x25 ∧ c ≠ 0)
  | directive (d : Directive)

namespace Item

def format : Item → CStr
  | char c _ => [c]
  | directive d => d.format

def args : Item → List Arg
  | char _ _ => []
  | directive d => [d.conv.arg]

def render : Item → CStr
  | char c _ => [c]
  | directive d => d.render

end Item

end Lib.Format
