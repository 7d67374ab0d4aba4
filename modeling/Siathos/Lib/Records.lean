import Siathos.Lib.LittleEndian

/-!
# Records in memory

Packed records of numbers, and arrays of them: each field is read back where it was written.
-/

namespace Lib

/-- The bytes are in memory, from the address `a` on. -/
def Stored (mem : Nat → UInt8) : Nat → List UInt8 → Prop
  | _, [] => True
  | a, b :: bs => mem a = b ∧ Stored mem (a + 1) bs

/-- The number in `w` bytes of memory. -/
def readNumber (mem : Nat → UInt8) (a w : Nat) : Nat := fromBytes ((List.range' a w).map mem)

section

variable {mem : Nat → UInt8} {a : Nat}

theorem stored_append {bs bs' : List UInt8} :
    Stored mem a (bs ++ bs') ↔ Stored mem a bs ∧ Stored mem (a + bs.length) bs' := by
  induction bs generalizing a with
  | nil => simp [Stored]
  | cons b bs ih =>
    rw [List.cons_append, Stored, Stored, ih, List.length_cons, and_assoc, Nat.add_assoc, Nat.add_comm 1]

theorem stored_getD (pre bs post : List UInt8) : Stored (fun a => (pre ++ bs ++ post).getD a 0) pre.length bs := by
  induction bs generalizing pre with
  | nil => trivial
  | cons b bs ih =>
    refine ⟨by simp, ?_⟩
    have hrest := ih (pre ++ [b])
    rw [List.length_append, List.append_assoc pre] at hrest
    exact hrest

theorem Stored.map_range {bs : List UInt8} (h : Stored mem a bs) : (List.range' a bs.length).map mem = bs := by
  induction bs generalizing a with
  | nil => rfl
  | cons b bs ih =>
    rw [List.length_cons, List.range'_succ, List.map_cons, h.1, ih h.2]

theorem Stored.number {w n : Nat} (h : Stored mem a (littleEndian w n)) : readNumber mem a w = n % 256 ^ w := by
  have hbytes := h.map_range
  rw [length_littleEndian] at hbytes
  rw [readNumber, hbytes, fromBytes_littleEndian]

theorem fromBytes_append (bs bs' : List UInt8) :
    fromBytes (bs ++ bs') = fromBytes bs + 256 ^ bs.length * fromBytes bs' := by
  induction bs with
  | nil => simp [fromBytes]
  | cons b bs ih =>
    rw [List.cons_append, fromBytes, ih, fromBytes, List.length_cons]
    ring

theorem readNumber_add (a w w' : Nat) :
    readNumber mem a (w + w') = readNumber mem a w + 256 ^ w * readNumber mem (a + w) w' := by
  rw [readNumber, ← List.range'_append_1, List.map_append, fromBytes_append, List.length_map, List.length_range']
  rfl

/-- The fields of a packed record, with their widths. -/
def fieldBytes (l : List (Nat × Nat)) : List UInt8 := l.flatMap fun f => littleEndian f.1 f.2

/-- What is read at the places of the fields. -/
def ReadsFields (mem : Nat → UInt8) : Nat → List (Nat × Nat) → Prop
  | _, [] => True
  | a, (w, n) :: l => readNumber mem a w = n % 256 ^ w ∧ ReadsFields mem (a + w) l

theorem Stored.reads {l : List (Nat × Nat)} (h : Stored mem a (fieldBytes l)) : ReadsFields mem a l := by
  induction l generalizing a with
  | nil => trivial
  | cons f l ih =>
    rw [fieldBytes, List.flatMap_cons, stored_append, length_littleEndian] at h
    exact ⟨h.1.number, ih h.2⟩

theorem Stored.record {α : Type*} {bytes : α → List UInt8} {w : Nat} {l : List α} (hlen : ∀ x ∈ l, (bytes x).length = w)
    (h : Stored mem a (l.flatMap bytes)) {i : Nat} {x : α} (hx : l[i]? = some x) : Stored mem (a + w * i)
    (bytes x) := by
  induction l generalizing a i with
  | nil => cases hx
  | cons y l ih =>
    rw [List.flatMap_cons, stored_append, hlen y List.mem_cons_self] at h
    cases i with
    | zero =>
      obtain rfl := Option.some.inj hx
      exact h.1
    | succ i =>
      rw [Nat.mul_succ, Nat.add_comm (w * i), ← Nat.add_assoc]
      exact ih (fun z hz => hlen z (List.mem_cons_of_mem y hz)) h.2 hx

end

end Lib
