import Mathlib.Algebra.Group.Int.Defs
import Mathlib.Algebra.Group.Nat.Defs
import Mathlib.Data.List.TakeWhile
import Mathlib.Logic.Function.Basic
import Siathos.Lib.CStr
import Siathos.Lib.Fixes

/-!
# Buffers in which replies are built

A buffer keeps what was written to it before. A writer fills the start of it and tells how long its
reply is.
-/

namespace Lib

/-- Memory, from the first byte of an array on. -/
abbrev Buf := Nat → UInt8

/-- A number of `w` bytes in memory. -/
def littleEndian : Nat → Nat → List UInt8
  | 0, _ => []
  | w + 1, n => UInt8.ofNat n :: littleEndian w (n / 256)

@[simp] theorem length_littleEndian (w n : Nat) : (littleEndian w n).length = w := by
  induction w generalizing n with
  | zero => rfl
  | succ w ih => simp [littleEndian, ih]

def strncpy (n : Nat) (s : CStr) : List UInt8 := s.take n ++ List.replicate (n - s.length) 0

@[simp] theorem length_strncpy (n : Nat) (s : CStr) : (strncpy n s).length = n := by
  simp [strncpy]
  omega

namespace Buf

def bytes (b : Buf) (n : Nat) : List UInt8 := (List.range n).map b

/-- Writes the bytes from an index on. -/
def write (b : Buf) (i : Nat) : List UInt8 → Buf
  | [] => b
  | c :: cs => write (Function.update b i c) (i + 1) cs

/-- `snprintf(b + i, n, "%s", s)`. -/
def snprintf (b : Buf) (i n : Nat) (s : CStr) : Buf := b.write i (cut n s ++ [0])

/-- The memory from an index on. -/
def drop (b : Buf) (i : Nat) : Buf := fun j => b (i + j)

/-- The C string at the start, looked for in `n` bytes. -/
def cstr (b : Buf) (n : Nat) : CStr := (b.bytes n).takeWhile (· != 0)

@[simp] theorem length_bytes (b : Buf) (n : Nat) : (b.bytes n).length = n := by simp [bytes]

theorem bytes_succ (b : Buf) (n : Nat) : b.bytes (n + 1) = b.bytes n ++ [b n] := by
  simp [bytes, List.range_succ]

theorem bytes_congr {b b' : Buf} {n : Nat} (h : ∀ i < n, b i = b' i) : b.bytes n = b'.bytes n := by
  simp only [bytes]
  refine List.map_congr_left fun i hi => h i (List.mem_range.mp hi)

theorem take_bytes (b : Buf) {n m : Nat} (h : n ≤ m) : (b.bytes m).take n = b.bytes n := by
  rw [bytes, ← List.map_take, List.take_range, Nat.min_eq_left h, bytes]

theorem write_before {i j : Nat} (h : j < i) (l : List UInt8) (b : Buf) : b.write i l j = b j := by
  induction l generalizing b i with
  | nil => rfl
  | cons c cs ih =>
    rw [write, ih (by omega), Function.update_of_ne (by omega)]

theorem write_after {i j : Nat} {l : List UInt8} (h : i + l.length ≤ j) (b : Buf) : b.write i l j = b j := by
  induction l generalizing b i with
  | nil => rfl
  | cons c cs ih =>
    rw [List.length_cons] at h
    rw [write, ih (by omega), Function.update_of_ne (by omega)]

theorem write_append (b : Buf) (i : Nat) (l r : List UInt8) :
    b.write i (l ++ r) = (b.write i l).write (i + l.length) r := by
  induction l generalizing b i with
  | nil => rfl
  | cons c cs ih =>
    rw [List.cons_append, write, ih, write, List.length_cons, Nat.add_right_comm, Nat.add_assoc]

theorem bytes_write (b : Buf) (n : Nat) (l : List UInt8) : (b.write n l).bytes (n + l.length) = b.bytes n ++ l := by
  induction l generalizing b n with
  | nil => simp [write]
  | cons c cs ih =>
    have hfirst : bytes (Function.update b n c) n = b.bytes n :=
      bytes_congr fun i hi => Function.update_of_ne (Nat.ne_of_lt hi) _ _
    rw [write, List.length_cons, Nat.add_comm cs.length, ← Nat.add_assoc, ih, bytes_succ, hfirst]
    simp

theorem bytes_write_self (b : Buf) (l r : List UInt8) : (b.write 0 (l ++ r)).bytes l.length = l := by
  have hl := bytes_write b 0 l
  rw [Nat.zero_add] at hl
  rw [write_append, Nat.zero_add, bytes_congr fun i hi => write_before hi r _, hl]
  rfl

theorem bytes_write_zero {l : List UInt8} {n : Nat} (h : l.length = n) (b : Buf) : (b.write 0 l).bytes n = l := by
  have hwrite := bytes_write_self b l []
  rwa [List.append_nil, h] at hwrite

theorem bytes_write_drop (b : Buf) {l : List UInt8} {n : Nat} (h : l.length ≤ n) :
    (b.write 0 l).bytes n = l ++ (b.bytes n).drop l.length := by
  obtain ⟨k, rfl⟩ : ∃ k, n = l.length + k := ⟨n - l.length, by omega⟩
  have hsplit : ∀ b : Buf,
    b.bytes (l.length + k) = b.bytes l.length ++ (List.range k).map fun i => b (l.length + i) := by
    intro b
    simp only [bytes, List.range_add, List.map_append, List.map_map]
    rfl
  have hself := bytes_write_self b l []
  rw [List.append_nil] at hself
  rw [hsplit, hsplit, hself, List.drop_left' (length_bytes b l.length)]
  congr 1
  refine List.map_congr_left fun i _ => write_after ?_ b
  omega

theorem takeWhile_cons_nul (l r : List UInt8) : (l ++ 0 :: r).takeWhile (· != 0) = l.takeWhile (· != 0) := by
  induction l with
  | nil => simp
  | cons c cs ih => simp only [List.cons_append, List.takeWhile_cons, ih]

theorem cstr_write {l : List UInt8} {n : Nat} (r : List UInt8) (hr : l.length + 1 + r.length ≤ n)
    (b : Buf) : (b.write 0 (l ++ 0 :: r)).cstr n = l.takeWhile (· != 0) := by
  rw [cstr, bytes_write_drop b (by simpa [Nat.add_assoc, Nat.add_comm 1] using hr), List.append_assoc, List.cons_append,
    takeWhile_cons_nul]

theorem bytes_cons (b : Buf) (n : Nat) : b.bytes (n + 1) = b 0 :: (b.drop 1).bytes n := by
  simp only [bytes, List.range_succ_eq_map, List.map_cons, List.map_map]
  congr 1
  refine List.map_congr_left fun i _ => ?_
  simp [drop, Nat.add_comm]

theorem le_length_cstr {b : Buf} {m n : Nat} (h : m ≤ n) : m ≤ (b.cstr n).length ↔ ∀ i < m, b i ≠ 0 := by
  induction m generalizing b n with
  | zero => simp
  | succ m ih =>
    obtain ⟨n, rfl⟩ : ∃ k, n = k + 1 := ⟨n - 1, by omega⟩
    have htail : m ≤ ((b.drop 1).cstr n).length ↔ ∀ i < m, b (1 + i) ≠ 0 := ih (by omega)
    rw [cstr, bytes_cons, List.takeWhile_cons]
    by_cases hb : b 0 = 0
    · simp only [hb, bne_self_eq_false, Bool.false_eq_true, if_false, List.length_nil]
      exact iff_of_false (Nat.not_succ_le_zero m) fun hall => hall 0 (Nat.succ_pos m) hb
    · have hne : (b 0 != 0) = true := by simpa using hb
      rw [if_pos hne, List.length_cons, Nat.add_le_add_iff_right]
      refine htail.trans ⟨fun hall i hi => ?_, fun hall i hi => hall (1 + i) (by omega)⟩
      cases i with
      | zero => exact hb
      | succ i =>
        rw [Nat.add_comm]
        exact hall i (by omega)

/-- The number in the `w` bytes from an index on. -/
def numberAt (b : Buf) (i w : Nat) : Nat := ((b.drop i).bytes w).foldr (fun c n => c.toNat + 256 * n) 0

theorem numberAt_congr {b b' : Buf} {i w : Nat} (h : ∀ j < w, b (i + j) = b' (i + j)) :
    numberAt b i w = numberAt b' i w := by
  have hbytes : (b.drop i).bytes w = (b'.drop i).bytes w := Buf.bytes_congr h
  rw [numberAt, numberAt, hbytes]

theorem drop_zero (b : Buf) : b.drop 0 = b := funext fun j => congrArg b (Nat.zero_add j)

theorem drop_drop (b : Buf) (i j : Nat) : (b.drop i).drop j = b.drop (i + j) :=
  funext fun k => congrArg b (Nat.add_assoc i j k).symm

theorem bytes_drop (b : Buf) (i w : Nat) : (b.bytes (i + w)).drop i = (b.drop i).bytes w := by
  simp [bytes, List.range_add, drop]

theorem cstr_ended {b : Buf} {text : CStr} {max : Nat} (hend : b.bytes (text.length + 1) = text ++ [0])
    (hroom : text.length < max) (hnul : 0 ∉ text) : b.cstr max = text := by
  have hall : text.takeWhile (· != 0) = text :=
    List.takeWhile_eq_self_iff.mpr fun c hc => bne_iff_ne.mpr fun heq => hnul (heq ▸ hc)
  obtain ⟨k, rfl⟩ : ∃ k, max = text.length + 1 + k := ⟨max - (text.length + 1), by omega⟩
  have hsplit : b.bytes (text.length + 1 + k) = text ++ 0 :: (b.drop (text.length + 1)).bytes k := by
    rw [← List.take_append_drop (text.length + 1) (b.bytes _), take_bytes b (Nat.le_add_right _ _), bytes_drop, hend]
    simp
  rw [cstr, hsplit, takeWhile_cons_nul, hall]

theorem bytes_drop_write (b : Buf) (i : Nat) (l : List UInt8) : ((b.write i l).drop i).bytes l.length = l := by
  rw [← bytes_drop, bytes_write, List.drop_left' (length_bytes b i)]

theorem bytes_drop_other {i j w : Nat} {l : List UInt8} (h : i + w ≤ j ∨ j + l.length ≤ i) (b : Buf) :
    ((b.write j l).drop i).bytes w = (b.drop i).bytes w := by
  refine bytes_congr fun t ht => ?_
  rcases h with h | h
  · exact write_before (by omega) l b
  · exact write_after (by omega) b

theorem number_littleEndian (w n : Nat) :
    (littleEndian w n).foldr (fun c n => c.toNat + 256 * n) 0 = n % 256 ^ w := by
  induction w generalizing n with
  | zero => simp [littleEndian, Nat.mod_one]
  | succ w ih =>
    rw [littleEndian, List.foldr_cons, ih, Nat.pow_succ', Nat.mod_mul]
    simp

theorem numberAt_write {w n : Nat} (hn : n < 256 ^ w) (b : Buf) (i : Nat) :
    (b.write i (littleEndian w n)).numberAt i w = n := by
  have hbytes := bytes_drop_write b i (littleEndian w n)
  rw [length_littleEndian] at hbytes
  rw [numberAt, hbytes, number_littleEndian, Nat.mod_eq_of_lt hn]

theorem numberAt_other {i j w : Nat} {l : List UInt8} (h : i + w ≤ j ∨ j + l.length ≤ i) (b : Buf) :
    (b.write j l).numberAt i w = b.numberAt i w := by
  rw [numberAt, numberAt, bytes_drop_other h]

theorem fixes_write (i : Nat) (l : List UInt8) : Fixes (Buf.write · i l) fun j => i ≤ j ∧ j < i + l.length := by
  constructor
  · intro j hj b b'
    induction l generalizing i b b' with
    | nil => simp at hj; omega
    | cons c cs ih =>
      simp only [write]
      by_cases heq : j = i
      · subst heq
        rw [write_before (Nat.lt_succ_self j), write_before (Nat.lt_succ_self j)]
        simp
      · refine ih (i + 1) ⟨by omega, ?_⟩ _ _
        have hlt := hj.2
        rw [List.length_cons] at hlt
        omega
  · intro j hj b
    by_cases hlt : j < i
    · exact write_before hlt l b
    · exact write_after (by omega) b

theorem write_again {l r : List UInt8} (h : l.length = r.length) (b : Buf) (i : Nat) :
    (b.write i l).write i r = b.write i r := by
  funext j
  by_cases hj : i ≤ j ∧ j < i + r.length
  · exact (fixes_write i r).same j hj _ _
  · rw [(fixes_write i r).kept j hj, (fixes_write i r).kept j hj, (fixes_write i l).kept j (by rwa [h])]

theorem fixed_bytes_iff {f : Buf → Buf} {S : Nat → Prop} (h : Fixes f S) (n : Nat) :
    (∀ b b', (f b).bytes n = (f b').bytes n) ↔ ∀ i < n, S i := by
  constructor
  · intro hsame i hi
    by_contra hS
    have hbytes := hsame (fun _ => 0) fun _ => 1
    have hbyte := congrArg (·[i]?) hbytes
    simp [bytes, hi, h.kept i hS] at hbyte
  · exact fun hall b b' => bytes_congr fun i hi => h.same i (hall i hi) b b'

end Buf

/-- The number that bytes in memory are. -/
def number (l : List UInt8) : Nat := l.foldr (fun c n => c.toNat + 256 * n) 0

@[simp] theorem number_nil : number [] = 0 := rfl

@[simp] theorem number_cons (c : UInt8) (l : List UInt8) : number (c :: l) = c.toNat + 256 * number l := rfl

theorem number_append (l r : List UInt8) : number (l ++ r) = number l + 256 ^ l.length * number r := by
  induction l with
  | nil => simp
  | cons c cs ih =>
    rw [List.cons_append, number_cons, number_cons, ih, List.length_cons, Nat.pow_succ', Nat.mul_add, Nat.mul_assoc,
      Nat.add_assoc]

theorem number_lt (l : List UInt8) : number l < 256 ^ l.length := by
  induction l with
  | nil => simp
  | cons c cs ih =>
    have hbyte := c.toNat_lt
    rw [number_cons, List.length_cons, Nat.pow_succ']
    omega

theorem number_littleEndian (w n : Nat) : number (littleEndian w n) = n % 256 ^ w := Buf.number_littleEndian w n

theorem littleEndian_number (l : List UInt8) : littleEndian l.length (number l) = l := by
  induction l with
  | nil => rfl
  | cons c cs ih =>
    have hbyte := c.toNat_lt
    have hrest : (c.toNat + 256 * number cs) / 256 = number cs := by omega
    rw [List.length_cons, number_cons, littleEndian, hrest, ih]
    congr 1
    rw [← UInt8.toNat_inj, UInt8.toNat_ofNat']
    omega

/-- A buffer, and how much of it is used. -/
structure Out where
  buf : Buf
  used : Nat

namespace Out

def text (o : Out) : List UInt8 := o.buf.bytes o.used

/-- `resp[used++] = c`. -/
def push (o : Out) (c : UInt8) : Out := ⟨Function.update o.buf o.used c, o.used + 1⟩

/-- Appends what of a string fits, with room for a NUL behind it. -/
def str (max : Nat) (o : Out) : CStr → Out
  | [] => o
  | c :: cs => if o.used + 1 < max then str max (o.push c) cs else o

def pushes (o : Out) (l : List UInt8) : Out := l.foldl push o

/-- `resp[used] = 0`. -/
def close (o : Out) : Buf × Nat := (Function.update o.buf o.used 0, o.used)

@[simp] theorem used_push (o : Out) (c : UInt8) : (o.push c).used = o.used + 1 := rfl

@[simp] theorem length_text (o : Out) : o.text.length = o.used := Buf.length_bytes _ _

theorem bytes_close (o : Out) : o.close.1.bytes (o.used + 1) = o.text ++ [0] := Buf.bytes_write o.buf o.used [0]

@[simp] theorem text_push (o : Out) (c : UInt8) : (o.push c).text = o.text ++ [c] :=
  Buf.bytes_write o.buf o.used [c]

@[simp] theorem text_pushes (o : Out) (l : List UInt8) : (o.pushes l).text = o.text ++ l := by
  unfold pushes
  induction l generalizing o with
  | nil => simp
  | cons c cs ih => simp [ih]

theorem text_str (max : Nat) (o : Out) (s : CStr) : (o.str max s).text = o.text ++ s.take (max - 1 - o.used) := by
  induction s generalizing o with
  | nil => simp [str]
  | cons c cs ih =>
    unfold str
    split
    · next h =>
      obtain ⟨k, hk⟩ : ∃ k, max - 1 - o.used = k + 1 := ⟨max - 1 - o.used - 1, by omega⟩
      rw [ih, used_push, text_push, hk, List.take_succ_cons, show max - 1 - (o.used + 1) = k by omega]
      simp
    · next h => simp [show max - 1 - o.used = 0 by omega]

/-- The text goes on, and behind its end nothing is written. -/
def Extends (o o' : Out) : Prop := o.used ≤ o'.used ∧ ∀ j, o'.used ≤ j → o'.buf j = o.buf j

namespace Extends

theorem refl (o : Out) : Extends o o := ⟨Nat.le_refl _, fun _ _ => rfl⟩

theorem trans {o p q : Out} (h : Extends o p) (h' : Extends p q) : Extends o q :=
  ⟨Nat.le_trans h.1 h'.1, fun j hj => (h'.2 j hj).trans (h.2 j (Nat.le_trans h'.1 hj))⟩

theorem push (o : Out) (c : UInt8) : Extends o (o.push c) :=
  ⟨Nat.le_succ _, fun _ hj => Function.update_of_ne (Nat.ne_of_gt hj) _ _⟩

theorem pushes (o : Out) (l : List UInt8) : Extends o (o.pushes l) := by
  unfold Out.pushes
  induction l generalizing o with
  | nil => exact refl o
  | cons c cs ih => exact (push o c).trans (ih _)

theorem str (max : Nat) (o : Out) (s : CStr) : Extends o (o.str max s) := by
  induction s generalizing o with
  | nil => exact refl o
  | cons c cs ih =>
    unfold Out.str
    split
    · exact (push o c).trans (ih _)
    · exact refl o

theorem foldl {α : Type} {f : Out → α → Out} (hf : ∀ o a, Extends o (f o a)) (l : List α) (o : Out) :
    Extends o (l.foldl f o) := by
  induction l generalizing o with
  | nil => exact refl o
  | cons a as ih => exact (hf o a).trans (ih (f o a))

end Extends

theorem used_pushes (o : Out) (l : List UInt8) : (o.pushes l).used = o.used + l.length := by
  rw [← length_text, text_pushes, List.length_append, length_text]

theorem used_str_le (max : Nat) (o : Out) (s : CStr) : (o.str max s).used ≤ o.used + s.length := by
  rw [← length_text, text_str, List.length_append, length_text, List.length_take]
  omega

/-- As much of the text as leaves room for a NUL is at the start of the buffer `b`. -/
structure Filled (o : Out) (b : Buf) (n : Nat) (t : List UInt8) : Prop where
  text : o.text = t.take (n - 1)
  keeps : Extends ⟨b, 0⟩ o

namespace Filled

variable {b : Buf} {n : Nat} {o : Out} {t : List UInt8}

theorem start (b : Buf) (n : Nat) : Filled ⟨b, 0⟩ b n [] := ⟨by simp [Out.text, Buf.bytes], Extends.refl _⟩

theorem used_eq (h : Filled o b n t) : o.used = min (n - 1) t.length := by
  rw [← length_text, h.text, List.length_take]

theorem str (h : Filled o b n t) (s : List UInt8) : Filled (o.str n s) b n (t ++ s) := by
  refine ⟨?_, h.keeps.trans (Extends.str n o s)⟩
  rw [text_str, h.text, h.used_eq, List.take_append]
  congr 2
  omega

theorem full (h : Filled o b n t) (hfull : ¬o.used + 1 < n) (s : List UInt8) : Filled o b n (t ++ s) := by
  have hused := h.used_eq
  refine ⟨?_, h.keeps⟩
  rw [h.text, List.take_append, show n - 1 - t.length = 0 by omega, List.take_zero, List.append_nil]

theorem push (h : Filled o b n t) (hroom : o.used + 1 < n) (c : UInt8) : Filled (o.push c) b n (t ++ [c]) := by
  have hstr := h.str [c]
  rwa [Out.str, if_pos hroom] at hstr

theorem close (h : Filled o b n t) : o.close = (b.write 0 (t.take (n - 1) ++ [0]), (t.take (n - 1)).length) := by
  have hlen : (t.take (n - 1)).length = o.used := by rw [← h.text, length_text]
  have hbuf : o.buf = b.write 0 (t.take (n - 1)) := by
    funext j
    by_cases hj : j < o.used
    · have hbytes : o.buf.bytes o.used = (b.write 0 (t.take (n - 1))).bytes o.used := by
        rw [Buf.bytes_write_zero hlen, ← h.text, Out.text]
      have hbyte := congrArg (·[j]?) hbytes
      simpa [Buf.bytes, hj] using hbyte
    · rw [Buf.write_after (by omega), h.keeps.2 j (by omega)]
  rw [Out.close, hlen, Buf.write_append, hbuf, hlen, Nat.zero_add]
  rfl

end Filled

theorem used_foldl_le {α : Type} {f : Out → α → Out} {n : Nat} {l : List α}
    (hf : ∀ o, ∀ a ∈ l, (f o a).used ≤ o.used + n)
    (o : Out) : (l.foldl f o).used ≤ o.used + l.length * n := by
  induction l generalizing o with
  | nil => simp
  | cons a as ih =>
    rw [List.foldl_cons, List.length_cons, Nat.succ_mul]
    have hfirst := hf o a List.mem_cons_self
    have hrest := ih (fun o b hb => hf o b (List.mem_cons_of_mem a hb)) (f o a)
    omega

theorem used_foldl_lt {α : Type} {f : Out → α → Out} {n : Nat} {l : List α}
    (hf : ∀ o, ∀ a ∈ l, o.used < n → (f o a).used < n)
    {o : Out} (ho : o.used < n) : (l.foldl f o).used < n := by
  induction l generalizing o with
  | nil => exact ho
  | cons a as ih => exact ih (fun o b hb => hf o b (List.mem_cons_of_mem a hb)) (hf o a List.mem_cons_self ho)

/-- What is appended depends on the text that is there, and on nothing behind it. -/
def Steady (f : Out → Out) : Prop := ∀ o o', o.text = o'.text → (f o).text = (f o').text

theorem used_eq {o o' : Out} (h : o.text = o'.text) : o.used = o'.used := by
  simpa using congrArg List.length h

namespace Steady

theorem pushes (l : List UInt8) : Steady (pushes · l) := by
  intro o o' h
  simp [h]

theorem str (max : Nat) (s : CStr) : Steady (str max · s) := by
  intro o o' h
  simp [text_str, h, used_eq h]

theorem comp {f g : Out → Out} (hf : Steady f) (hg : Steady g) : Steady fun o => g (f o) :=
  fun o o' h => hg _ _ (hf o o' h)

theorem room {f : Out → Out} (hf : Steady f) (p : Nat → Prop) [DecidablePred p] :
    Steady fun o => if p o.used then f o else o := by
  intro o o' h
  simp only [used_eq h]
  split
  · exact hf o o' h
  · exact h

theorem foldl {α : Type} {f : Out → α → Out} (hf : ∀ a, Steady (f · a)) (l : List α) :
    Steady fun o => l.foldl f o := by
  induction l with
  | nil => exact fun _ _ h => h
  | cons a as ih => exact (hf a).comp ih

end Steady

end Out

/-- Builds a reply in a buffer. -/
abbrev Writer := Buf → Buf × Nat

namespace Writer

/-- What the writer has sent. -/
def reply (w : Writer) (b : Buf) : List UInt8 := (w b).1.bytes (w b).2

/-- The reply is these bytes, whatever the buffer held. -/
def Writes (w : Writer) (l : List UInt8) : Prop := ∀ b, w.reply b = l

/-- A reply that depends on nothing the buffer held. -/
def Clean (w : Writer) : Prop := ∀ b b', w.reply b = w.reply b'

theorem Writes.clean {w : Writer} {l : List UInt8} (h : w.Writes l) : w.Clean :=
  fun b b' => (h b).trans (h b').symm

/-- `spud_ncpy(resp, s, max); return n`. -/
def ncpy (max : Nat) (s : CStr) (n : Nat) : Writer := fun b => (b.write 0 (cut max s ++ [0]), n)

/-- `resp[0] = '1' or '0'; resp[1] = 0; return 1`. -/
def flag (ok : Bool) : Writer := fun b => (b.write 0 [if ok then 0x31 else 0x30, 0], 1)

/-- Copies bytes, and writes a NUL behind them. -/
def copied (l : List UInt8) : Writer := fun b => (b.write 0 (l ++ [0]), l.length)

/-- Fills the buffer from its start, and ends the text with a NUL. -/
def build (f : Out → Out) : Writer := fun b => (f ⟨b, 0⟩).close

theorem ncpy_writes {max n : Nat} {s : CStr} (h : n ≤ (cut max s).length) :
    (ncpy max s n).Writes ((cut max s).take n) := by
  intro b
  have hbytes := Buf.bytes_write_self b ((cut max s).take n) ((cut max s).drop n ++ [0])
  rw [← List.append_assoc, List.take_append_drop, List.length_take, Nat.min_eq_left h] at hbytes
  exact hbytes

theorem ncpy_text {max n : Nat} {s : CStr} (hn : n = s.length) (hmax : n < max) : (ncpy max s n).Writes s := by
  have hcut : cut max s = s := List.take_of_length_le (by omega)
  have hwrites := ncpy_writes (n := n) (s := s) (Nat.le_of_eq (by rw [hcut, hn]) : n ≤ (cut max s).length)
  rw [hcut, hn, List.take_length] at hwrites
  exact hn ▸ hwrites

theorem ncpy_clean {max n : Nat} {s : CStr} (h : n ≤ (cut max s).length) : (ncpy max s n).Clean := (ncpy_writes h).clean

theorem copied_writes (l : List UInt8) : (copied l).Writes l := fun b => Buf.bytes_write_self b l [0]

theorem flag_writes (ok : Bool) : (flag ok).Writes (if ok then ascii "1" else ascii "0") := by
  intro b
  cases ok <;> exact Buf.bytes_write_self b [_] [0]

theorem flag_clean (ok : Bool) : (flag ok).Clean := (flag_writes ok).clean

/-- The writer writes into the first bytes only, and the reply lies in them. -/
structure Fits (n : Nat) (w : Writer) : Prop where
  within : ∀ b j, n ≤ j → (w b).1 j = b j
  short : ∀ b, (w b).2 ≤ n

theorem ncpy_fits {max k n : Nat} (hmax : max ≤ n) (hpos : 0 < max) (hk : k ≤ n) (s : CStr) :
    (ncpy max s k).Fits n := by
  refine ⟨fun b j hj => Buf.write_after ?_ b, fun _ => hk⟩
  simp only [cut, List.length_append, List.length_take, List.length_singleton]
  omega

theorem flag_fits {n : Nat} (hn : 2 ≤ n) (ok : Bool) : (flag ok).Fits n :=
  ⟨fun b j hj => Buf.write_after (by simp only [List.length_cons, List.length_nil]; omega) b,
  fun _ => by simp only [flag]; omega⟩

theorem copied_fits {l : List UInt8} {n : Nat} (hl : l.length < n) : (copied l).Fits n :=
  ⟨fun b j hj => Buf.write_after (by simp only [List.length_append, List.length_singleton]; omega) b,
  fun _ => Nat.le_of_lt hl⟩

theorem build_fits {f : Out → Out} {n : Nat} (hf : ∀ o, Out.Extends o (f o)) (hn : ∀ b, (f ⟨b, 0⟩).used < n) :
    (build f).Fits n := by
  refine ⟨fun b j hj => ?_, fun b => Nat.le_of_lt (hn b)⟩
  have hlt := hn b
  have hkept := (hf ⟨b, 0⟩).2 j (by omega)
  exact (Function.update_of_ne (by omega) _ _).trans hkept

theorem reply_build (f : Out → Out) (b : Buf) : (build f).reply b = (f ⟨b, 0⟩).text :=
  Buf.bytes_congr fun _ hi => Function.update_of_ne (Nat.ne_of_lt hi) _ _

theorem build_writes {f : Out → Out} {l : List UInt8} (h : ∀ o, o.text = [] → (f o).text = l) : (build f).Writes l :=
  fun b => (reply_build f b).trans (h ⟨b, 0⟩ rfl)

theorem build_clean {f : Out → Out} (h : Out.Steady f) : (build f).Clean :=
  fun b b' => by rw [reply_build, reply_build, h ⟨b, 0⟩ ⟨b', 0⟩ rfl]

end Writer

end Lib
