import Siathos.Lib.Buffer
import Siathos.Lib.Format

/-!
# The formatter of the kernel

Arithmetic of `int` wraps around. A result is missing where the format is read behind its end, or where an
argument is not what the directive asks for.
-/

namespace Siathos.Util

open Lib Lib.Format

/-! ## One directive -/

/-- `'0'+d`, or `'a'+d-10` from ten on. -/
def digitOf (d : Int) : UInt8 := if d < 10 then UInt8.ofInt (0x30 + d) else UInt8.ofInt (0x61 + d - 10)

/-- `do{ tmp[len++]=...; v/=base; }while(v)`, in an array of `n` bytes. -/
def tmpDigits (base : Nat) : Nat → Int → List UInt8
  | 0, _ => []
  | n + 1, v => digitOf (v.tmod base) :: if v.tdiv base = 0 then [] else tmpDigits base n (v.tdiv base)

/-- The sign, the padding, and the digits from the last to the first. -/
def putNumber (n : Nat) (width : BitVec 32) (zeroPad neg : Bool) (tmp : List UInt8) (o : Out) : Out :=
  let o := if neg then o.str n (ascii "-") else o
  let pad := (width - BitVec.ofNat 32 (tmp.length + neg.toNat)).toInt
  let o := if 0 < pad then o.str n (List.replicate pad.toNat (if zeroPad then 0x30 else 0x20)) else o
  o.str n tmp.reverse

def vaInt : List Arg → Option (BitVec 32 × List Arg)
  | .int v :: args => some (v, args)
  | _ => none

def vaLong : List Arg → Option (BitVec 64 × List Arg)
  | .long v :: args => some (v, args)
  | _ => none

def vaStr : List Arg → Option (Option CStr × List Arg)
  | .str s :: args => some (s, args)
  | _ => none

/-- Behind `ll`. The format is left at the last byte that was looked at. -/
def convertLong (n : Nat) (width : BitVec 32) (zeroPad : Bool) (p : CStr) (args : List Arg) (o : Out) :
    Option (CStr × List Arg × Out) :=
  let c := p.headD 0
  if c = 0x78 ∨ c = 0x58 then
    (vaLong args).map fun (v, args) => (p, args, putNumber n width zeroPad false (tmpDigits 16 32 v.toNat) o)
  else if c = 0x75 ∨ c = 0x64 then
    (vaLong args).map fun (v, args) =>
      let neg := decide (v.toInt < 0) && c == 0x64
      let v := if neg then -v else v
      (p, args, putNumber n width zeroPad neg (tmpDigits 10 32 v.toNat) o)
  else some (p, args, o.str n [c])

def convert (n : Nat) (width : BitVec 32) (zeroPad : Bool) (p : CStr) (args : List Arg) (o : Out) :
    Option (CStr × List Arg × Out) :=
  let c := p.headD 0
  if c = 0x73 then (vaStr args).map fun (s, args) => (p, args, o.str n (s.getD (ascii "(null)")))
  else if c = 0x63 then (vaInt args).map fun (v, args) => (p, args, o.str n [⟨v.setWidth 8⟩])
  else if c = 0x64 ∨ c = 0x75 then
    (vaInt args).map fun (v, args) =>
      let neg := decide (v.toInt < 0) && c == 0x64
      let v := if neg then -v else v
      (p, args, putNumber n width zeroPad neg (tmpDigits 10 32 v.toInt) o)
  else if c = 0x78 ∨ c = 0x58 then
    (vaInt args).map fun (v, args) => (p, args, putNumber n width zeroPad false (tmpDigits 16 32 v.toNat) o)
  else if c = 0x6C ∧ p.tail.headD 0 = 0x6C then convertLong n width zeroPad (p.drop 2) args o
  else some (p, args, o.str n [c])

def isDigit (c : UInt8) : Bool := 0x30 ≤ c && c ≤ 0x39

/-- Behind the `%`. -/
def directive (n : Nat) (p : CStr) (args : List Arg) (o : Out) : Option (CStr × List Arg × Out) :=
  let zeroPad := p.headD 0 == 0x30
  let p := if zeroPad then p.tail else p
  let width := (p.takeWhile isDigit).foldl (fun w c => w * 10 + BitVec.ofNat 32 (c.toNat - 0x30)) 0
  convert n width zeroPad (p.dropWhile isDigit) args o

/-! ## The loop -/

/-- Every turn takes a byte of the format at least, so there are no more turns than bytes. -/
def snprintfLoop (n : Nat) : Nat → CStr → List Arg → Out → Option Out
  | _, [], _, o => some o
  | 0, _ :: _, _, _ => none
  | turns + 1, c :: p, args, o =>
    if o.used + 1 < n then
      if c = 0x25 ∧ p ≠ [] then
        (directive n p args o).bind fun (p, args, o) =>
          match p with
          | [] => none
          | _ :: p => snprintfLoop n turns p args o
      else snprintfLoop n turns p args (o.push c)
    else some o

def snprintf (b : Buf) (n : Nat) (fmt : CStr) (args : List Arg) : Option (Buf × Int) :=
  (snprintfLoop n fmt.length fmt args ⟨b, 0⟩).map fun o => (o.close.1, (BitVec.ofNat 32 o.used).toInt)

/-! ## Digits -/

theorem digitOf_digit {d : Nat} (h : d < 16) : digitOf d = UInt8.ofNat (Nat.digitChar d).toNat := by
  have hall : ∀ d : Fin 16, digitOf (d : Nat) = UInt8.ofNat (Nat.digitChar d).toNat := by decide
  exact hall ⟨d, h⟩

theorem tmpDigits_eq {base : Nat} (hbase : 1 < base) (hdigit : base ≤ 16) {n m : Nat} (hm : m < base ^ n) (hn : 0 < n) :
    (tmpDigits base n m).reverse = digits base m := by
  induction n generalizing m with
  | zero => contradiction
  | succ n ih =>
    have hlast : digitOf ((m : Int).tmod base) = UInt8.ofNat (Nat.digitChar (m % base)).toNat := by
      rw [← Int.ofNat_tmod, digitOf_digit (Nat.lt_of_lt_of_le (Nat.mod_lt m (by omega)) hdigit)]
    rw [tmpDigits, hlast, ← Int.ofNat_tdiv, digits, Nat.toDigits_eq_if hbase]
    by_cases hlt : m < base
    · simp [hlt, Nat.div_eq_of_lt hlt, Nat.mod_eq_of_lt hlt]
    · have hpos : ((m / base : Nat) : Int) ≠ 0 := by
        have hdiv := Nat.div_pos (Nat.not_lt.mp hlt) (by omega)
        omega
      have hsmall : m / base < base ^ n := Nat.div_lt_of_lt_mul (by rwa [← Nat.pow_succ'])
      have hroom : 0 < n := by
        apply Nat.pos_of_ne_zero
        rintro rfl
        rw [Nat.zero_add, Nat.pow_one] at hm
        exact hlt hm
      rw [if_neg hpos, if_neg hlt, List.reverse_cons, ih hsmall hroom, List.map_append]
      rfl

theorem length_tmpDigits (base n : Nat) (v : Int) : (tmpDigits base n v).length ≤ n := by
  induction n generalizing v with
  | zero => simp [tmpDigits]
  | succ n ih =>
    rw [tmpDigits, List.length_cons, Nat.succ_le_succ_iff]
    split
    · exact Nat.zero_le n
    · exact ih _

/-- A negative remainder leads to a character below `'0'`. -/
theorem tmpDigits_neg (n m : Nat) : tmpDigits 10 n (-m) = (tmpDigits 10 n m).map (0x60 - ·) := by
  have hdigit : ∀ d : Fin 10, digitOf (-(d : Nat)) = 0x60 - digitOf (d : Nat) := by decide
  induction n generalizing m with
  | zero => rfl
  | succ n ih =>
    have hlast : digitOf ((-(m : Int)).tmod 10) = 0x60 - digitOf ((m : Int).tmod 10) := by
      have hmod := hdigit ⟨m % 10, Nat.mod_lt m (by decide)⟩
      rwa [Int.neg_tmod]
    rw [tmpDigits, tmpDigits, List.map_cons]
    congr 1
    rw [Int.neg_tdiv, ← Int.ofNat_tdiv]
    by_cases hzero : m / 10 = 0
    · simp [hzero]
    · rw [if_neg (by omega), if_neg (by omega), ih]

/-! ## What a directive leaves in the buffer -/

def numberText (width : Nat) (zeroPad neg : Bool) (tmp : List UInt8) : CStr :=
  (if neg then ascii "-" else []) ++
    List.replicate (width - (tmp.length + neg.toNat)) (if zeroPad then 0x30 else 0x20) ++ tmp.reverse

/-- What the code puts in the place of a directive. -/
def directiveText (d : Directive) : CStr :=
  match d.conv with
  | .s text => text
  | .c v => [⟨v.setWidth 8⟩]
  | .d v =>
    let neg := decide (v.toInt < 0)
    numberText d.width d.zero neg (tmpDigits 10 32 (if neg then -v else v).toInt)
  | .u v => numberText d.width d.zero false (tmpDigits 10 32 v.toInt)
  | .x v => numberText d.width d.zero false (tmpDigits 16 32 v.toNat)
  | .lld v =>
    let neg := decide (v.toInt < 0)
    numberText d.width d.zero neg (tmpDigits 10 32 (if neg then -v else v).toNat)
  | .llu v => numberText d.width d.zero false (tmpDigits 10 32 v.toNat)
  | .llx v => numberText d.width d.zero false (tmpDigits 16 32 v.toNat)

def itemText : Item → CStr
  | .char c _ => [c]
  | .directive d => directiveText d

section Run

variable {b : Buf} {n : Nat} {o : Out} {t : List UInt8}

/-- A width that fits an `int` leaves the padding as it should be. -/
theorem filled_putNumber (h : o.Filled b n t) {width : Nat} (hw : width < 2 ^ 31) (zeroPad neg : Bool)
    {tmp : List UInt8}
    (htmp : tmp.length ≤ 32) :
    (putNumber n (BitVec.ofNat 32 width) zeroPad neg tmp o).Filled b n (t ++ numberText width zeroPad neg tmp) := by
  have hneg : neg.toNat ≤ 1 := Bool.toNat_le neg
  have hpad : (BitVec.ofNat 32 width - BitVec.ofNat 32 (tmp.length + neg.toNat)).toInt =
      (width : Int) - (tmp.length + neg.toNat : Nat) := by
    rw [BitVec.toInt_sub, BitVec.toInt_ofNat', BitVec.toInt_ofNat']
    simp only [Int.bmod_def]
    omega
  have hsign : (if neg then o.str n (ascii "-") else o).Filled b n (t ++ if neg then ascii "-" else []) := by
    split
    · exact h.str _
    · rwa [List.append_nil]
  rw [numberText, ← List.append_assoc, ← List.append_assoc]
  apply Out.Filled.str
  simp only [hpad]
  by_cases hroom : tmp.length + neg.toNat < width
  · rw [if_pos (by omega),
      show ((width : Int) - (tmp.length + neg.toNat : Nat)).toNat = width - (tmp.length + neg.toNat) by omega]
    exact hsign.str _
  · rw [if_neg (by omega), show width - (tmp.length + neg.toNat) = 0 by omega, List.replicate_zero, List.append_nil]
    exact hsign

theorem convert_spec (h : o.Filled b n t) (d : Directive) (hw : d.width < 2 ^ 31) (rest : CStr) (args : List Arg) :
    ∃ c o', convert n (BitVec.ofNat 32 d.width) d.zero (d.conv.letters ++ rest) (d.conv.arg :: args) o =
        some (c :: rest, args, o') ∧ o'.Filled b n (t ++ directiveText d) := by
  have hlen : ∀ base v, (tmpDigits base 32 v).length ≤ 32 := fun base v => length_tmpDigits base 32 v
  have hs : ascii "s" = [0x73] := rfl
  have hc : ascii "c" = [0x63] := rfl
  have hd : ascii "d" = [0x64] := rfl
  have hu : ascii "u" = [0x75] := rfl
  have hx : ascii "x" = [0x78] := rfl
  have hlld : ascii "lld" = [0x6C, 0x6C, 0x64] := rfl
  have hllu : ascii "llu" = [0x6C, 0x6C, 0x75] := rfl
  have hllx : ascii "llx" = [0x6C, 0x6C, 0x78] := rfl
  unfold directiveText
  cases hconv : d.conv with
  | s text =>
    refine ⟨0x73, _, ?_, h.str text⟩
    simp [convert, Conv.letters, Conv.arg, hs, vaStr]
  | c v =>
    refine ⟨0x63, _, ?_, h.str [⟨v.setWidth 8⟩]⟩
    simp [convert, Conv.letters, Conv.arg, hc, vaInt]
  | d v =>
    refine ⟨0x64, _, ?_, filled_putNumber h hw d.zero (decide (v.toInt < 0)) (hlen 10 _)⟩
    simp [convert, Conv.letters, Conv.arg, hd, vaInt]
  | u v =>
    refine ⟨0x75, _, ?_, filled_putNumber h hw d.zero false (hlen 10 _)⟩
    simp [convert, Conv.letters, Conv.arg, hu, vaInt]
  | x v =>
    refine ⟨0x78, _, ?_, filled_putNumber h hw d.zero false (hlen 16 _)⟩
    simp [convert, Conv.letters, Conv.arg, hx, vaInt]
  | lld v =>
    refine ⟨0x64, _, ?_, filled_putNumber h hw d.zero (decide (v.toInt < 0)) (hlen 10 _)⟩
    simp [convert, convertLong, Conv.letters, Conv.arg, hlld, vaLong]
  | llu v =>
    refine ⟨0x75, _, ?_, filled_putNumber h hw d.zero false (hlen 10 _)⟩
    simp [convert, convertLong, Conv.letters, Conv.arg, hllu, vaLong]
  | llx v =>
    refine ⟨0x78, _, ?_, filled_putNumber h hw d.zero false (hlen 16 _)⟩
    simp [convert, convertLong, Conv.letters, Conv.arg, hllx, vaLong]

theorem foldl_digits (ks : List (Fin 10)) (w : Nat) :
    (ks.map digitByte).foldl (fun w c => w * 10 + BitVec.ofNat 32 (c.toNat - 0x30)) (BitVec.ofNat 32 w) =
      BitVec.ofNat 32 (ks.foldl (fun w (k : Fin 10) => 10 * w + k.val) w) := by
  have hvalue : ∀ k : Fin 10, (digitByte k).toNat - 0x30 = k := by decide
  induction ks generalizing w with
  | nil => rfl
  | cons k ks ih =>
    rw [List.map_cons, List.foldl_cons, List.foldl_cons, ← ih, hvalue, BitVec.ofNat_add, BitVec.ofNat_mul,
      BitVec.mul_comm]
    rfl

theorem directive_spec (h : o.Filled b n t) (d : Directive) (hw : d.width < 2 ^ 31) (rest : CStr) (args : List Arg) :
    ∃ c o', directive n ((if d.zero then ascii "0" else []) ++ d.digits.map digitByte ++ d.conv.letters ++ rest)
        (d.conv.arg :: args) o = some (c :: rest, args, o') ∧ o'.Filled b n (t ++ directiveText d) := by
  have hletters : ∃ c cs, d.conv.letters = c :: cs ∧ isDigit c = false := by
    cases d.conv <;> exact ⟨_, _, rfl, by decide⟩
  obtain ⟨c, cs, hfirst, hother⟩ := hletters
  have hdigit : ∀ k : Fin 10, isDigit (digitByte k) = true := by decide
  have hall : ∀ x ∈ d.digits.map digitByte, isDigit x = true := by
    intro x hx
    obtain ⟨k, -, rfl⟩ := List.mem_map.mp hx
    exact hdigit k
  have hflag : (((if d.zero then ascii "0" else
    []) ++ d.digits.map digitByte ++ d.conv.letters ++ rest).headD 0 == 0x30) =
      d.zero := by
    cases hzero : d.zero with
    | true => rfl
    | false =>
      have hlead := d.lead hzero
      rw [hfirst]
      cases hdigits : d.digits with
      | nil =>
        refine beq_false_of_ne fun heq => ?_
        rw [show c = 0x30 from heq] at hother
        contradiction
      | cons k ks =>
        have hne : ∀ k : Fin 10, k ≠ 0 → digitByte k ≠ 0x30 := by decide
        refine beq_false_of_ne (hne k ?_)
        rintro rfl
        exact hlead (by rw [hdigits]; rfl)
  have htake : (d.digits.map digitByte ++ d.conv.letters ++ rest).takeWhile isDigit = d.digits.map digitByte := by
    rw [List.append_assoc, List.takeWhile_append_of_pos hall, hfirst]
    simp [hother]
  have hdrop : (d.digits.map digitByte ++ d.conv.letters ++ rest).dropWhile isDigit = d.conv.letters ++ rest := by
    rw [List.append_assoc, List.dropWhile_append_of_pos hall, hfirst]
    simp [hother]
  have htail : (if d.zero then
    ((if d.zero then ascii "0" else []) ++ d.digits.map digitByte ++ d.conv.letters ++ rest).tail
      else (if d.zero then ascii "0" else []) ++ d.digits.map digitByte ++ d.conv.letters ++ rest) =
        d.digits.map digitByte ++ d.conv.letters ++ rest := by
    split <;> simp [ascii, *]
  simp only [directive, hflag, htail, htake, hdrop]
  rw [show (0 : BitVec 32) = BitVec.ofNat 32 0 from rfl, foldl_digits]
  exact convert_spec h d hw rest args

theorem loop_spec (items : List Item) (hw : ∀ d, .directive d ∈ items → d.width < 2 ^ 31) {turns : Nat}
    (hturns : (items.flatMap Item.format).length ≤ turns) (h : o.Filled b n t) :
    ∃ o', snprintfLoop n turns (items.flatMap Item.format) (items.flatMap Item.args) o = some o' ∧
      o'.Filled b n (t ++ items.flatMap itemText) := by
  induction items generalizing turns o t with
  | nil => exact ⟨o, by cases turns <;> rfl, by simpa using h⟩
  | cons i is ih =>
    have hrest : ∀ d, .directive d ∈ is → d.width < 2 ^ 31 := fun d hd => hw d (List.mem_cons_of_mem i hd)
    rw [List.flatMap_cons, List.length_append] at hturns
    rw [List.flatMap_cons, List.flatMap_cons, List.flatMap_cons]
    cases i with
    | char c hc =>
      obtain ⟨turns, rfl⟩ : ∃ k, turns = k + 1 := ⟨turns - 1, by simp [Item.format] at hturns; omega⟩
      simp only [Item.format, Item.args, itemText, List.cons_append, List.nil_append, snprintfLoop, hc.1, false_and,
        if_false]
      by_cases hroom : o.used + 1 < n
      · rw [if_pos hroom]
        have hshort : (is.flatMap Item.format).length ≤ turns := by
          rw [Item.format, List.length_singleton] at hturns
          omega
        obtain ⟨o', hloop, hfilled⟩ := ih hrest hshort (h.push hroom c)
        exact ⟨o', hloop, by simpa using hfilled⟩
      · rw [if_neg hroom]
        exact ⟨o, rfl, h.full hroom _⟩
    | directive d =>
      obtain ⟨turns, rfl⟩ : ∃ k, turns = k + 1 :=
        ⟨turns - 1, by simp [Item.format, Directive.format, ascii] at hturns; omega⟩
      have hformat : (Item.directive d).format ++ is.flatMap Item.format = 0x25 ::
          ((if d.zero then ascii "0" else
            []) ++ d.digits.map digitByte ++ d.conv.letters ++ is.flatMap Item.format) := by
        simp [Item.format, Directive.format, ascii]
      have hne : (if d.zero then ascii "0" else []) ++ d.digits.map digitByte ++ d.conv.letters ++
          is.flatMap Item.format ≠ [] := by
        cases d.conv <;> simp [Conv.letters, ascii]
      have hshort : (is.flatMap Item.format).length ≤ turns := by
        have hlen := congrArg List.length hformat
        simp only [List.length_append, List.length_cons] at hlen
        omega
      rw [hformat, snprintfLoop]
      by_cases hroom : o.used + 1 < n
      · obtain ⟨c, o₁, hdir, hfilled⟩ := directive_spec h d (hw d List.mem_cons_self) (is.flatMap Item.format)
          (is.flatMap Item.args)
        obtain ⟨o', hloop, hfilled'⟩ := ih hrest hshort hfilled
        refine ⟨o', ?_, ?_⟩
        · rw [if_pos hroom, if_pos ⟨rfl, hne⟩]
          simp only [Item.args, List.cons_append, List.nil_append, hdir, Option.bind_some, hloop]
        · rwa [← List.append_assoc]
      · rw [if_neg hroom]
        exact ⟨o, rfl, h.full hroom _⟩

end Run

/-! ## Where this is the standard text -/

/-- Strings and characters are not padded, blanks stand behind the sign, and `%u` takes its argument for an `int`. -/
def Served (d : Directive) : Prop :=
  match d.conv with
  | .s text => d.width ≤ text.length
  | .c _ => d.width ≤ 1
  | .d v => v ≠ BitVec.intMin 32 ∧ (v.toInt < 0 → d.zero = true ∨ d.width ≤ 1 + (decimal v.toInt.natAbs).length)
  | .u v => v.toNat < 2 ^ 31
  | .lld v => v.toInt < 0 → d.zero = true ∨ d.width ≤ 1 + (decimal v.toInt.natAbs).length
  | .x _ | .llu _ | .llx _ => True

theorem length_numberText (width : Nat) (zero neg : Bool) (tmp : List UInt8) :
    (numberText width zero neg tmp).length = max width (tmp.length + neg.toNat) := by
  cases neg <;>
  · simp [numberText, ascii]
    omega

theorem numberText_eq_iff (width : Nat) (zero neg : Bool) {tmp : List UInt8} {body : CStr} (htmp : tmp.reverse = body) :
    numberText width zero neg tmp = layout zero width (if neg then ascii "-" else []) body ↔
      (neg = true → zero = true ∨ width ≤ 1 + body.length) := by
  have hlen : tmp.length = body.length := by rw [← htmp, List.length_reverse]
  have hminus : ascii "-" = [0x2D] := rfl
  rw [numberText, layout, htmp, hlen]
  cases neg with
  | false => cases zero <;> simp
  | true =>
    cases zero with
    | true => simp [hminus, Nat.add_comm]
    | false =>
      simp only [if_true, hminus, Bool.false_eq_true, if_false, List.length_singleton, Bool.toNat_true, false_or,
        true_imp_iff]
      rw [Nat.add_comm 1]
      cases hpad : width - (body.length + 1) with
      | zero =>
        refine iff_of_true rfl ?_
        omega
      | succ k =>
        refine iff_of_false ?_ ?_
        · rw [List.replicate_succ]
          intro heq
          have hhead := (List.cons.inj heq).1
          contradiction
        · omega

theorem tmp_decimal {m : Nat} (h : m < 2 ^ 64) : (tmpDigits 10 32 m).reverse = decimal m :=
  tmpDigits_eq (by decide) (by decide) (Nat.lt_trans h (by decide)) (by decide)

theorem tmp_hexadecimal {m : Nat} (h : m < 2 ^ 64) : (tmpDigits 16 32 m).reverse = hexadecimal m :=
  tmpDigits_eq (by decide) (by decide) (Nat.lt_trans h (by decide)) (by decide)

theorem tmp_negative {m : Nat} (h : m < 2 ^ 64) : (tmpDigits 10 32 (-m)).reverse = (decimal m).map (0x60 - ·) := by
  rw [tmpDigits_neg, ← List.map_reverse, tmp_decimal h]

theorem garbage {m : Nat} (hm : m ≠ 0) : ∃ c ∈ (decimal m).map (0x60 - ·), c ≠ 0x20 ∧ ∀ k, c ≠ digitByte k := by
  have hblank : ∀ k : Fin 10, 0x60 - digitByte k ≠ 0x20 := by decide
  have hdigit : ∀ j k : Fin 10, 0x60 - digitByte j = digitByte k → digitByte j = digitByte 0 := by decide
  by_contra hnone
  refine hm (decimal_zeros fun c hc => ?_)
  obtain ⟨j, rfl⟩ := mem_decimal hc
  by_contra hne
  exact hnone ⟨_, List.mem_map_of_mem hc, hblank j, fun k hk => hne (hdigit j k hk)⟩

theorem toInt_wrapped {v : BitVec 32} (h : ¬v.toNat < 2 ^ 31) : v.toInt = -((2 ^ 32 - v.toNat : Nat) : Int) := by
  have hlt := v.isLt
  rw [BitVec.toInt_eq_toNat_cond, if_neg (by omega)]
  omega

theorem unsigned_eq_iff (width : Nat) (zero : Bool) (v : BitVec 32) :
    numberText width zero false (tmpDigits 10 32 v.toInt) = layout zero width [] (decimal v.toNat) ↔
    v.toNat < 2 ^ 31 := by
  have hlt := v.isLt
  by_cases h : v.toNat < 2 ^ 31
  · have hint : v.toInt = (v.toNat : Int) := by
      rw [BitVec.toInt_eq_toNat_of_lt]
      omega
    rw [hint]
    refine iff_of_true ((numberText_eq_iff width zero false (tmp_decimal (by omega))).mpr nofun) h
  · have hint := toInt_wrapped h
    refine iff_of_false (fun heq => ?_) h
    obtain ⟨c, hc, hblank, hdigit⟩ := garbage (m := 2 ^ 32 - v.toNat) (by omega)
    have hmem : c ∈ numberText width zero false (tmpDigits 10 32 v.toInt) := by
      rw [numberText, hint, tmp_negative (by omega)]
      exact List.mem_append_right _ hc
    rw [heq] at hmem
    rcases mem_layout hmem with h0 | h0 | h0 | h0
    · exact hdigit 0 h0
    · exact hblank h0
    · cases h0
    · obtain ⟨k, hk⟩ := mem_decimal h0
      exact hdigit k hk

theorem intMin_ne (width : Nat) (zero : Bool) :
    numberText width zero true (tmpDigits 10 32 (BitVec.intMin 32).toInt) ≠ layout zero width (ascii "-")
      (decimal (2 ^ 31)) := by
  intro heq
  have hmem : 0x2E ∈ numberText width zero true (tmpDigits 10 32 (BitVec.intMin 32).toInt) :=
    List.mem_append_right _ (by decide)
  have hdigit : ∀ k, (0x2E : UInt8) ≠ digitByte k := by decide
  rw [heq] at hmem
  rcases mem_layout hmem with h0 | h0 | h0 | h0
  · contradiction
  · contradiction
  · revert h0
    decide
  · obtain ⟨k, hk⟩ := mem_decimal h0
    exact hdigit k hk

theorem unpadded_iff (width : Nat) (text : CStr) : text = layout false width [] text ↔ width ≤ text.length := by
  constructor
  · intro h
    have hlen := congrArg List.length h
    rw [length_layout, List.length_nil] at hlen
    omega
  · intro h
    simp [layout, Nat.sub_eq_zero_of_le h]

theorem toInt_magnitude {v : BitVec 32} (h : v ≠ BitVec.intMin 32) :
    (if decide (v.toInt < 0) then -v else v).toInt = (v.toInt.natAbs : Int) := by
  split
  · next hneg =>
    rw [BitVec.toInt_neg_of_ne_intMin h]
    simp at hneg
    omega
  · next hneg =>
    simp at hneg
    omega

theorem toNat_magnitude (v : BitVec 64) : (if decide (v.toInt < 0) then -v else v).toNat = v.toInt.natAbs := by
  have hlt := v.isLt
  have hneg : (-v).toNat = (2 ^ 64 - v.toNat) % 2 ^ 64 := BitVec.toNat_neg v
  by_cases hlow : 2 * v.toNat < 2 ^ 64
  · have hint : v.toInt = v.toNat := BitVec.toInt_eq_toNat_of_lt hlow
    rw [hint, if_neg (by simp), Int.natAbs_natCast]
  · have hint : v.toInt = (v.toNat : Int) - (2 ^ 64 : Nat) := by
      rw [BitVec.toInt_eq_toNat_cond, if_neg hlow]
    rw [hint, if_pos (by simp; omega), hneg]
    omega

theorem natAbs_lt {w : Nat} (hw : w ≤ 64) (v : BitVec w) : v.toInt.natAbs < 2 ^ 64 := by
  have hlt := v.isLt
  have hpow : 2 ^ w ≤ 2 ^ 64 := Nat.pow_le_pow_right (by decide) hw
  rw [BitVec.toInt_eq_toNat_cond]
  split <;> omega

theorem directiveText_eq_iff (d : Directive) : directiveText d = d.render ↔ Served d := by
  have htext : d.conv.numeric = false → d.zero = false := fun h => by
    cases hzero : d.zero with
    | false => rfl
    | true => rw [d.flag hzero] at h; contradiction
  unfold directiveText Served Directive.render
  cases hconv : d.conv with
  | s text =>
    simp only [Conv.parts, htext (by rw [hconv]; rfl)]
    exact unpadded_iff d.width text
  | c v =>
    simp only [Conv.parts, htext (by rw [hconv]; rfl)]
    exact unpadded_iff d.width _
  | d v =>
    by_cases hmin : v = BitVec.intMin 32
    · subst hmin
      exact iff_of_false (intMin_ne d.width d.zero) fun h => h.1 rfl
    · simp only [toInt_magnitude hmin, ne_eq, hmin, not_false_eq_true, true_and]
      have hnumber := numberText_eq_iff d.width d.zero (decide (v.toInt < 0)) (tmp_decimal (natAbs_lt (by decide) v))
      simpa [Conv.parts, Conv.minus] using hnumber
  | u v => exact unsigned_eq_iff d.width d.zero v
  | x v =>
    exact iff_of_true ((numberText_eq_iff d.width d.zero false (tmp_hexadecimal (by omega))).mpr nofun) trivial
  | lld v =>
    simp only [toNat_magnitude]
    have hnumber := numberText_eq_iff d.width d.zero (decide (v.toInt < 0)) (tmp_decimal (natAbs_lt (by decide) v))
    simpa [Conv.parts, Conv.minus] using hnumber
  | llu v =>
    exact iff_of_true ((numberText_eq_iff d.width d.zero false (tmp_decimal v.isLt)).mpr nofun) trivial
  | llx v =>
    exact iff_of_true ((numberText_eq_iff d.width d.zero false (tmp_hexadecimal v.isLt)).mpr nofun) trivial

theorem length_number_le (width : Nat) (zero neg : Bool) {tmp : List UInt8} {body : CStr}
    (h : tmp.length ≤ body.length) :
    (numberText width zero neg tmp).length ≤ (layout zero width (if neg then ascii "-" else []) body).length := by
  have hsign : (if neg then ascii "-" else []).length = neg.toNat := by cases neg <;> rfl
  rw [length_numberText, length_layout, hsign]
  omega

theorem length_directiveText_le (d : Directive) : (directiveText d).length ≤ d.render.length := by
  by_cases hserved : Served d
  · exact Nat.le_of_eq (congrArg List.length ((directiveText_eq_iff d).mpr hserved))
  · unfold Served at hserved
    unfold directiveText Directive.render
    cases hconv : d.conv with
    | s text =>
      rw [length_layout]
      exact Nat.le_trans (Nat.le_add_left _ _) (Nat.le_max_right _ _)
    | c v =>
      rw [length_layout]
      exact Nat.le_trans (Nat.le_add_left _ _) (Nat.le_max_right _ _)
    | d v =>
      have hlen : (tmpDigits 10 32 (if decide (v.toInt < 0) then -v else v).toInt).length ≤
        (decimal v.toInt.natAbs).length := by
        by_cases hmin : v = BitVec.intMin 32
        · subst hmin
          decide
        · exact Nat.le_of_eq (by rw
            [toInt_magnitude hmin, ← tmp_decimal (natAbs_lt (by decide) v), List.length_reverse])
      simpa [Conv.parts, Conv.minus] using length_number_le d.width d.zero (decide (v.toInt < 0)) hlen
    | u v =>
      rw [hconv] at hserved
      have hlt := v.isLt
      refine length_number_le d.width d.zero false ?_
      rw [toInt_wrapped hserved, ← List.length_reverse, tmp_negative (by omega), List.length_map]
      exact length_decimal_mono (by omega)
    | lld v =>
      have hlen : (tmpDigits 10 32 (if decide (v.toInt < 0) then -v else v).toNat).length ≤
        (decimal v.toInt.natAbs).length :=
        Nat.le_of_eq (by rw [toNat_magnitude, ← tmp_decimal (natAbs_lt (by decide) v), List.length_reverse])
      simpa [Conv.parts, Conv.minus] using length_number_le d.width d.zero (decide (v.toInt < 0)) hlen
    | x v => simp [hconv] at hserved
    | llu v => simp [hconv] at hserved
    | llx v => simp [hconv] at hserved

theorem length_itemText_le (i : Item) : (itemText i).length ≤ i.render.length := by
  cases i with
  | char c h => exact Nat.le_refl 1
  | directive d => exact length_directiveText_le d

theorem length_flatMap_le {α : Type} {f g : α → CStr} (h : ∀ a, (f a).length ≤ (g a).length) (l : List α) :
    (l.flatMap f).length ≤ (l.flatMap g).length := by
  induction l with
  | nil => exact Nat.le_refl 0
  | cons a as ih =>
    rw [List.flatMap_cons, List.flatMap_cons, List.length_append, List.length_append]
    exact Nat.add_le_add (h a) ih

theorem flatMap_eq_iff {α : Type} {f g : α → CStr} (h : ∀ a, (f a).length ≤ (g a).length) (l : List α) :
    l.flatMap f = l.flatMap g ↔ ∀ a ∈ l, f a = g a := by
  constructor
  · intro heq
    induction l with
    | nil => exact fun a ha => nomatch ha
    | cons a as ih =>
      rw [List.flatMap_cons, List.flatMap_cons] at heq
      have hrest := length_flatMap_le h as
      have hlen := congrArg List.length heq
      rw [List.length_append, List.length_append] at hlen
      have hfirst := h a
      obtain ⟨hhead, htail⟩ := List.append_inj heq (by omega)
      intro b hb
      rcases List.mem_cons.mp hb with rfl | hb
      · exact hhead
      · exact ih htail b hb
  · exact fun hall => List.flatMap_congr hall

/-- The text is cut where the buffer ends, a NUL follows it, nothing else is written, and its length is returned. -/
def FormatsRight (items : List Item) : Prop :=
  ∀ (b : Buf) (n : Nat), 1 ≤ n →
    let text := (items.flatMap Item.render).take (n - 1)
    snprintf b n (items.flatMap Item.format) (items.flatMap Item.args) =
      some (b.write 0 (text ++ [0]), (text.length : Int))

theorem snprintf_spec (b : Buf) {n : Nat} {items : List Item} (hw : ∀ d, .directive d ∈ items → d.width < 2 ^ 31) :
    let text := (items.flatMap itemText).take (n - 1)
    snprintf b n (items.flatMap Item.format) (items.flatMap Item.args) =
      some (b.write 0 (text ++ [0]), (BitVec.ofNat 32 text.length).toInt) := by
  intro text
  obtain ⟨o, hloop, hfilled⟩ := loop_spec items hw (Nat.le_refl _) (Out.Filled.start b n)
  rw [List.nil_append] at hfilled
  have hlen : o.used = text.length := congrArg Prod.snd hfilled.close
  rw [snprintf, hloop, Option.map_some, hfilled.close, hlen]

theorem toInt_length {n : Nat} (h : n < 2 ^ 31) : (BitVec.ofNat 32 n).toInt = n := by
  rw [BitVec.toInt_ofNat', Int.bmod_def]
  omega

theorem width_lt {items : List Item} (h : (items.flatMap Item.render).length < 2 ^ 31) {d : Directive}
    (hd : .directive d ∈ items) : d.width < 2 ^ 31 := by
  obtain ⟨front, back, rfl⟩ := List.append_of_mem hd
  rw [List.flatMap_append, List.flatMap_cons, List.length_append, List.length_append] at h
  have hw : d.width ≤ (Item.directive d).render.length := d.width_le_render
  omega

theorem formatsRight_iff (items : List Item) :
    FormatsRight items ↔ (items.flatMap Item.render).length < 2 ^ 31 ∧ ∀ d, .directive d ∈ items → Served d := by
  constructor
  · intro h
    have hshort : (items.flatMap Item.render).length < 2 ^ 31 := by
      by_contra hlong
      have hres := h (fun _ => 0) (2 ^ 31 + 1) (by omega)
      obtain ⟨o, -, ho⟩ := Option.map_eq_some_iff.mp hres
      have hlt := BitVec.toInt_lt (x := BitVec.ofNat 32 o.used)
      have hret := congrArg Prod.snd ho
      rw [List.length_take] at hret
      simp only at hret
      omega
    -- A buffer that takes both texts.
    have hle := length_flatMap_le length_itemText_le items
    have hcode := snprintf_spec (fun _ => 0)
      (n := (items.flatMap Item.render).length + 1) fun d hd => width_lt hshort hd
    have hright := h (fun _ => 0) ((items.flatMap Item.render).length + 1) (by omega)
    simp only [Nat.add_sub_cancel, List.take_length, List.take_of_length_le hle] at hcode hright
    have heq := hcode.symm.trans hright
    simp only [Option.some.injEq, Prod.mk.injEq] at heq
    obtain ⟨hbuf, hret⟩ := heq
    rw [toInt_length (by omega)] at hret
    have htext : items.flatMap itemText = items.flatMap Item.render := by
      have hbytes := congrArg (·.bytes (items.flatMap itemText).length) hbuf
      have hlen : (items.flatMap itemText).length = (items.flatMap Item.render).length := by omega
      simp only [Buf.bytes_write_self] at hbytes
      rw [hbytes, hlen, Buf.bytes_write_self]
    refine ⟨hshort, fun d hd => ?_⟩
    exact (directiveText_eq_iff d).mp ((flatMap_eq_iff length_itemText_le items).mp htext _ hd)
  · rintro ⟨hshort, hserved⟩ b n -
    have htext : items.flatMap itemText = items.flatMap Item.render := by
      refine List.flatMap_congr fun i hi => ?_
      cases i with
      | char c h => rfl
      | directive d => exact (directiveText_eq_iff d).mpr (hserved d hi)
    have hcode := snprintf_spec b (n := n) fun d hd => width_lt hshort hd
    simp only [htext] at hcode
    rw [hcode, toInt_length]
    rw [List.length_take]
    omega

/-- `%u` of 2147483648 comes out as `./,),(-*,(`. -/
theorem unsigned_misprinted : ¬FormatsRight [.directive ⟨false, [], .u 0x80000000, by decide, by decide⟩] := by
  intro h
  have hres := congrArg (Option.map fun r => r.1.bytes 10) (h (fun _ => 0) 80 (by decide))
  revert hres
  decide +kernel

end Siathos.Util
