import Siathos.Nomos.Scan

/-!
# The manifests of modules (`man_key`, `mod_flag`)

The shell reads the names of a module from its manifest, and the kernel reads from it whether the module
is one of its own.
-/

open Lib Siathos.Nomos

namespace Siathos.Praxia

/-! ## Strings of the shell -/

/-- `spud_cmp`: behind the last byte of a list stands a NUL. -/
def spudCmp : List UInt8 → List UInt8 → Int
  | [], [] => 0
  | [], b :: _ => -(b.toNat : Int)
  | a :: _, [] => a.toNat
  | a :: as, b :: bs => if a ≠ 0 ∧ a = b then spudCmp as bs else (a.toNat : Int) - b.toNat

theorem spudCmp_eq_zero (a b : List UInt8) : spudCmp a b = 0 ↔ cString a = cString b := by
  have hzero (c : UInt8) : c.toNat = 0 ↔ c = 0 := by
    rw [← UInt8.toNat_inj]
    rfl
  induction a, b using spudCmp.induct with
  | case1 => simp [spudCmp]
  | case2 b bs => by_cases hb : b = 0 <;> simp [spudCmp, cString, hb, hzero]
  | case3 a as => by_cases ha : a = 0 <;> simp [spudCmp, cString, ha, hzero]
  | case4 a as b bs h ih => simp [spudCmp, cString, h.1, ← h.2, ih]
  | case5 a as b bs h =>
    have hdiff : (a.toNat : Int) - b.toNat = 0 ↔ a = b := by
      rw [← UInt8.toNat_inj]
      omega
    rw [spudCmp, if_neg h, hdiff]
    by_cases ha : a = 0
    · subst ha
      by_cases hb : b = 0
      · simp [cString, hb]
      · simp [cString, hb, Ne.symm hb]
    · have hab : a ≠ b := fun hab => h ⟨ha, hab⟩
      by_cases hb : b = 0 <;> simp [cString, ha, hb, hab]

/-! ## The lines of a manifest -/

/-- The text from each line's start on. -/
def lineStarts : List UInt8 → List (List UInt8)
  | [] => []
  | c :: cs => if c = newline ∧ cs ≠ [] then cs :: lineStarts cs else lineStarts cs

def lineTails (text : List UInt8) : List (List UInt8) := if text = [] then [] else text :: lineStarts text

def lineOf (tail : List UInt8) : List UInt8 := tail.takeWhile (· != newline)

def indent (tail : List UInt8) : Nat := ((lineOf tail).takeWhile blank).length

/-- What may stand between a key and its value. -/
def separates (c : UInt8) : Bool := blank c || c == 0x3D || c == 0x3A

/-! ## The shell's reader -/

/-- The test of `man_key` on a line: the comparison goes on to the end of the text. -/
def manHolds (key : CStr) (tail : List UInt8) : Bool :=
  decide ((lineOf tail).length - indent tail ≥ key.length + 1) && decide (spudCmp (tail.drop (indent tail)) key = 0)

def trailing (c : UInt8) : Bool := blank c || c == 0x0D

def trimEnd (s : CStr) : CStr := (s.reverse.dropWhile trailing).reverse

def manValue (key : CStr) (tail : List UInt8) : CStr :=
  trimEnd (((lineOf tail).drop (indent tail + key.length)).dropWhile separates)

/-- The line that `man_key` takes. -/
def manKeyLine (buf : List UInt8) (key : CStr) : Option Nat := (lineTails buf).findIdx? (manHolds key)

/-- `man_key`. -/
def manKey (buf : List UInt8) (key : CStr) (outcap : Nat) : CStr :=
  match (lineTails buf).find? (manHolds key) with
  | none => []
  | some tail => cut outcap (manValue key tail)

/-! ## The kernel's reader -/

def modHolds (chave : CStr) (tail : List UInt8) : Bool :=
  let line := (lineOf tail).drop (indent tail)
  chave.isPrefixOf line && (line.drop chave.length).head?.all separates

def modValue (chave : CStr) (tail : List UInt8) : List UInt8 :=
  let line := (lineOf tail).drop (indent tail + chave.length)
  tail.drop (indent tail + chave.length + (line.takeWhile separates).length)

/-- The value that `v` points to is on the line and starts with one of the words. -/
def modAffirms (chave : CStr) (tail : List UInt8) : Bool :=
  !(((lineOf tail).drop (indent tail + chave.length)).dropWhile separates).isEmpty &&
    [ascii "sim", ascii "yes", ascii "true", ascii "1"].any (·.isPrefixOf (modValue chave tail))

/-- The line that `mod_flag` takes. -/
def modFlagLine (cfg : List UInt8) (chave : CStr) : Option Nat := (lineTails cfg).findIdx? (modHolds chave)

def modFlag (cfg : List UInt8) (chave : CStr) : Bool :=
  match (lineTails cfg).find? (modHolds chave) with
  | none => false
  | some tail => modAffirms chave tail

def modIsKormi (cfg : List UInt8) : Bool := modFlag cfg (ascii "kormi")

/-! ## Manifests -/

/-- A word that stands before a separator. -/
structure IsKey (key : CStr) : Prop where
  nonempty : key ≠ []
  plain : ∀ c ∈ key, c ≠ 0 ∧ c ≠ newline ∧ separates c = false

/-- A line: blanks, the key, separators, the value. -/
structure Entry where
  blanks : CStr
  key : CStr
  sep : CStr
  value : CStr
  allBlank : ∀ c ∈ blanks, blank c = true
  isKey : IsKey key
  sep_ne : sep ≠ []
  allSep : ∀ c ∈ sep, separates c = true
  value_line : newline ∉ value
  value_head : value.head?.all (! separates ·) = true

def Entry.line (e : Entry) : CStr := e.blanks ++ (e.key ++ (e.sep ++ e.value))

/-- The entries, and whether a newline ends the last one. -/
structure Manifest where
  entries : List Entry
  closed : Bool

def textOf (closed : Bool) : List Entry → List UInt8
  | [] => []
  | [e] => e.line ++ if closed then [newline] else []
  | e :: es => e.line ++ newline :: textOf closed es

def Manifest.text (m : Manifest) : List UInt8 := textOf m.closed m.entries

/-- The first entry with the key. -/
def Manifest.lookup (m : Manifest) (key : CStr) : Option Entry := m.entries.find? fun e => e.key == key

/-! ## The lines of a manifest's text -/

theorem newline_not_mem_line (e : Entry) : newline ∉ e.line := by
  have hsep : separates newline = false := by decide
  have hblank : blank newline = false := by decide
  simp only [Entry.line, List.mem_append, not_or]
  refine ⟨fun h => ?_, fun h => (e.isKey.plain _ h).2.1 rfl, fun h => ?_, e.value_line⟩
  · rw [e.allBlank _ h] at hblank
    cases hblank
  · rw [e.allSep _ h] at hsep
    cases hsep

theorem line_ne_nil (e : Entry) : e.line ≠ [] := by
  simp [Entry.line, e.isKey.nonempty]

theorem lineStarts_append {line : List UInt8} (h : newline ∉ line) (rest : List UInt8) :
    lineStarts (line ++ rest) = lineStarts rest := by
  induction line with
  | nil => rfl
  | cons c line ih =>
    rw [List.mem_cons, not_or] at h
    obtain ⟨hc, hline⟩ := h
    rw [List.cons_append, lineStarts, if_neg (fun hn => hc hn.1.symm), ih hline]

theorem lineTails_cons {line : List UInt8} (h : newline ∉ line) (rest : List UInt8) :
    lineTails (line ++ newline :: rest) = (line ++ newline :: rest) :: lineTails rest := by
  rw [lineTails, if_neg (by simp), lineStarts_append h, lineStarts]
  by_cases hrest : rest = [] <;> simp [lineTails, lineStarts, hrest]

theorem lineTails_last {line : List UInt8} (h : newline ∉ line) (hne : line ≠ []) : lineTails line = [line] := by
  have hstarts := lineStarts_append h []
  rw [List.append_nil] at hstarts
  simp [lineTails, hne, hstarts, lineStarts]

/-- A line ends the text or goes on with a newline. -/
def Ends (rest : List UInt8) : Prop := rest = [] ∨ rest.head? = some newline

theorem map_lineTails {β : Type*} {f : List UInt8 → β} {g : Entry → β}
    (h : ∀ (e : Entry) (rest : List UInt8), Ends rest → f (e.line ++ rest) = g e) (closed : Bool) (es : List Entry) :
    (lineTails (textOf closed es)).map f = es.map g := by
  induction es with
  | nil => rfl
  | cons e es ih =>
    have hnl := newline_not_mem_line e
    cases es with
    | nil =>
      cases closed with
      | false =>
        have hlast := h e [] (Or.inl rfl)
        rw [List.append_nil] at hlast
        simp [textOf, lineTails_last hnl (line_ne_nil e), hlast]
      | true =>
        rw [textOf, if_pos rfl, lineTails_cons hnl, List.map_cons, List.map_cons, h e _ (Or.inr rfl)]
        rfl
    | cons e' es =>
      rw [show textOf closed (e :: e' :: es) = e.line ++ newline :: textOf closed (e' :: es) from rfl,
        lineTails_cons hnl, List.map_cons, List.map_cons, h e _ (Or.inr rfl), ih]

theorem findIdx_lineTails {p : List UInt8 → Bool} {q : Entry → Bool}
    (h : ∀ (e : Entry) (rest : List UInt8), Ends rest → p (e.line ++ rest) = q e) (m : Manifest) :
    (lineTails m.text).findIdx? p = m.entries.findIdx? q := by
  have hmap := congrArg (List.findIdx? id) (map_lineTails h m.closed m.entries)
  rwa [List.findIdx?_map, List.findIdx?_map] at hmap

theorem find_lineTails {β : Type*} {p : List UInt8 → Bool} {q : Entry → Bool} {f : List UInt8 → β} {g : Entry → β}
    (h : ∀ (e : Entry) (rest : List UInt8), Ends rest → p (e.line ++ rest) = q e ∧ f (e.line ++ rest) = g e)
    (m : Manifest) : ((lineTails m.text).find? p).map f = (m.entries.find? q).map g := by
  have hpair := map_lineTails (f := fun tail => (p tail, f tail)) (g := fun e => (q e, g e))
    (fun e rest hrest => by rw [(h e rest hrest).1, (h e rest hrest).2]) m.closed m.entries
  have hfind := congrArg (fun l => (l.find? (·.1)).map (·.2)) hpair
  rw [List.find?_map, List.find?_map, Option.map_map, Option.map_map] at hfind
  exact hfind

theorem lineOf_line (e : Entry) {rest : List UInt8} (h : Ends rest) : lineOf (e.line ++ rest) = e.line := by
  have hline : ∀ c ∈ e.line, (c != newline) = true := by
    intro c hc
    have hne : c ≠ newline := fun heq => newline_not_mem_line e (heq ▸ hc)
    simpa using hne
  rw [lineOf, List.takeWhile_append_of_pos hline]
  rcases h with rfl | h
  · simp
  · obtain ⟨more, rfl⟩ := List.head?_eq_some_iff.mp h
    simp

theorem indent_line (e : Entry) {rest : List UInt8} (h : Ends rest) : indent (e.line ++ rest) = e.blanks.length := by
  obtain ⟨c, key, hkey⟩ := List.exists_cons_of_ne_nil e.isKey.nonempty
  have hc : blank c = false := by
    have hsep := (e.isKey.plain c (by simp [hkey])).2.2
    simp only [separates, Bool.or_eq_false_iff] at hsep
    exact hsep.1.1
  rw [indent, lineOf_line e h, Entry.line, List.takeWhile_append_of_pos e.allBlank, hkey]
  simp [hc]

/-! ## Which line holds a key -/

theorem manHolds_line {key : CStr} (hkey : IsKey key) (e : Entry) {rest : List UInt8} (h : Ends rest) :
    manHolds key (e.line ++ rest) = false := by
  obtain ⟨s, sep, hsep⟩ := List.exists_cons_of_ne_nil e.sep_ne
  have hs : separates s = true := e.allSep s (by simp [hsep])
  have hs0 : s ≠ 0 := by
    rintro rfl
    revert hs
    decide
  have htail : (e.line ++ rest).drop e.blanks.length = e.key ++ s :: (sep ++ (e.value ++ rest)) := by
    simp [Entry.line, hsep]
  have hplain : ∀ k : CStr, IsKey k → ∀ c ∈ k, (c != 0) = true := by
    intro k hk c hc
    simpa using (hk.plain c hc).1
  simp only [manHolds, Bool.and_eq_false_iff, decide_eq_false_iff_not]
  right
  rw [indent_line e h, htail, spudCmp_eq_zero]
  intro heq
  -- the separator would be a byte of the wanted key
  have hmem : s ∈ cString key := by
    rw [← heq, cString, List.takeWhile_append_of_pos (hplain _ e.isKey)]
    simp [hs0]
  have hwanted := (hkey.plain s ((List.takeWhile_sublist _).subset hmem)).2.2
  rw [hs] at hwanted
  cases hwanted

theorem prefix_separated {key word : CStr} (hkey : IsKey key) (hword : IsKey word) {s : UInt8}
    (hs : separates s = true) (more : CStr) :
    (key <+: word ++ s :: more ∧ ((word ++ s :: more).drop key.length).head?.all separates = true) ↔ word = key := by
  constructor
  · rintro ⟨hpre, hnext⟩
    rcases List.prefix_or_prefix_of_prefix hpre (List.prefix_append word (s :: more)) with hlt | hlt
    · obtain ⟨tail, rfl⟩ := hlt
      rw [List.append_assoc, List.drop_left] at hnext
      cases tail with
      | nil => simp
      | cons c tail =>
        have hc := (hword.plain c (by simp)).2.2
        simp [hc] at hnext
    · obtain ⟨tail, rfl⟩ := hlt
      rw [List.prefix_append_right_inj] at hpre
      cases tail with
      | nil => simp
      | cons c tail =>
        obtain ⟨rfl, -⟩ := List.cons_prefix_cons.mp hpre
        have hc := (hkey.plain c (by simp)).2.2
        rw [hs] at hc
        cases hc
  · rintro rfl
    simp [hs]

theorem modHolds_line {key : CStr} (hkey : IsKey key) (e : Entry) {rest : List UInt8} (h : Ends rest) :
    modHolds key (e.line ++ rest) = (e.key == key) := by
  obtain ⟨s, sep, hsep⟩ := List.exists_cons_of_ne_nil e.sep_ne
  have hs : separates s = true := e.allSep s (by simp [hsep])
  have hline : e.line.drop e.blanks.length = e.key ++ s :: (sep ++ e.value) := by
    simp [Entry.line, hsep]
  rw [Bool.eq_iff_iff, beq_iff_eq, ← prefix_separated hkey e.isKey hs (sep ++ e.value)]
  simp only [modHolds, indent_line e h, lineOf_line e h, hline, Bool.and_eq_true, List.isPrefixOf_iff_prefix]

theorem manKeyLine_none (m : Manifest) {key : CStr} (hkey : IsKey key) : manKeyLine m.text key = none := by
  rw [manKeyLine, findIdx_lineTails (q := fun _ => false) (fun e _ h => manHolds_line hkey e h)]
  simp

/-- `mod_flag` takes the first line with the key. -/
theorem modFlagLine_eq (m : Manifest) {key : CStr} (hkey : IsKey key) :
    modFlagLine m.text key = m.entries.findIdx? fun e => e.key == key :=
  findIdx_lineTails (fun e _ h => modHolds_line hkey e h) m

theorem prefix_line {word value rest : CStr} (hword : newline ∉ word) (h : Ends rest) :
    word <+: value ++ rest ↔ word <+: value := by
  constructor
  · intro hpre
    rcases List.prefix_or_prefix_of_prefix hpre (List.prefix_append value rest) with hlt | hlt
    · exact hlt
    · obtain ⟨tail, rfl⟩ := hlt
      rw [List.prefix_append_right_inj] at hpre
      cases tail with
      | nil => simp
      | cons c tail =>
        rcases h with rfl | h
        · simp at hpre
        · obtain ⟨more, rfl⟩ := List.head?_eq_some_iff.mp h
          obtain ⟨rfl, -⟩ := List.cons_prefix_cons.mp hpre
          simp at hword
  · exact fun hpre => hpre.trans (List.prefix_append _ _)

theorem modAffirms_line (e : Entry) {rest : CStr} (h : Ends rest) : modAffirms e.key (e.line ++ rest) =
    [ascii "sim", ascii "yes", ascii "true", ascii "1"].any (·.isPrefixOf e.value) := by
  have hsep : (e.sep ++ e.value).takeWhile separates = e.sep := by
    rw [List.takeWhile_append_of_pos e.allSep]
    cases hvalue : e.value with
    | nil => simp
    | cons c value =>
      have hc := e.value_head
      simp only [hvalue, List.head?_cons, Option.all_some, Bool.not_eq_true'] at hc
      simp [hc]
  have hdrop : (e.sep ++ e.value).dropWhile separates = e.value := by
    have hsplit := List.takeWhile_append_dropWhile (p := separates) (l := e.sep ++ e.value)
    rwa [hsep, List.append_cancel_left_eq] at hsplit
  have hline : e.line.drop (e.blanks.length + e.key.length) = e.sep ++ e.value := by
    rw [← List.drop_drop]
    simp [Entry.line]
  have htail : (e.line ++ rest).drop (e.blanks.length + e.key.length + e.sep.length) = e.value ++ rest := by
    rw [← List.drop_drop, ← List.drop_drop]
    simp [Entry.line]
  have hwords : ∀ word ∈ [ascii "sim", ascii "yes", ascii "true", ascii "1"], newline ∉ word ∧ word ≠ [] := by decide
  simp only [modAffirms, modValue, indent_line e h, lineOf_line e h, hline, hsep, hdrop, htail]
  rw [Bool.eq_iff_iff, Bool.and_eq_true, List.any_eq_true, List.any_eq_true]
  simp only [List.isPrefixOf_iff_prefix]
  constructor
  · rintro ⟨-, word, hmem, hpre⟩
    exact ⟨word, hmem, (prefix_line (hwords word hmem).1 h).mp hpre⟩
  · rintro ⟨word, hmem, hpre⟩
    refine ⟨?_, word, hmem, (prefix_line (hwords word hmem).1 h).mpr hpre⟩
    have hvalue : e.value ≠ [] := fun hnil => (hwords word hmem).2 (List.prefix_nil.mp (hnil ▸ hpre))
    simpa using hvalue

/-- `mod_flag` says whether the first line with the key affirms it. -/
theorem modFlag_eq (m : Manifest) {key : CStr} (hkey : IsKey key) : modFlag m.text key = (m.lookup key).any fun e =>
    [ascii "sim", ascii "yes", ascii "true", ascii "1"].any (·.isPrefixOf e.value) := by
  have hfind := find_lineTails (p := modHolds key) (q := fun e => e.key == key)
    (f := fun tail => modHolds key tail && modAffirms key tail)
    (g := fun e => e.key == key && [ascii "sim", ascii "yes", ascii "true", ascii "1"].any (·.isPrefixOf e.value))
    (fun e rest h => by
      refine ⟨modHolds_line hkey e h, ?_⟩
      rw [modHolds_line hkey e h]
      by_cases he : e.key = key
      · rw [← he, modAffirms_line e h]
      · rw [beq_eq_false_iff_ne.mpr he, Bool.false_and, Bool.false_and]) m
  cases htail : (lineTails m.text).find? (modHolds key) with
  | none =>
    rw [htail, eq_comm, Option.map_none, Option.map_eq_none_iff] at hfind
    rw [modFlag, htail, Manifest.lookup, hfind]
    rfl
  | some tail =>
    rw [htail] at hfind
    obtain ⟨e, he, hsame⟩ := Option.map_eq_some_iff.mp hfind.symm
    dsimp only at hsame
    rw [List.find?_some htail, List.find?_some (p := fun e : Entry => e.key == key) he, Bool.true_and,
      Bool.true_and] at hsame
    rw [modFlag, htail, Manifest.lookup, he]
    exact hsame.symm

theorem manKey_nil (m : Manifest) {key : CStr} (hkey : IsKey key) (outcap : Nat) : manKey m.text key outcap = [] := by
  have hnone := manKeyLine_none m hkey
  rw [manKeyLine, List.findIdx?_eq_none_iff] at hnone
  rw [manKey, List.find?_eq_none.mpr fun tail htail => by simp [hnone tail htail]]

/-- The shell reads the value of the first line with the key, and takes the line that the kernel takes. -/
structure ReadsRight (m : Manifest) (key : CStr) (outcap : Nat) : Prop where
  value : manKey m.text key outcap = ((m.lookup key).map fun e => cut outcap (trimEnd e.value)).getD []
  line : manKeyLine m.text key = modFlagLine m.text key

/-- Only where no line has the key does the shell read right. -/
theorem readsRight_iff (m : Manifest) {key : CStr} (hkey : IsKey key) (outcap : Nat) :
    ReadsRight m key outcap ↔ ∀ e ∈ m.entries, e.key ≠ key := by
  constructor
  · rintro ⟨-, hline⟩ e he
    rw [manKeyLine_none m hkey, modFlagLine_eq m hkey, eq_comm, List.findIdx?_eq_none_iff] at hline
    simpa using hline e he
  · intro habsent
    constructor
    · have hlookup : m.lookup key = none := List.find?_eq_none.mpr fun e he => by simp [habsent e he]
      rw [manKey_nil m hkey, hlookup]
      rfl
    · rw [manKeyLine_none m hkey, modFlagLine_eq m hkey, eq_comm, List.findIdx?_eq_none_iff]
      exact fun e he => by simp [habsent e he]

/-- The manifest of the module `ps`. -/
def psManifest : Manifest where
  closed := true
  entries := [entry "nome" "kinesis" (by decide +kernel), entry "alias" "ps" (by decide +kernel),
    entry "desc" "Lista processos do sistema" (by decide +kernel), entry "kormi" "nao" (by decide +kernel)]
where
  entry (key value : String) (h : (ascii key ≠ [] ∧ ∀ c ∈ ascii key, c ≠ 0 ∧ c ≠ newline ∧ separates c = false) ∧
      newline ∉ ascii value ∧ (ascii value).head?.all (! separates ·) = true) : Entry :=
    ⟨[], ascii key, ascii " = ", ascii value, by simp, ⟨h.1.1, h.1.2⟩, by decide +kernel, by decide +kernel,
    h.2.1, h.2.2⟩

theorem isKey_nome : IsKey (ascii "nome") := ⟨by decide, by decide +kernel⟩

theorem isKey_kormi : IsKey (ascii "kormi") := ⟨by decide, by decide +kernel⟩

theorem readsRight_iff_version : ReadsRight psManifest (ascii "versao") 40 :=
  (readsRight_iff psManifest ⟨by decide, by decide +kernel⟩ 40).mpr (by decide +kernel)

/-- The shell finds no name in the manifest of `ps`. -/
theorem ps_unnamed : ¬ ReadsRight psManifest (ascii "nome") 40 ∧ ¬ ReadsRight psManifest (ascii "kormi") 40 := by
  refine ⟨fun h => ?_, fun h => ?_⟩
  · have hvalue := h.value
    rw [manKey_nil _ isKey_nome] at hvalue
    revert hvalue
    decide +kernel
  · have hline := h.line
    rw [manKeyLine_none _ isKey_kormi, modFlagLine_eq _ isKey_kormi] at hline
    revert hline
    decide +kernel

end Siathos.Praxia
