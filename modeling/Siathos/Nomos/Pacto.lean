import Mathlib.Data.List.Induction
import Siathos.Lib.Buffer
import Siathos.Lib.Words
import Siathos.Nomos.Scan

/-!
# The lines of a contract (`parse_line`)

A line of a `.pacto` file goes through two local arrays into the arrays of a contract. A contract that is
written out and read again should be the same.
-/

open Lib

namespace Siathos.Nomos

/-! ## The arrays -/

/-- `contract_t`, with its arrays of 64 and 256 bytes. Nothing writes the last byte of `caminho`. -/
structure ContractT where
  nome : Buf
  caminho : Buf
  leitura : Bool
  escrita : Bool
  execucao : Bool
  voluntario : Bool
  revogavel : Bool
  ativo : Bool
  capsReq : BitVec 64
  caminho_end : caminho 255 = 0

/-- The contract, and the local arrays of `parse_line`, each of 256 bytes. -/
structure Parsing where
  tmp : Buf
  val : Buf
  contract : ContractT

def ContractT.setCaminho (c : ContractT) (val : CStr) : ContractT :=
  { c with
    caminho := c.caminho.write 0 (strncpy 255 val)
    caminho_end := by rw [Buf.write_after (by simp)]; exact c.caminho_end }

def ContractT.setNome (c : ContractT) (val : CStr) : ContractT := { c with nome := c.nome.write 0 (strncpy 64 val) }

/-- `clear_contract`. -/
def ContractT.clear (c : ContractT) : ContractT where
  nome := c.nome.write 0 [0]
  caminho := c.caminho.write 0 [0]
  leitura := false
  escrita := false
  execucao := false
  voluntario := true
  revogavel := true
  ativo := false
  capsReq := 0
  caminho_end := by rw [Buf.write_after (by simp)]; exact c.caminho_end

/-- The tests of `parse_line`, each against the names of a field. -/
def ContractT.assign (c : ContractT) (key val : CStr) : ContractT :=
  if [ascii "caminho", ascii "pasta", ascii "path"].contains key then c.setCaminho val
  else if [ascii "nome", ascii "titulo"].contains key then c.setNome val
  else if [ascii "leitura", ascii "read"].contains key then { c with leitura := affirms val }
  else if [ascii "escrita", ascii "write"].contains key then { c with escrita := affirms val }
  else if [ascii "execucao", ascii "exec"].contains key then { c with execucao := affirms val }
  else if [ascii "voluntario"].contains key then { c with voluntario := affirms val }
  else if [ascii "revogavel"].contains key then { c with revogavel := affirms val }
  else c

/-- What stands in `tmp` before the blanks at its end are cleared. -/
def rawKey (line : CStr) : CStr := ((line.dropWhile blank).takeWhile (· != 0x3D)).take 255

/-- `parse_line`, with its arrays. -/
def Parsing.parseLine (s : Parsing) (line : CStr) : Parsing where
  tmp := s.tmp.write 0 (strncpy ((rawKey line).length + 1) (lineKey line))
  val := s.val.write 0 (lineValue line ++ [0])
  contract := s.contract.assign (lineKey line) (lineValue line)

/-- The loop over the lines of a file. -/
def Parsing.content (s : Parsing) (data : List UInt8) : Parsing := (contentLines data).foldl Parsing.parseLine s

/-! ## The contract of the scan -/

def ContractT.shown (c : ContractT) : Contract :=
  ⟨c.nome.cstr 64, c.caminho.cstr 256, c.leitura, c.escrita, c.execucao, c.voluntario, c.revogavel, c.ativo,
    c.capsReq⟩

/-- A copy of at most `m` bytes without a NUL reads back in the first `n` bytes. -/
theorem cstr_strncpy {b : Buf} {m n : Nat} {s : CStr} (h : 0 ∉ s) (hmn : m ≤ n) (hend : m < n → b m = 0) :
    (b.write 0 (strncpy m s)).cstr n = s.take m := by
  by_cases hlen : s.length < m
  · obtain ⟨k, hk⟩ : ∃ k, m - s.length = k + 1 := ⟨m - s.length - 1, by omega⟩
    rw [strncpy, List.take_of_length_le (by omega), hk, List.replicate_succ, Buf.cstr_write _ (by simp; omega)]
    exact cString_whole h
  · have hcopy : strncpy m s = s.take m := by
      rw [strncpy, show m - s.length = 0 by omega, List.replicate_zero, List.append_nil]
    have hm : (s.take m).length = m := by
      rw [List.length_take]
      omega
    rw [hcopy, Buf.cstr, Buf.bytes_write_drop b (by omega), hm]
    refine takeWhile_eq_iff.mpr ⟨fun hmem => h (List.mem_of_mem_take hmem), ?_⟩
    rw [List.head?_drop]
    by_cases hmn' : m < n
    · simp [Buf.bytes, hmn', hend hmn']
    · simp [Buf.bytes, show n ≤ m by omega]

theorem length_lineValue (line : CStr) : (lineValue line).length ≤ 255 := by
  unfold lineValue
  dsimp only
  split <;> exact List.length_take_le _ _

theorem shown_parseLine (s : Parsing) {line : CStr} (h : 0 ∉ line) :
    (s.parseLine line).contract.shown = parseLine s.contract.shown line := by
  have hval : 0 ∉ lineValue line := fun hmem => h ((lineValue_sublist line).subset hmem)
  have hnome : (s.contract.setNome (lineValue line)).nome.cstr 64 = (lineValue line).take 64 :=
    cstr_strncpy hval (by omega) (by omega)
  have hcaminho : (s.contract.setCaminho (lineValue line)).caminho.cstr 256 = lineValue line := by
    have hcopy := cstr_strncpy (b := s.contract.caminho) (n := 256) hval (show 255 ≤ 256 by omega)
      fun _ => s.contract.caminho_end
    rwa [List.take_of_length_le (length_lineValue line)] at hcopy
  unfold Parsing.parseLine ContractT.assign parseLine
  dsimp only
  split_ifs
  · rw [ContractT.shown, hcaminho]
    rfl
  · rw [ContractT.shown, hnome]
    rfl
  all_goals rfl

theorem not_mem_of_contentLines {data line : List UInt8} (h : line ∈ contentLines data) : 0 ∉ line :=
  fun hmem => (oneLine_splitOn (List.mem_of_mem_filter h) 0 hmem).1 rfl

theorem shown_content (s : Parsing) (data : List UInt8) :
    (s.content data).contract.shown = (contentLines data).foldl parseLine s.contract.shown := by
  have hall : ∀ line ∈ contentLines data, 0 ∉ line := fun _ => not_mem_of_contentLines
  unfold Parsing.content
  generalize contentLines data = lines at hall
  induction lines generalizing s with
  | nil => rfl
  | cons line lines ih =>
    rw [List.foldl_cons, List.foldl_cons, ih _ fun l hl => hall l (List.mem_cons_of_mem _ hl),
      shown_parseLine s (hall line List.mem_cons_self)]

/-! ## The ends of the arrays -/

/-- The strings end in their arrays, and behind the arrays nothing has changed. -/
structure Safe (s s' : Parsing) : Prop where
  nome : ∃ i < 64, s'.contract.nome i = 0
  caminho : ∃ i < 256, s'.contract.caminho i = 0
  behindNome : ∀ i, 64 ≤ i → s'.contract.nome i = s.contract.nome i
  behindCaminho : ∀ i, 256 ≤ i → s'.contract.caminho i = s.contract.caminho i
  behindTmp : ∀ i, 256 ≤ i → s'.tmp i = s.tmp i
  behindVal : ∀ i, 256 ≤ i → s'.val i = s.val i

/-- The line gives the name. -/
def namesContract (line : CStr) : Bool := [ascii "nome", ascii "titulo"].contains (lineKey line)

/-- The last line that gives the name has one of less than 64 bytes. -/
def NameFits (data : List UInt8) : Prop :=
  ∀ line ∈ ((contentLines data).filter namesContract).getLast?, (lineValue line).length < 64

theorem parseLine_behind (s : Parsing) (line : CStr) {i : Nat} :
    (64 ≤ i → (s.parseLine line).contract.nome i = s.contract.nome i) ∧
    (256 ≤ i → (s.parseLine line).contract.caminho i = s.contract.caminho i ∧ (s.parseLine line).tmp i = s.tmp i ∧
      (s.parseLine line).val i = s.val i) := by
  have hraw : (rawKey line).length ≤ 255 := List.length_take_le _ _
  have hval := length_lineValue line
  have htmp : 256 ≤ i → (s.parseLine line).tmp i = s.tmp i := fun hi => Buf.write_after (by simp; omega) _
  have hval' : 256 ≤ i → (s.parseLine line).val i = s.val i := fun hi => Buf.write_after (by simp; omega) _
  have hrecord : (64 ≤ i → (s.parseLine line).contract.nome i = s.contract.nome i) ∧
      (256 ≤ i → (s.parseLine line).contract.caminho i = s.contract.caminho i) := by
    simp only [Parsing.parseLine, ContractT.assign]
    split_ifs
    · exact ⟨fun _ => rfl, fun hi => Buf.write_after (by simp; omega) _⟩
    · exact ⟨fun hi => Buf.write_after (by simpa using hi) _, fun _ => rfl⟩
    all_goals exact ⟨fun _ => rfl, fun _ => rfl⟩
  exact ⟨hrecord.1, fun hi => ⟨hrecord.2 hi, htmp hi, hval' hi⟩⟩

theorem parseLine_nome (s : Parsing) {line : CStr} (h : 0 ∉ line) :
    (∃ i < 64, (s.parseLine line).contract.nome i = 0) ↔
      if namesContract line then (lineValue line).length < 64 else ∃ i < 64, s.contract.nome i = 0 := by
  have hval : 0 ∉ lineValue line := fun hmem => h ((lineValue_sublist line).subset hmem)
  have hset : (∃ i < 64, (s.contract.setNome (lineValue line)).nome i = 0) ↔ (lineValue line).length < 64 := by
    have hcopy : (s.contract.setNome (lineValue line)).nome.cstr 64 = (lineValue line).take 64 :=
      cstr_strncpy hval (by omega) (by omega)
    have hfull := Buf.le_length_cstr (b := (s.contract.setNome (lineValue line)).nome) (Nat.le_refl 64)
    rw [hcopy, List.length_take] at hfull
    rw [← not_iff_not]
    push Not
    rw [← hfull]
    omega
  by_cases hname : namesContract line = true
  · have hother : [ascii "caminho", ascii "pasta", ascii "path"].contains (lineKey line) = false := by
      have hmem : lineKey line ∈ [ascii "nome", ascii "titulo"] := by simpa [namesContract] using hname
      simp only [List.mem_cons, List.not_mem_nil, or_false] at hmem
      rcases hmem with hkey | hkey <;> rw [hkey] <;> decide
    have hkey : [ascii "nome", ascii "titulo"].contains (lineKey line) = true := hname
    rw [if_pos hname, ← hset, Parsing.parseLine, ContractT.assign, if_neg (by rw [hother]; decide), if_pos hkey]
  · rw [if_neg hname]
    have hkept : (s.parseLine line).contract.nome = s.contract.nome := by
      simp only [Parsing.parseLine, ContractT.assign]
      split_ifs with _ hkey
      · rfl
      · exact absurd hkey hname
      all_goals rfl
    rw [hkept]

theorem foldl_nome (s : Parsing) (lines : List CStr) (h : ∀ line ∈ lines, 0 ∉ line) :
    (∃ i < 64, (lines.foldl Parsing.parseLine s).contract.nome i = 0) ↔
      match (lines.filter namesContract).getLast? with
      | some line => (lineValue line).length < 64
      | none => ∃ i < 64, s.contract.nome i = 0 := by
  induction lines using List.reverseRecOn with
  | nil => rfl
  | append_singleton lines line ih =>
    rw [List.foldl_append, List.foldl_cons, List.foldl_nil, parseLine_nome _ (h line (by simp)),
      ih fun l hl => h l (List.mem_append_left _ hl), List.filter_append]
    by_cases hname : namesContract line = true <;> simp [hname]

theorem content_safe_iff (s : Parsing) (hs : ∃ i < 64, s.contract.nome i = 0) (data : List UInt8) :
    Safe s (s.content data) ↔ NameFits data := by
  have hlines : ∀ line ∈ contentLines data, 0 ∉ line := fun _ => not_mem_of_contentLines
  have hnome : (∃ i < 64, (s.content data).contract.nome i = 0) ↔ NameFits data := by
    rw [Parsing.content, foldl_nome s _ hlines, NameFits]
    cases ((contentLines data).filter namesContract).getLast? with
    | none => simpa using hs
    | some line => simp
  have hbehind : ∀ (lines : List CStr) (i : Nat),
      (64 ≤ i → (lines.foldl Parsing.parseLine s).contract.nome i = s.contract.nome i) ∧
      (256 ≤ i → (lines.foldl Parsing.parseLine s).contract.caminho i = s.contract.caminho i ∧
        (lines.foldl Parsing.parseLine s).tmp i = s.tmp i ∧ (lines.foldl Parsing.parseLine s).val i = s.val i) := by
    intro lines i
    induction lines using List.reverseRecOn with
    | nil => exact ⟨fun _ => rfl, fun _ => ⟨rfl, rfl, rfl⟩⟩
    | append_singleton lines line ih =>
      rw [List.foldl_append, List.foldl_cons, List.foldl_nil]
      obtain ⟨hstep, hsteps⟩ := parseLine_behind (lines.foldl Parsing.parseLine s) line (i := i)
      refine ⟨fun hi => (hstep hi).trans (ih.1 hi), fun hi => ?_⟩
      obtain ⟨hcaminho, htmp, hval⟩ := hsteps hi
      obtain ⟨ihcaminho, ihtmp, ihval⟩ := ih.2 hi
      exact ⟨hcaminho.trans ihcaminho, htmp.trans ihtmp, hval.trans ihval⟩
  constructor
  · exact fun hsafe => hnome.mp hsafe.nome
  · intro hfits
    exact ⟨hnome.mpr hfits, ⟨255, by omega, (s.content data).contract.caminho_end⟩, fun i hi => (hbehind _ i).1 hi,
      fun i hi => ((hbehind _ i).2 hi).1, fun i hi => ((hbehind _ i).2 hi).2.1, fun i hi => ((hbehind _ i).2 hi).2.2⟩

/-! ## Contracts written out -/

inductive Field
  | caminho | nome | leitura | escrita | execucao | voluntario | revogavel

/-- The names of a field. -/
def Field.keys : Field → List CStr
  | caminho => [ascii "caminho", ascii "pasta", ascii "path"]
  | nome => [ascii "nome", ascii "titulo"]
  | leitura => [ascii "leitura", ascii "read"]
  | escrita => [ascii "escrita", ascii "write"]
  | execucao => [ascii "execucao", ascii "exec"]
  | voluntario => [ascii "voluntario"]
  | revogavel => [ascii "revogavel"]

def quote : UInt8 := 0x22

/-- What a file says of a contract. -/
structure Pact where
  nome : CStr
  caminho : CStr
  leitura : Bool
  escrita : Bool
  execucao : Bool
  voluntario : Bool
  revogavel : Bool
  nome_lt : nome.length < 64
  caminho_lt : caminho.length < 256
  nome_plain : ∀ c ∈ nome, c ≠ 0 ∧ c ≠ newline ∧ c ≠ quote
  caminho_plain : ∀ c ∈ caminho, c ≠ 0 ∧ c ≠ newline ∧ c ≠ quote

def Pact.written (p : Pact) : Field → CStr
  | .caminho => quote :: (p.caminho ++ [quote])
  | .nome => quote :: (p.nome ++ [quote])
  | .leitura => word p.leitura
  | .escrita => word p.escrita
  | .execucao => word p.execucao
  | .voluntario => word p.voluntario
  | .revogavel => word p.revogavel
where
  word (b : Bool) : CStr := ascii (if b then "true" else "false")

/-- A line `key = value`, with blanks before and behind the key and before the value, and blanks or a CR at
its end. -/
structure FieldLine where
  field : Field
  key : CStr
  blanks : Fin 3 → CStr
  trail : CStr
  isKey : key ∈ field.keys
  allBlank : ∀ i, ∀ c ∈ blanks i, blank c = true
  trail_blank : ∀ c ∈ trail, blank c = true ∨ c = 0x0D

def FieldLine.text (p : Pact) (l : FieldLine) : CStr :=
  l.blanks 0 ++ (l.key ++ (l.blanks 1 ++ 0x3D :: (l.blanks 2 ++ (p.written l.field ++ l.trail))))

/-- A comment, the head of a section, or an empty line. -/
structure OtherLine where
  text : CStr
  skipped : text = [] ∨ text.head? = some 0x23 ∨ text.head? = some 0x5B
  oneLine : OneLine text

inductive PactLine
  | field (l : FieldLine)
  | other (l : OtherLine)

def PactLine.text (p : Pact) : PactLine → CStr
  | field l => l.text p
  | other l => l.text

def renderedText (p : Pact) (lines : List PactLine) : CStr := [newline].intercalate (lines.map (PactLine.text p))

/-- Each field has a line. -/
def Complete (lines : List PactLine) : Prop := ∀ f, ∃ l, PactLine.field l ∈ lines ∧ l.field = f

/-- The field of the contract is that of the file, down to the zeros behind a string. -/
def Holds (p : Pact) (c : ContractT) : Field → Prop
  | .caminho => c.caminho.bytes 256 = strncpy 256 p.caminho
  | .nome => c.nome.bytes 64 = strncpy 64 p.nome
  | .leitura => c.leitura = p.leitura
  | .escrita => c.escrita = p.escrita
  | .execucao => c.execucao = p.execucao
  | .voluntario => c.voluntario = p.voluntario
  | .revogavel => c.revogavel = p.revogavel

/-! ## A line read again -/

/-- What a line needs of a key: it keeps it in `tmp`, and finds its ends. -/
structure KeyName (key : CStr) : Prop where
  ne : key ≠ []
  head : key.head?.all (fun c => !blank c && c != 0x23 && c != 0x5B) = true
  last : key.getLast?.all (fun c => !blank c) = true
  short : key.length ≤ 255
  plain : ∀ c ∈ key, c ≠ 0x3D ∧ c ≠ 0 ∧ c ≠ newline

theorem Field.keyName {f : Field} {key : CStr} (h : key ∈ f.keys) : KeyName key := by
  have hall : ∀ key ∈ f.keys, key ≠ [] ∧ key.head?.all (fun c => !blank c && c != 0x23 && c != 0x5B) = true ∧
      key.getLast?.all (fun c => !blank c) = true ∧ key.length ≤ 255 ∧ ∀ c ∈ key, c ≠ 0x3D ∧ c ≠ 0 ∧ c ≠ newline := by
    cases f <;> decide +kernel
  obtain ⟨hne, hhead, hlast, hshort, hplain⟩ := hall key h
  exact ⟨hne, hhead, hlast, hshort, hplain⟩

theorem dropWhile_blank {b s : CStr} (hb : ∀ c ∈ b, blank c = true) (hs : s.head?.all (fun c => !blank c) = true) :
    (b ++ s).dropWhile blank = s := by
  rw [List.dropWhile_append_of_pos hb]
  cases s with
  | nil => rfl
  | cons c s => exact List.dropWhile_cons_of_neg (by simpa using hs)

theorem trimRight_append {key b : CStr} (hkey : key.getLast?.all (fun c => !blank c) = true)
    (hb : ∀ c ∈ b, blank c = true) :
    trimRight (key ++ b) = key := by
  rw [trimRight, List.reverse_append, dropWhile_blank (by simpa using hb) (by rwa [List.head?_reverse]),
    List.reverse_reverse]

theorem KeyName.head_blank {key : CStr} (h : KeyName key) (rest : CStr) :
    (key ++ rest).head?.all (fun c => !blank c) = true := by
  obtain ⟨c, key, rfl⟩ := List.exists_cons_of_ne_nil h.ne
  have hc := h.head
  simp only [List.head?_cons, Option.all_some, Bool.and_eq_true] at hc
  simpa using hc.1.1

theorem KeyName.noEquals {key after : CStr} (h : KeyName key) (hafter : ∀ c ∈ after, blank c = true) :
    ∀ c ∈ key ++ after, (c != 0x3D) = true := by
  intro c hc
  rcases List.mem_append.mp hc with hc | hc
  · simpa using (h.plain c hc).1
  · have hblank := hafter c hc
    rw [bne_iff_ne]
    rintro rfl
    revert hblank
    decide

theorem lineKey_text {before key after rest : CStr} (hbefore : ∀ c ∈ before, blank c = true) (hkey : KeyName key)
    (hafter : ∀ c ∈ after, blank c = true) : lineKey (before ++ (key ++ (after ++ 0x3D :: rest))) = key := by
  rw [lineKey, dropWhile_blank hbefore (hkey.head_blank _), ← List.append_assoc,
    List.takeWhile_append_of_pos (hkey.noEquals hafter),
    List.takeWhile_cons_of_neg (by decide), List.append_nil, List.take_append, List.take_of_length_le hkey.short,
    trimRight_append hkey.last fun c hc => hafter c (List.mem_of_mem_take hc)]

/-- What stands behind the '='. -/
def valueAt (p : CStr) : CStr :=
  if p.head? = some 0x22 then ((p.drop 1).takeWhile (· != 0x22)).take 255
  else (p.takeWhile fun c => c != newline && c != 0x0D).take 255

theorem lineValue_text {before key after gap rest : CStr} (hbefore : ∀ c ∈ before, blank c = true) (hkey : KeyName key)
    (hafter : ∀ c ∈ after, blank c = true) (hgap : ∀ c ∈ gap, blank c = true)
    (hrest : rest.head?.all (fun c => !blank c) = true) :
    lineValue (before ++ (key ++ (after ++ 0x3D :: (gap ++ rest)))) = valueAt rest := by
  have hp : (((((before ++ (key ++ (after ++ 0x3D :: (gap ++ rest)))).dropWhile blank).dropWhile
    (· != 0x3D)).drop 1).dropWhile
      blank) = rest := by
    rw [dropWhile_blank hbefore (hkey.head_blank _), ← List.append_assoc,
      List.dropWhile_append_of_pos (hkey.noEquals hafter),
      List.dropWhile_cons_of_neg (by decide), List.drop_one, List.tail_cons, dropWhile_blank hgap hrest]
  rw [lineValue, hp, valueAt]

theorem valueAt_quoted {s : CStr} (h : ∀ c ∈ s, c ≠ 0 ∧ c ≠ newline ∧ c ≠ quote) (hlen : s.length ≤ 255)
    (trail : CStr) :
    valueAt (quote :: (s ++ [quote]) ++ trail) = s := by
  have hfree : quote ∉ s := fun hmem => (h quote hmem).2.2 rfl
  have htake : (s ++ quote :: trail).takeWhile (· != quote) = s := takeWhile_eq_iff.mpr ⟨hfree, rfl⟩
  rw [valueAt, if_pos (show (quote :: (s ++ [quote]) ++ trail).head? = some 0x22 from rfl),
    show (quote :: (s ++ [quote]) ++ trail).drop 1 = s ++ quote :: trail by simp]
  exact (congrArg (List.take 255) htake).trans (List.take_of_length_le hlen)

theorem affirms_word (b : Bool) (trail : CStr) : affirms (valueAt (Pact.written.word b ++ trail)) = b := by
  cases b <;> simp [valueAt, affirms, Pact.written.word, ascii, newline]

/-- What a line leaves that gives a value to a field. -/
def ContractT.store (c : ContractT) (val : CStr) : Field → ContractT
  | .caminho => c.setCaminho val
  | .nome => c.setNome val
  | .leitura => { c with leitura := affirms val }
  | .escrita => { c with escrita := affirms val }
  | .execucao => { c with execucao := affirms val }
  | .voluntario => { c with voluntario := affirms val }
  | .revogavel => { c with revogavel := affirms val }

theorem assign_key {f : Field} {key : CStr} (h : key ∈ f.keys) (c : ContractT) (val : CStr) :
    c.assign key val = c.store val f := by
  cases f <;> simp only [Field.keys, List.mem_cons, List.not_mem_nil, or_false] at h
  · rcases h with rfl | rfl | rfl <;> rfl
  · rcases h with rfl | rfl <;> rfl
  · rcases h with rfl | rfl <;> rfl
  · rcases h with rfl | rfl <;> rfl
  · rcases h with rfl | rfl <;> rfl
  · subst h
    rfl
  · subst h
    rfl

theorem bytes_setCaminho (c : ContractT) {val : CStr} (h : val.length < 256) :
    (c.setCaminho val).caminho.bytes 256 = strncpy 256 val := by
  obtain ⟨k, hk⟩ : ∃ k, 256 - val.length = k + 1 := ⟨255 - val.length, by omega⟩
  have hlast : (c.caminho.bytes 256).drop 255 = [0] := by
    rw [Buf.bytes_succ, List.drop_left' (by simp), c.caminho_end]
  have hwrite := Buf.bytes_write_drop c.caminho (l := strncpy 255 val) (n := 256) (by simp)
  rw [length_strncpy, hlast] at hwrite
  refine hwrite.trans ?_
  rw [strncpy, strncpy, List.take_of_length_le (by omega), List.take_of_length_le (by omega), hk,
    show 255 - val.length = k by omega, List.replicate_succ', List.append_assoc]

theorem bytes_setNome (c : ContractT) (val : CStr) : (c.setNome val).nome.bytes 64 = strncpy 64 val := by
  have hwrite := Buf.bytes_write_self c.nome (strncpy 64 val) []
  rwa [List.append_nil, length_strncpy] at hwrite

theorem store_holds (p : Pact) (c : ContractT) (trail : CStr) (f : Field) :
    Holds p (c.store (valueAt (p.written f ++ trail)) f) f ∧
      ∀ g, Holds p c g → Holds p (c.store (valueAt (p.written f ++ trail)) f) g := by
  have hsame : Holds p (c.store (valueAt (p.written f ++ trail)) f) f := by
    cases f with
    | caminho =>
      rw [Pact.written, valueAt_quoted p.caminho_plain (Nat.le_of_lt_succ p.caminho_lt)]
      exact bytes_setCaminho c p.caminho_lt
    | nome =>
      have hlt := p.nome_lt
      rw [Pact.written, valueAt_quoted p.nome_plain (by omega)]
      exact bytes_setNome c p.nome
    | leitura => exact affirms_word p.leitura trail
    | escrita => exact affirms_word p.escrita trail
    | execucao => exact affirms_word p.execucao trail
    | voluntario => exact affirms_word p.voluntario trail
    | revogavel => exact affirms_word p.revogavel trail
  refine ⟨hsame, fun g hg => ?_⟩
  by_cases heq : f = g
  · rw [← heq]
    exact hsame
  · cases f <;> cases g <;> first | exact absurd rfl heq | exact hg

theorem written_head (p : Pact) (f : Field) (trail : CStr) :
    (p.written f ++ trail).head?.all (fun c => !blank c) = true := by
  have hword : ∀ b, (Pact.written.word b ++ trail).head?.all (fun c => !blank c) = true := by
    intro b
    cases b <;> rfl
  cases f <;> first | rfl | exact hword _

theorem parseLine_field (p : Pact) (l : FieldLine) (s : Parsing) :
    Holds p (s.parseLine (l.text p)).contract l.field ∧
      ∀ f, Holds p s.contract f → Holds p (s.parseLine (l.text p)).contract f := by
  have hline : (s.parseLine (l.text p)).contract =
    s.contract.store (valueAt (p.written l.field ++ l.trail)) l.field := by
    have hkey := Field.keyName l.isKey
    rw [Parsing.parseLine, FieldLine.text, lineKey_text (l.allBlank 0) hkey (l.allBlank 1),
      lineValue_text (l.allBlank 0) hkey (l.allBlank 1) (l.allBlank 2) (written_head p l.field l.trail),
      assign_key l.isKey]
  rw [hline]
  exact store_holds p s.contract l.trail l.field

/-! ## A file read again -/

/-- The lines of a written contract that are read are those of its fields. -/
def fieldTexts (p : Pact) (lines : List PactLine) : List CStr :=
  (lines.map (PactLine.text p)).filter fun l => l ≠ [] && l.head? ≠ some 0x23 && l.head? ≠ some 0x5B

theorem FieldLine.oneLine (p : Pact) (l : FieldLine) : OneLine (l.text p) := by
  have hblank : ∀ c, blank c = true → c ≠ 0 ∧ c ≠ newline := by
    intro c hc
    refine ⟨?_, ?_⟩
    all_goals
      rintro rfl
      revert hc
      decide
  have hwritten : OneLine (p.written l.field) := by
    have hquoted : ∀ s : CStr, (∀ c ∈ s, c ≠ 0 ∧ c ≠ newline ∧ c ≠ quote) → OneLine (quote :: (s ++ [quote])) := by
      intro s hs c hc
      rcases List.mem_cons.mp hc with rfl | hc
      · decide
      · rcases List.mem_append.mp hc with hc | hc
        · exact ⟨(hs c hc).1, (hs c hc).2.1⟩
        · rw [List.mem_singleton.mp hc]
          decide
    have hword : ∀ b, ∀ c ∈ Pact.written.word b, c ≠ 0 ∧ c ≠ newline := by decide +kernel
    cases l.field <;> first | exact hquoted _ p.caminho_plain | exact hquoted _ p.nome_plain | exact hword _
  intro c hc
  simp only [FieldLine.text, List.mem_append, List.mem_cons] at hc
  rcases hc with hc | hc | hc | rfl | hc | hc | hc
  · exact hblank c (l.allBlank 0 c hc)
  · exact ((Field.keyName l.isKey).plain c hc).2
  · exact hblank c (l.allBlank 1 c hc)
  · decide
  · exact hblank c (l.allBlank 2 c hc)
  · exact hwritten c hc
  · rcases l.trail_blank c hc with hc | rfl
    · exact hblank c hc
    · decide

theorem FieldLine.read (p : Pact) (l : FieldLine) :
    (l.text p ≠ [] && (l.text p).head? ≠ some 0x23 && (l.text p).head? ≠ some 0x5B) = true := by
  have hkey := Field.keyName l.isKey
  obtain ⟨k, key, hk⟩ := List.exists_cons_of_ne_nil hkey.ne
  have hhead := hkey.head
  rw [hk] at hhead
  cases hb : l.blanks 0 with
  | nil =>
    simp only [List.head?_cons, Option.all_some, Bool.and_eq_true, bne_iff_ne] at hhead
    simp [FieldLine.text, hb, hk, hhead]
  | cons c rest =>
    have hc := l.allBlank 0 c (by rw [hb]; simp)
    have hne : c ≠ 0x23 ∧ c ≠ 0x5B := by
      refine ⟨?_, ?_⟩
      all_goals
        rintro rfl
        revert hc
        decide
    simp [FieldLine.text, hb, hne]

theorem not_mem_intercalate {ls : List CStr} {c : UInt8} (h : ∀ l ∈ ls, c ∉ l) (hc : c ≠ newline) :
    c ∉ [newline].intercalate ls := by
  induction ls with
  | nil => simp
  | cons l ls ih =>
    have hl := h l List.mem_cons_self
    have hls := ih fun m hm => h m (List.mem_cons_of_mem _ hm)
    by_cases hnil : ls = []
    · simpa [hnil] using hl
    · rw [List.intercalate_cons_of_ne_nil hnil]
      simp [hl, hc, hls]

theorem contentLines_rendered (p : Pact) {lines : List PactLine} (h : lines ≠ []) :
    contentLines (renderedText p lines) = fieldTexts p lines := by
  have hone : ∀ l ∈ lines.map (PactLine.text p), OneLine l := by
    intro l hl
    obtain ⟨line, -, rfl⟩ := List.mem_map.mp hl
    cases line with
    | field l => exact l.oneLine p
    | other l => exact l.oneLine
  have hnul : cString (renderedText p lines) = renderedText p lines :=
    cString_whole (not_mem_intercalate (fun l hl hmem => (hone l hl 0 hmem).1 rfl) (by decide))
  rw [contentLines, hnul, renderedText,
    List.splitOn_intercalate _ (fun l hl hmem => (hone l hl _ hmem).2 rfl) (by simpa using h)]
  rfl

theorem foldl_rendered (p : Pact) (lines : List PactLine) (s : Parsing) :
    (∀ l, PactLine.field l ∈ lines → Holds p ((fieldTexts p lines).foldl Parsing.parseLine s).contract l.field) ∧
      ∀ f, Holds p s.contract f → Holds p ((fieldTexts p lines).foldl Parsing.parseLine s).contract f := by
  induction lines generalizing s with
  | nil => exact ⟨fun l hl => absurd hl List.not_mem_nil, fun f hf => hf⟩
  | cons line lines ih =>
    cases line with
    | field l =>
      have hcons : fieldTexts p (PactLine.field l :: lines) = l.text p :: fieldTexts p lines :=
        List.filter_cons_of_pos (l.read p)
      obtain ⟨hfields, hkept⟩ := ih (s.parseLine (l.text p))
      obtain ⟨hhere, hothers⟩ := parseLine_field p l s
      rw [hcons, List.foldl_cons]
      refine ⟨fun l' hl' => ?_, fun f hf => hkept f (hothers f hf)⟩
      rcases List.mem_cons.mp hl' with heq | hl'
      · obtain rfl := PactLine.field.inj heq
        exact hkept l'.field hhere
      · exact hfields l' hl'
    | other l =>
      have hcons : fieldTexts p (PactLine.other l :: lines) = fieldTexts p lines := by
        refine List.filter_cons_of_neg ?_
        rcases l.skipped with hskip | hskip | hskip <;> simp [PactLine.text, hskip]
      rw [hcons]
      obtain ⟨hfields, hkept⟩ := ih s
      refine ⟨fun l' hl' => ?_, hkept⟩
      rcases List.mem_cons.mp hl' with heq | hl'
      · cases heq
      · exact hfields l' hl'

/-- The arrays are kept exactly where the name fits, and contracts that are written out are read as they are. -/
theorem pacto_right_iff (s : Parsing) (hs : ∃ i < 64, s.contract.nome i = 0) :
    (∀ data, Safe s (s.content data) ↔ NameFits data) ∧
    ∀ (p : Pact) (lines : List PactLine), Complete lines →
      ∀ f, Holds p (s.content (renderedText p lines)).contract f := by
  refine ⟨content_safe_iff s hs, fun p lines hcomplete f => ?_⟩
  have hne : lines ≠ [] := by
    rintro rfl
    obtain ⟨l, hl, -⟩ := hcomplete .nome
    exact absurd hl List.not_mem_nil
  obtain ⟨l, hl, rfl⟩ := hcomplete f
  rw [Parsing.content, contentLines_rendered p hne]
  exact (foldl_rendered p lines s).1 l hl

/-- Arrays of zeros. -/
def blankParsing : Parsing :=
  ⟨fun _ => 0, fun _ => 0, ⟨fun _ => 0, fun _ => 0, false, false, false, true, true, false, 0, rfl⟩⟩

/-- The contract that the system brings along. -/
def idiosPact : Pact where
  nome := ascii "Acesso ao lar do individuo"
  caminho := ascii "/idios"
  leitura := true
  escrita := true
  execucao := false
  voluntario := true
  revogavel := true
  nome_lt := by decide
  caminho_lt := by decide
  nome_plain := by decide +kernel
  caminho_plain := by decide +kernel

def idiosLines : List PactLine :=
  [.other ⟨ascii "[titulo]", by decide, by unfold OneLine; decide +kernel⟩, line .nome "nome" (by decide +kernel),
    .other ⟨[], by decide, by unfold OneLine; decide +kernel⟩, line .caminho "caminho" (by decide +kernel),
    line .leitura "leitura" (by decide +kernel),
    line .escrita "escrita" (by decide +kernel), line .execucao "execucao" (by decide +kernel),
    line .voluntario "voluntario" (by decide +kernel),
    line .revogavel "revogavel" (by decide +kernel)]
where
  line (f : Field) (key : String) (h : ascii key ∈ f.keys) : PactLine :=
    .field ⟨f, ascii key, fun i => if i = 0 then [] else [0x20], [], h, by decide +kernel, by simp⟩

theorem idiosLines_complete : Complete idiosLines := by
  intro f
  have hmem : ∀ line ∈ idiosLines, ∀ l, line = .field l → PactLine.field l ∈ idiosLines := by
    rintro _ h l rfl
    exact h
  cases f
  · exact ⟨_, hmem idiosLines[3] (List.getElem_mem _) _ rfl, rfl⟩
  · exact ⟨_, hmem idiosLines[1] (List.getElem_mem _) _ rfl, rfl⟩
  · exact ⟨_, hmem idiosLines[4] (List.getElem_mem _) _ rfl, rfl⟩
  · exact ⟨_, hmem idiosLines[5] (List.getElem_mem _) _ rfl, rfl⟩
  · exact ⟨_, hmem idiosLines[6] (List.getElem_mem _) _ rfl, rfl⟩
  · exact ⟨_, hmem idiosLines[7] (List.getElem_mem _) _ rfl, rfl⟩
  · exact ⟨_, hmem idiosLines[8] (List.getElem_mem _) _ rfl, rfl⟩

theorem pacto_right_idios : Safe blankParsing (blankParsing.content (renderedText idiosPact idiosLines)) ∧
    ∀ f, Holds idiosPact (blankParsing.content (renderedText idiosPact idiosLines)).contract f := by
  obtain ⟨hsafe, hread⟩ := pacto_right_iff blankParsing ⟨0, by omega, rfl⟩
  refine ⟨(hsafe _).mpr ?_, hread idiosPact idiosLines idiosLines_complete⟩
  unfold NameFits
  decide +kernel

/-- A name of 64 bytes is left without an end. -/
theorem pacto_unended : ¬ Safe blankParsing (blankParsing.content (ascii "nome = " ++ List.replicate 64 0x61)) := by
  rw [content_safe_iff blankParsing ⟨0, by omega, rfl⟩, NameFits]
  decide +kernel

end Siathos.Nomos
