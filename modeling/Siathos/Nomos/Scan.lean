import Mathlib.Data.List.TakeWhile
import Siathos.Fs.Ramfs
import Siathos.Nomos.Synallagma

/-!
# The contracts of `/synallagma` (`synallagma_scan_contracts`)

At boot each `.pacto` file of the folder becomes a contract. What the scan makes of any files has names
and paths of one line.
-/

open Lib Siathos.Fs

namespace Siathos.Nomos

def newline : UInt8 := 0x0A

def blank (c : UInt8) : Bool := c == 0x20 || c == 0x09

/-! ## A line of a file -/

def trimRight (s : CStr) : CStr := (s.reverse.dropWhile blank).reverse

/-- What stands before the '=', without blanks around it. -/
def lineKey (line : CStr) : CStr := trimRight (((line.dropWhile blank).takeWhile (· != 0x3D)).take 255)

/-- What stands behind the '=', in quotes or up to the end of the line. -/
def lineValue (line : CStr) : CStr :=
  let p := (((line.dropWhile blank).dropWhile (· != 0x3D)).drop 1).dropWhile blank
  if p.head? = some 0x22 then ((p.drop 1).takeWhile (· != 0x22)).take 255
  else (p.takeWhile fun c => c != newline && c != 0x0D).take 255

def affirms (val : CStr) : Bool := val.head?.any fun c => (ascii "t1sS").contains c

/-- `parse_line`. -/
def parseLine (c : Contract) (line : CStr) : Contract :=
  let key := lineKey line
  let val := lineValue line
  if [ascii "caminho", ascii "pasta", ascii "path"].contains key then { c with caminho := val }
  else if [ascii "nome", ascii "titulo"].contains key then { c with nome := val.take 64 }
  else if [ascii "leitura", ascii "read"].contains key then { c with leitura := affirms val }
  else if [ascii "escrita", ascii "write"].contains key then { c with escrita := affirms val }
  else if [ascii "execucao", ascii "exec"].contains key then { c with execucao := affirms val }
  else if [ascii "voluntario"].contains key then { c with voluntario := affirms val }
  else if [ascii "revogavel"].contains key then { c with revogavel := affirms val }
  else c

/-! ## The scan -/

def cString (s : List UInt8) : CStr := s.takeWhile (· != 0)

theorem cString_whole {s : List UInt8} (h : 0 ∉ s) : cString s = s :=
  List.takeWhile_eq_self_iff.mpr fun _ hc => bne_iff_ne.mpr fun heq => h (heq ▸ hc)

/-- The lines of a file that are read: all but empty ones, comments and sections. -/
def contentLines (data : List UInt8) : List CStr :=
  ((cString data).splitOn newline).filter fun l => l ≠ [] && l.head? ≠ some 0x23 && l.head? ≠ some 0x5B

def clearContract (name : CStr) : Contract := ⟨name.take 64, [], false, false, false, true, true, false, 0⟩

def readFile (ns : Nodes) (name : CStr) : Contract :=
  match fsRead ns (cut fsNameMax (ascii "/synallagma/" ++ name)) 2047 with
  | none => clearContract name
  | some data => (contentLines data).foldl parseLine (clearContract name)

/-- The contract of one file. Without a path of its own it protects the name of the file. -/
def readContract (ns : Nodes) (name : CStr) : Contract :=
  let c := readFile ns name
  { c with caminho := if c.caminho = [] then name.take 255 else c.caminho, ativo := true }

def skipSpaces (s : CStr) : CStr := s.dropWhile (· == 0x20)

/-- The name of a `.pacto` file that a line of the folder shows. -/
def pactoName (line : CStr) : Option CStr :=
  let p := skipSpaces line
  if (ascii "<ARQ>").isPrefixOf p then
    let name := skipSpaces (p.drop 5)
    if name.length > 6 ∧ (ascii ".pacto").isSuffixOf name then some name else none
  else none

def scanLine (ns : Nodes) (cs : List Contract) (line : CStr) : List Contract :=
  match pactoName line with
  | none => cs
  | some name => if cs.length < maxContracts then cs ++ [readContract ns name] else cs

/-- `synallagma_scan_contracts`. -/
def synallagmaScanContracts (ns : Nodes) : Synallagma :=
  ⟨((cString (fsList ns (ascii "/synallagma") 4096)).splitOn newline).foldl (scanLine ns) [],
    List.replicate maxContracts false⟩

/-! ## What the scan makes -/

/-- No NUL and no newline. -/
def OneLine (s : CStr) : Prop := ∀ c ∈ s, c ≠ 0 ∧ c ≠ newline

/-- A contract as the scan makes it. -/
structure Scanned (c : Contract) : Prop where
  nome : OneLine c.nome
  nome_le : c.nome.length ≤ 64
  caminho : OneLine c.caminho
  caminho_ne : c.caminho ≠ []
  ativo : c.ativo = true

theorem OneLine.sublist {s t : CStr} (h : OneLine s) (ht : t.Sublist s) : OneLine t :=
  fun c hc => h c (ht.subset hc)

theorem oneLine_splitOn {l s : CStr} (h : l ∈ (cString s).splitOn newline) : OneLine l := by
  intro c hc
  obtain ⟨hmem, hnl⟩ := mem_splitOn h hc
  have hnul : (c != 0) = true := List.mem_takeWhile_imp (p := (· != 0)) hmem
  exact ⟨by simpa using hnul, hnl⟩

theorem lineValue_sublist (line : CStr) : (lineValue line).Sublist line := by
  have hrest : ((((line.dropWhile blank).dropWhile (· != 0x3D)).drop 1).dropWhile blank).Sublist line :=
    (List.dropWhile_sublist _).trans ((List.drop_sublist 1 _).trans
      ((List.dropWhile_sublist _).trans (List.dropWhile_sublist _)))
  unfold lineValue
  dsimp only
  split
  · exact (List.take_sublist _ _).trans ((List.takeWhile_sublist _).trans ((List.drop_sublist 1 _).trans hrest))
  · exact (List.take_sublist _ _).trans ((List.takeWhile_sublist _).trans hrest)

theorem skipSpaces_sublist (s : CStr) : (skipSpaces s).Sublist s := List.dropWhile_sublist _

/-- What holds of a contract while its file is read. -/
structure Reading (c : Contract) : Prop where
  nome : OneLine c.nome
  nome_le : c.nome.length ≤ 64
  caminho : OneLine c.caminho

theorem Reading.parseLine {c : Contract} (h : Reading c) {line : CStr} (hline : OneLine line) :
    Reading (Nomos.parseLine c line) := by
  have hval : OneLine (lineValue line) := hline.sublist (lineValue_sublist line)
  unfold Nomos.parseLine
  dsimp only
  split
  · exact ⟨h.nome, h.nome_le, hval⟩
  split
  · exact ⟨hval.sublist (List.take_sublist _ _), List.length_take_le _ _, h.caminho⟩
  split_ifs
  all_goals exact ⟨h.nome, h.nome_le, h.caminho⟩

theorem Reading.foldl {c : Contract} (h : Reading c) {lines : List CStr} (hlines : ∀ l ∈ lines, OneLine l) :
    Reading (lines.foldl Nomos.parseLine c) := by
  induction lines generalizing c with
  | nil => exact h
  | cons l ls ih =>
    exact ih (h.parseLine (hlines l (List.mem_cons_self ..))) fun m hm => hlines m (List.mem_cons_of_mem _ hm)

theorem readContract_scanned (ns : Nodes) {name : CStr} (hname : OneLine name) (hne : name ≠ []) :
    Scanned (readContract ns name) := by
  have hstart : Reading (clearContract name) :=
    ⟨hname.sublist (List.take_sublist _ _), List.length_take_le _ _, fun _ hc => absurd hc List.not_mem_nil⟩
  have hread : Reading (readFile ns name) := by
    unfold readFile
    split
    · exact hstart
    · refine hstart.foldl fun l hl => ?_
      exact oneLine_splitOn (List.mem_of_mem_filter hl)
  refine ⟨hread.nome, hread.nome_le, ?_, ?_, rfl⟩
  · simp only [readContract]
    split
    · exact hname.sublist (List.take_sublist _ _)
    · exact hread.caminho
  · simp only [readContract]
    split
    · simpa using hne
    · assumption

theorem pactoName_some {line name : CStr} (hline : OneLine line) (h : pactoName line = some name) :
    OneLine name ∧ name ≠ [] := by
  unfold pactoName at h
  dsimp only at h
  split at h
  · split at h
    · next hlen =>
      obtain rfl := Option.some.inj h
      refine ⟨hline.sublist ?_, List.ne_nil_of_length_pos (by omega)⟩
      exact (skipSpaces_sublist _).trans ((List.drop_sublist 5 _).trans (skipSpaces_sublist _))
    · cases h
  · cases h

theorem synallagmaScanContracts_scanned (ns : Nodes) :
    (∀ c ∈ (synallagmaScanContracts ns).contracts, Scanned c) ∧
      (synallagmaScanContracts ns).contracts.length ≤ maxContracts ∧
      (synallagmaScanContracts ns).consented = List.replicate maxContracts false := by
  have hfold : ∀ (lines : List CStr) (cs : List Contract), (∀ l ∈ lines, OneLine l) →
      (∀ c ∈ cs, Scanned c) ∧ cs.length ≤ maxContracts →
      (∀ c ∈ lines.foldl (scanLine ns) cs, Scanned c) ∧ (lines.foldl (scanLine ns) cs).length ≤ maxContracts := by
    intro lines
    induction lines with
    | nil => exact fun cs _ h => h
    | cons l ls ih =>
      intro cs hlines hcs
      refine ih _ (fun m hm => hlines m (List.mem_cons_of_mem _ hm)) ?_
      unfold scanLine
      split
      · exact hcs
      · next name hname =>
        split
        · next hroom =>
          obtain ⟨hone, hne⟩ := pactoName_some (hlines l (List.mem_cons_self ..)) hname
          refine ⟨fun c hc => ?_, by rw [List.length_append]; exact hroom⟩
          rcases List.mem_append.mp hc with hc | hc
          · exact hcs.1 c hc
          · exact List.mem_singleton.mp hc ▸ readContract_scanned ns hone hne
        · exact hcs
  obtain ⟨hall, hlen⟩ :=
    hfold _ [] (fun l hl => oneLine_splitOn hl) ⟨fun _ hc => absurd hc List.not_mem_nil, Nat.zero_le _⟩
  exact ⟨hall, hlen, rfl⟩

end Siathos.Nomos
