import Siathos.Nomos.Folders
import Siathos.Syscall.Listing

/-!
# Which contracts the scan finds

`synallagma_scan_contracts` has the names of its files from the listing of the folder, and reads 2047 bytes of
each file.
-/

open Lib Siathos.Fs Siathos.Fsd Siathos.Syscall

namespace Siathos.Nomos

/-! ## What the files say -/

def isPacto (name : CStr) : Bool := decide (name.length > 6) && (ascii ".pacto").isSuffixOf name

/-- The name and the bytes of a regular file in `/synallagma` that should be a contract. -/
def PactoFile (t : Tree) (f : CStr × List UInt8) : Prop :=
  isPacto f.1 = true ∧ slash ∉ f.1 ∧ t (childPath dirSynallagma f.1) = some (.file, f.2)

/-- The contract files, in the order of the table. -/
def pactoFiles (ns : Nodes) : List (CStr × List UInt8) := ns.filterMap fun n =>
  ((if n.used then childName dirSynallagma n.path else none).filter fun name => n.type = .file ∧ isPacto name).map
    (·, n.data)

/-- The lines of a file, up to its last byte, but for empty ones, comments and sections. -/
def fileLines (data : List UInt8) : List CStr :=
  ((data.splitOn newline).map cString).filter fun l => l ≠ [] && l.head? ≠ some 0x23 && l.head? ≠ some 0x5B

/-- The contract that a whole file stands for. -/
def ownContract (f : CStr × List UInt8) : Contract :=
  let c := (fileLines f.2).foldl parseLine (clearContract f.1)
  { c with caminho := if c.caminho = [] then f.1.take 255 else c.caminho, ativo := true }

/-- The contracts of all the files. -/
def wholeScan (ns : Nodes) : Synallagma := ⟨(pactoFiles ns).map ownContract, List.replicate maxContracts false⟩

/-- The part of a file that is read. -/
def readPart (f : CStr × List UInt8) : CStr × List UInt8 := (f.1, cString (f.2.take 2047))

/-! ## What the scan finds -/

def scanSlot (ns : Nodes) (slots : List (CStr × Contract)) (line : CStr) : List (CStr × Contract) :=
  match pactoName line with
  | none => slots
  | some name => if slots.length < maxContracts then slots ++ [(name, readContract ns name)] else slots

/-- `synallagma_scan_contracts`, where each slot also has the name that it was read under. -/
def scanSlots (ns : Nodes) : List (CStr × Contract) :=
  ((cString (fsList ns (ascii "/synallagma") 4096)).splitOn newline).foldl (scanSlot ns) []

/-- Each contract file has its slot with its own fields, and there is no other slot. -/
def ScansAll (ns : Nodes) : Prop := (scanSlots ns).Perm ((pactoFiles ns).map fun f => (f.1, ownContract f))

/-- No array is too small for what it must hold: the table, the listing, and the bytes of a file. -/
def WithinLimits (ns : Nodes) : Prop :=
  (pactoFiles ns).length ≤ maxContracts ∧ (fsLines ns dirSynallagma).flatten.length < 4096 ∧
    ∀ f ∈ pactoFiles ns, f.2.length ≤ 2047

/-- The second contract asks consent for the same folder, and grants no more. -/
structure AsStrict (c c' : Contract) : Prop where
  caminho : c'.caminho = c.caminho
  leitura : c'.leitura = true → c.leitura = true
  escrita : c'.escrita = true → c.escrita = true
  execucao : c'.execucao = true → c.execucao = true
  capsReq : c'.capsReq = c.capsReq

/-- Every path is protected as the files say. -/
def ProtectsAll (ns : Nodes) : Prop :=
  ∀ q, Proper q → ∀ c ∈ synallagmaContractFor (wholeScan ns) q,
    ∃ c' ∈ synallagmaContractFor (synallagmaScanContracts ns) q, AsStrict c c'

/-- What is asked of the scan: to find all the contracts, or, beyond its limits, at least to protect what they
protect. -/
def ScanRight (ns : Nodes) : Prop := ScansAll ns ∨ ¬WithinLimits ns ∧ ProtectsAll ns

/-! ## Where it does -/

/-- The names that the listing shows. -/
def shownNames (ns : Nodes) : List CStr :=
  ((cString (fsList ns (ascii "/synallagma") 4096)).splitOn newline).filterMap pactoName

/-- A file as it is read under a name of the listing. -/
def readUnder (ns : Nodes) (name : CStr) : CStr × List UInt8 :=
  (name, cString ((fsRead ns (cut fsNameMax (ascii "/synallagma/" ++ name)) 2047).getD []))

/-- The contracts of the names that there is room for. -/
def foundContracts (ns : Nodes) : List Contract :=
  ((shownNames ns).take maxContracts).map fun name => ownContract (readUnder ns name)

/-- The names are those of the files, and what is read of each file tells all its fields. -/
structure ReadsAll (ns : Nodes) : Prop where
  names : ((shownNames ns).take maxContracts).Perm ((pactoFiles ns).map Prod.fst)
  fields : ∀ f ∈ pactoFiles ns, ownContract (readPart f) = ownContract f

/-- The first contract for each folder is found and as strict, and no other folder below it has a contract. -/
structure Covered (ns : Nodes) : Prop where
  strict : ∀ p, IsFolder p →
  ∀ c ∈ firstFor (wholeScan ns).contracts p, ∃ c' ∈ firstFor (foundContracts ns) p, AsStrict c c'
  apart : ∀ c' ∈ foundContracts ns, IsFolder c'.caminho →
    (∃ c ∈ (wholeScan ns).contracts, Covers c.caminho c'.caminho) →
    ∃ c ∈ (wholeScan ns).contracts, c.caminho = c'.caminho

def Scannable (ns : Nodes) : Prop := ReadsAll ns ∨ ¬WithinLimits ns ∧ Covered ns

/-- The listing of the folder fits, and no name in it has a newline. -/
def Legible (ns : Nodes) : Prop :=
  (fsLines ns dirSynallagma).flatten.length < 4096 ∧ Unbroken (treeOf ns) dirSynallagma

/-- No contract file has a name that begins with a blank. -/
def Unindented (ns : Nodes) : Prop := ∀ f ∈ pactoFiles ns, f.1.head? ≠ some 0x20

/-! ## The names that are found -/

theorem foldl_bounded {α β γ : Type} (m : Nat) {f : α → Option β} {g : β → γ} {step : List γ → α → List γ}
    (hstep : ∀ acc a, step acc a = (f a).elim acc fun b => if acc.length < m then acc ++ [g b] else acc) (as : List α)
    (acc : List γ) :
    as.foldl step acc = acc ++ ((as.filterMap f).take (m - acc.length)).map g := by
  induction as generalizing acc with
  | nil => simp
  | cons a as ih =>
    rw [List.foldl_cons, ih, hstep, List.filterMap_cons]
    cases f a with
    | none => rfl
    | some b =>
      rw [Option.elim_some]
      split
      · next hroom =>
        obtain ⟨k, hk⟩ : ∃ k, m - acc.length = k + 1 := ⟨m - acc.length - 1, by omega⟩
        have hk' : m - (acc ++ [g b]).length = k := by
          rw [List.length_append, List.length_singleton]
          omega
        rw [hk', hk]
        simp
      · next hfull =>
        rw [Nat.sub_eq_zero_of_le (by omega)]
        simp

theorem scanSlots_eq (ns : Nodes) :
    scanSlots ns = ((shownNames ns).take maxContracts).map fun name => (name, readContract ns name) := by
  refine foldl_bounded maxContracts (fun slots line => ?_) _ []
  unfold scanSlot
  cases pactoName line <;> rfl

theorem synallagmaScanContracts_names (ns : Nodes) :
    (synallagmaScanContracts ns).contracts = ((shownNames ns).take maxContracts).map (readContract ns) := by
  refine foldl_bounded maxContracts (fun cs line => ?_) _ []
  unfold scanLine
  cases pactoName line <;> rfl

theorem scanSlots_contracts (ns : Nodes) : (scanSlots ns).map Prod.snd = (synallagmaScanContracts ns).contracts := by
  rw [synallagmaScanContracts_names, scanSlots_eq, List.map_map]
  rfl

theorem splitOn_lines {l : List CStr} (h : ∀ s ∈ l, newline ∉ s) :
    (l.flatMap (· ++ [newline])).splitOn newline = l ++ [[]] := by
  induction l with
  | nil => rfl
  | cons s l ih =>
    obtain ⟨hs, hl⟩ := List.forall_mem_cons.mp h
    rw [List.flatMap_cons, List.append_assoc, List.singleton_append, List.splitOn_append_cons_self,
      List.splitOn_eq_singleton hs, ih hl]
    rfl

theorem pactoName_line (type : FsType) (name : CStr) : pactoName (lineBody (kindOf type) name) =
    if type = .file ∧ isPacto (skipSpaces name) = true then some (skipSpaces name) else none := by
  have hskip : skipSpaces (lineBody (kindOf type) name) = kindOf type ++ (ascii "   " ++ name) := by
    cases type <;> rfl
  unfold pactoName
  rw [hskip]
  cases type with
  | dir => rfl
  | file =>
    have hrest : skipSpaces ((kindOf .file ++ (ascii "   " ++ name)).drop 5) = skipSpaces name := rfl
    have htag : (ascii "<ARQ>").isPrefixOf (kindOf .file ++ (ascii "   " ++ name)) = true := rfl
    simp only [hrest, htag, if_true, true_and, isPacto, Bool.and_eq_true, decide_eq_true_eq]

theorem skipSpaces_eq_self {s : CStr} (h : s.head? ≠ some 0x20) : skipSpaces s = s := by
  cases s with
  | nil => rfl
  | cons b s =>
    have hb : b ≠ 0x20 := by simpa using h
    simp [skipSpaces, hb]

theorem isPacto_of_skipSpaces {name : CStr} (h : isPacto (skipSpaces name) = true) : isPacto name = true := by
  simp only [isPacto, Bool.and_eq_true, decide_eq_true_eq] at h ⊢
  have hsuffix : skipSpaces name <:+ name := List.dropWhile_suffix _
  have hlen := hsuffix.length_le
  refine ⟨by omega, ?_⟩
  rw [List.isSuffixOf_iff_suffix] at h ⊢
  exact h.2.trans hsuffix

section

variable {ns : Nodes}

theorem shownNames_eq (h : GoodTree ns) (hlegible : Legible ns) :
    shownNames ns = (children dirSynallagma ns).filterMap fun c => pactoName (lineBody (kindOf c.1) c.2) := by
  obtain ⟨hroom, hbreaks⟩ := hlegible
  rw [unbroken_iff h] at hbreaks
  have hnul : 0 ∉ (fsLines ns dirSynallagma).flatten := nul_not_mem h
  unfold shownNames
  by_cases hnil : children dirSynallagma ns = []
  · rw [show fsList ns (ascii "/synallagma") 4096 = _ from fsList_empty hnil, hnil]
    decide
  · have hlines : (fsLines ns dirSynallagma).flatten =
        ((children dirSynallagma ns).map fun c => lineBody (kindOf c.1) c.2).flatMap (· ++ [newline]) := by
      rw [fsLines, if_neg hnil, List.flatMap_map]
      rfl
    have htext : fsList ns (ascii "/synallagma") 4096 = (fsLines ns dirSynallagma).flatten := by
      have hchild : (fsLines ns dirSynallagma).flatten = childLines dirSynallagma ns := by
        rw [fsLines, if_neg hnil]
        rfl
      rw [hchild] at hroom ⊢
      exact fsList_eq hroom hnil
    rw [htext, cString_whole hnul, hlines, splitOn_lines, List.filterMap_append, List.filterMap_map]
    · rw [show [([] : CStr)].filterMap pactoName = [] from rfl, List.append_nil]
      rfl
    · intro s hs
      obtain ⟨c, hc, rfl⟩ := List.mem_map.mp hs
      exact fun hbreak => hbreaks c hc (newline_mem_lineBody.mp hbreak)

theorem names_pactoFiles (ns : Nodes) : (pactoFiles ns).map Prod.fst =
    (children dirSynallagma ns).filterMap fun c => if c.1 = .file ∧ isPacto c.2 = true then some c.2 else none := by
  unfold pactoFiles children
  rw [List.map_filterMap, List.filterMap_filterMap]
  refine List.filterMap_congr fun n _ => ?_
  cases (if n.used then childName dirSynallagma n.path else none) with
  | none => rfl
  | some name =>
    by_cases hfile : n.type = .file ∧ isPacto name = true
    · simp [Option.filter, hfile]
    · simp [Option.filter, hfile]

theorem shownNames_unindented (h : GoodTree ns) (hlegible : Legible ns) (hindent : Unindented ns) :
    shownNames ns = (pactoFiles ns).map Prod.fst := by
  rw [shownNames_eq h hlegible, names_pactoFiles]
  refine List.filterMap_congr fun c hc => ?_
  rw [pactoName_line]
  by_cases hfile : c.1 = .file ∧ isPacto c.2 = true
  · have hmem : c.2 ∈ (pactoFiles ns).map Prod.fst := by
      rw [names_pactoFiles, List.mem_filterMap]
      exact ⟨c, hc, if_pos hfile⟩
    obtain ⟨f, hf, hname⟩ := List.mem_map.mp hmem
    rw [skipSpaces_eq_self (hname ▸ hindent f hf)]
  · rw [if_neg hfile, if_neg fun hskip => hfile ⟨hskip.1, isPacto_of_skipSpaces hskip.2⟩]

/-! ## What is read of a file -/

theorem mem_pactoFiles (h : GoodTree ns) {f : CStr × List UInt8} : f ∈ pactoFiles ns ↔ PactoFile (treeOf ns) f := by
  unfold pactoFiles PactoFile
  rw [List.mem_filterMap]
  constructor
  · rintro ⟨n, hn, hf⟩
    obtain ⟨name, hname, rfl⟩ := Option.map_eq_some_iff.mp hf
    rw [Option.filter_eq_some_iff] at hname
    obtain ⟨hchild, htype⟩ := hname
    by_cases hused : n.used = true
    · rw [if_pos hused] at hchild
      obtain ⟨hpath, hslash, -⟩ := childName_iff.mp hchild
      obtain ⟨htype, hpacto⟩ := of_decide_eq_true htype
      refine ⟨hpacto, hslash, ?_⟩
      rw [← hpath, treeOf_some]
      exact ⟨n, fsGet_of_mem h.paths.unique hn hused, congrArg (·, n.data) htype⟩
    · simp [hused] at hchild
  · rintro ⟨hpacto, hslash, hdata⟩
    obtain ⟨n, hget, hcontent⟩ := treeOf_some.mp hdata
    obtain ⟨hn, hused, hpath⟩ := fsGet_mem hget
    obtain ⟨htype, hdata⟩ := Prod.mk.inj hcontent
    have hname := childName_iff.mpr ⟨hpath, hslash, fun hroot => absurd hroot (by decide)⟩
    refine ⟨n, hn, ?_⟩
    rw [if_pos hused, hname]
    simp [Option.filter, htype, hpacto, hdata]

theorem contentLines_eq (data : List UInt8) : contentLines data = fileLines (cString data) := by
  unfold contentLines fileLines
  have hwhole : ((cString data).splitOn newline).map cString = (cString data).splitOn newline := by
    refine (List.map_congr_left fun l hl => ?_).trans (List.map_id _)
    exact cString_whole fun h0 => (oneLine_splitOn hl 0 h0).1 rfl
  rw [hwhole]

theorem readContract_eq (ns : Nodes) (name : CStr) : readContract ns name = ownContract (readUnder ns name) := by
  unfold readContract readFile ownContract readUnder
  cases fsRead ns (cut fsNameMax (ascii "/synallagma/" ++ name)) 2047 with
  | none => rfl
  | some data => simp only [Option.getD_some, contentLines_eq]

theorem found_contracts (ns : Nodes) : (synallagmaScanContracts ns).contracts = foundContracts ns := by
  rw [synallagmaScanContracts_names]
  exact List.map_congr_left fun name _ => readContract_eq ns name

theorem readUnder_file (h : GoodTree ns) {f : CStr × List UInt8} (hf : f ∈ pactoFiles ns) :
    readUnder ns f.1 = readPart f := by
  obtain ⟨-, -, hdata⟩ := (mem_pactoFiles h).mp hf
  have hlen : (childPath dirSynallagma f.1).length < fsNameMax := (h.paths.path (by rw [hdata]; simp)).1.2
  have hcut : cut fsNameMax (ascii "/synallagma/" ++ f.1) = childPath dirSynallagma f.1 :=
    List.take_of_length_le (Nat.le_sub_one_of_lt hlen)
  obtain ⟨n, hget, hcontent⟩ := treeOf_some.mp hdata
  obtain ⟨htype, hbytes⟩ := Prod.mk.inj hcontent
  unfold readUnder readPart
  rw [hcut, fsRead, hget]
  simp [htype, hbytes]

/-! ## When the scan is right -/

theorem AsStrict.check {c c' : Contract} (h : AsStrict c c') {p p' : Policy} {q : CStr} (hauth : p'.auth = p.auth)
    (hrights : p'.rights = p.rights) (hc : synallagmaContractFor p.synallagma q = some c)
    (hc' : synallagmaContractFor p'.synallagma q = some c')
    (hconsent : synallagmaConsented p'.synallagma c'.caminho = synallagmaConsented p.synallagma c.caminho)
    {need : Rights}
    (hcheck : vfsCheckCap p' q need = true) : vfsCheckCap p q need = true := by
  obtain ⟨-, hleitura, hescrita, hexecucao, hcaps⟩ := h
  unfold vfsCheckCap at hcheck ⊢
  rw [hc', hauth, hrights] at hcheck
  rw [hc]
  dsimp only at hcheck ⊢
  rw [hconsent, hcaps] at hcheck
  split_ifs at hcheck ⊢ <;> simp_all

theorem scansAll_iff (h : GoodTree ns) : ScansAll ns ↔ ReadsAll ns := by
  have hslot : ∀ f ∈ pactoFiles ns, readContract ns f.1 = ownContract (readPart f) := fun f hf => by
    rw [readContract_eq, readUnder_file h hf]
  unfold ScansAll
  rw [scanSlots_eq]
  constructor
  · intro hperm
    refine ⟨?_, fun f hf => ?_⟩
    · have hnames := hperm.map Prod.fst
      simpa only [List.map_map, Function.comp_def, List.map_id'] using hnames
    · have hmem := hperm.mem_iff.mpr (List.mem_map_of_mem (f := fun f => (f.1, ownContract f)) hf)
      obtain ⟨name, -, heq⟩ := List.mem_map.mp hmem
      obtain ⟨rfl, hcontract⟩ := Prod.mk.inj heq
      rw [← hslot f hf, hcontract]
  · rintro ⟨hnames, hfields⟩
    have hperm := hnames.map fun name => (name, readContract ns name)
    rw [List.map_map] at hperm
    refine hperm.trans (List.Perm.of_eq (List.map_congr_left fun f hf => ?_))
    rw [Function.comp_apply, hslot f hf, hfields f hf]

theorem ownContract_inForce {f : CStr × List UInt8} (h : f.1 ≠ []) :
    (ownContract f).ativo = true ∧ (ownContract f).caminho ≠ [] := by
  refine ⟨rfl, ?_⟩
  unfold ownContract
  dsimp only
  split
  · simpa using h
  · assumption

theorem wholeScan_inForce (ns : Nodes) : InForce (wholeScan ns).contracts := by
  intro c hc
  obtain ⟨f, hf, rfl⟩ := List.mem_map.mp hc
  refine ownContract_inForce ?_
  obtain ⟨n, -, hn⟩ := List.mem_filterMap.mp hf
  obtain ⟨name, hname, rfl⟩ := Option.map_eq_some_iff.mp hn
  rw [Option.filter_eq_some_iff] at hname
  obtain ⟨-, hpacto⟩ := of_decide_eq_true hname.2
  rintro rfl
  cases hpacto

theorem found_inForce (ns : Nodes) : InForce (synallagmaScanContracts ns).contracts := fun c hc =>
  ⟨((synallagmaScanContracts_scanned ns).1 c hc).ativo, ((synallagmaScanContracts_scanned ns).1 c hc).caminho_ne⟩

theorem protectsAll_iff (ns : Nodes) : ProtectsAll ns ↔ Covered ns := by
  refine (ruled_alike_iff (wholeScan_inForce ns) (found_inForce ns) fun c c' h => h.caminho).trans ?_
  rw [found_contracts]
  exact ⟨fun h => ⟨h.1, h.2⟩, fun h => ⟨h.strict, h.apart⟩⟩

end

open Table (nodesOf fsInit ProperStep)

/-- The scan is right exactly where it reads all or, beyond a limit, what it reads covers all the folders. -/
theorem scan_right {heap : Table.Heap} {ops : List Table.Op} {t : Table.Ramfs}
    (h : Run ProperStep (fsInit heap) ops t) :
    ((scanSlots (nodesOf t)).map Prod.snd = (synallagmaScanContracts (nodesOf t)).contracts ∧
      ∀ f, f ∈ pactoFiles (nodesOf t) ↔ PactoFile (Table.tree t) f) ∧
    (Legible (nodesOf t) → Unindented (nodesOf t) → shownNames (nodesOf t) = (pactoFiles (nodesOf t)).map Prod.fst) ∧
    (ScanRight (nodesOf t) ↔ Scannable (nodesOf t)) := by
  have hgood := Table.goodTree_run h
  refine ⟨⟨scanSlots_contracts _, fun f => mem_pactoFiles hgood⟩, shownNames_unindented hgood, ?_⟩
  exact or_congr (scansAll_iff hgood) (and_congr_right fun _ => protectsAll_iff _)

/-- The folder and one contract file in it. -/
def oneFile (name : CStr) : List Table.Op :=
  [.create dirSynallagma .dir, .create (dirSynallagma ++ slash :: name) .file,
    .write (dirSynallagma ++ slash :: name) (ascii "caminho=/x") (some (4096, fun _ => 0))]

def oneFileTree (name : CStr) : Table.Ramfs :=
  (oneFile name).foldl (fun t o => (Table.apply t o).1) (fsInit fun _ => none)

theorem oneFile_run (name : CStr) (hpart : IsPart name) (hdots : name ≠ dot ∧ name ≠ dotdot) (hnul : 0 ∉ name)
    (hadmits : Admits Table.Allowed (fun t o => (Table.apply t o).1) (fsInit fun _ => none) (oneFile name)) :
    Run ProperStep (fsInit fun _ => none) (oneFile name) (oneFileTree name) := by
  have hfolder : IsPart (ascii "synallagma") ∧ ascii "synallagma" ≠ dot ∧ ascii "synallagma" ≠ dotdot :=
    ⟨⟨by decide, by decide⟩, by decide, by decide⟩
  have hdir : Proper dirSynallagma :=
    ⟨⟨[ascii "synallagma"], List.forall_mem_singleton.mpr hfolder, rfl⟩, by decide⟩
  have hfile : Proper (dirSynallagma ++ slash :: name) := by
    refine ⟨⟨[ascii "synallagma", name], ?_, by simp [pathOf]; rfl⟩, ?_⟩
    · exact List.forall_mem_cons.mpr ⟨hfolder, List.forall_mem_singleton.mpr ⟨hpart, hdots⟩⟩
    · have hnul' : 0 ∉ dirSynallagma := hdir.2
      simp [hnul', hnul, slash]
  refine Table.properRun_of_admits ?_ hadmits
  simp [oneFile, Table.Op.paths, hdir, hfile]

/-- The scan reads a file whose name has no blank before it. -/
theorem scan_right_one : ScanRight (nodesOf (oneFileTree (ascii "a.pacto"))) := by
  have hrun := oneFile_run (ascii "a.pacto") ⟨by decide, by decide⟩ (by decide) (by decide) (by decide +kernel)
  have hnames : shownNames (nodesOf (oneFileTree (ascii "a.pacto"))) = [ascii "a.pacto"] := by decide +kernel
  have hfiles : pactoFiles (nodesOf (oneFileTree (ascii "a.pacto"))) = [(ascii "a.pacto", ascii "caminho=/x")] := by
    decide +kernel
  refine (scan_right hrun).2.2.mpr (.inl ⟨?_, ?_⟩)
  · rw [hnames, hfiles]
    exact List.Perm.refl _
  · rw [hfiles, List.forall_mem_singleton]
    decide +kernel

/-- A file with a blank before its name has no contract, and its folder is open. -/
theorem indented_unread : ¬ScanRight (nodesOf (oneFileTree (ascii " a.pacto"))) ∧
    synallagmaContractFor (synallagmaScanContracts (nodesOf (oneFileTree (ascii " a.pacto")))) (ascii "/x") = none := by
  have hslots : ¬(scanSlots (nodesOf (oneFileTree (ascii " a.pacto")))).Perm
      ((pactoFiles (nodesOf (oneFileTree (ascii " a.pacto")))).map fun f => (f.1, ownContract f)) := by decide +kernel
  have hlimits : WithinLimits (nodesOf (oneFileTree (ascii " a.pacto"))) := by
    unfold WithinLimits
    decide +kernel
  refine ⟨?_, by decide +kernel⟩
  rintro (hall | ⟨hbeyond, -⟩)
  · exact hslots hall
  · exact hbeyond hlimits

end Siathos.Nomos
