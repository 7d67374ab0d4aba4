import Siathos.Lib.Words
import Siathos.Praxia.Manifest

/-!
# The command line of the shell (`praxia.c`)

A line that is no command of the shell itself names a program, and its words become the arguments of the
program. Between the line and the program stand two buffers and a scanner that works in place.
-/

open Lib Siathos.Nomos

namespace Siathos.Praxia

def space : UInt8 := 0x20

/-! ## The line -/

def skip (s : CStr) : CStr := s.dropWhile (· == space)

/-- `cmd` and `arg`, in their buffers of 32 and 192 bytes. -/
def splitLine (line : CStr) : CStr × CStr :=
  let cmd := ((skip line).takeWhile (· != space)).take 31
  (cmd, (skip ((skip line).drop cmd.length)).take 191)

/-- The loop over `arg`: it writes a NUL over each space that it skips. It has seen `done` and not yet
`rest`, and has room for so many more pointers. What comes out is the pointers and the array. -/
def tokenize : Nat → (done rest : List UInt8) → List Nat × List UInt8
  | 0, done, rest => ([], done ++ rest)
  | room + 1, done, rest =>
    if rest = [] then ([], done)
    else
      let cleared := done ++ (rest.takeWhile (· == space)).map fun _ => 0
      let ap := skip rest
      if ap = [] then ([], cleared)
      else
        let token := ap.takeWhile (· != space)
        let r := tokenize room (cleared ++ token) (ap.drop token.length)
        (cleared.length :: r.1, r.2)

/-- `eargv`, as the kernel reads it. -/
def eargv (cmd arg : CStr) : List CStr :=
  let r := tokenize 14 [] arg
  cmd :: r.1.map fun p => cString (r.2.drop p)

/-! ## The program -/

/-- A line of the shell's tables `man_file`, `man_name` and `man_alias`. -/
structure Module where
  manFile : CStr
  manName : CStr
  manAlias : CStr
  file_lt : manFile.length < 40
  noNul : 0 ∉ manFile ∧ 0 ∉ manName ∧ 0 ∉ manAlias

/-- `g_cwd` and the modules. -/
structure Shell where
  cwd : CStr
  cwd_lt : cwd.length < 128
  modules : List Module

def same (a b : CStr) : Bool := decide (spudCmp a b = 0)

def manFind (sh : Shell) (cmd : CStr) : Option Module :=
  sh.modules.find? fun m => same cmd m.manName || same cmd m.manAlias || same cmd m.manFile

def spudNcat (d s : CStr) (max : Nat) : CStr := d ++ s.take (max - 1 - d.length)

/-- `spud_resolve`. -/
def spudResolve (arg cwd : CStr) (max : Nat) : CStr :=
  if arg = [] then cut max cwd
  else if arg.head? = some slash then cut max arg
  else spudNcat (spudNcat (cut max cwd) [slash] max) arg max

def builtins : List CStr :=
  ["help", "clear", "cls", "echo", "pwd", "whoami", "ls", "horasis", "cat", "graphe", "edit", "sygraphe", "cd",
    "metabasis", "ktisis", "touch", "mkdir", "anairesis", "rm", "ps", "kinesis", "mem", "aisthesis", "uptime", "sync",
    "synallagma", "users", "katastaseis", "userdel", "katachirmismos", "passwd", "metavivasi", "useradd",
    "dimiourgia", "reboot", "poweroff", "halt", "logout", "exit"].map ascii

/-- A call of `SYS_EXEC`: the path and the arguments. -/
abbrev Exec := CStr × List CStr

/-- The calls for a program: the file of its module, and where that does not start the command itself. -/
def runExternal (sh : Shell) (sysExec : Exec → Int) (cmd : CStr) (argv : List CStr) : List Exec :=
  let tryExec : List Exec := [(spudResolve cmd sh.cwd 160, argv)]
  match manFind sh cmd with
  | none => tryExec
  | some m =>
    if same m.manFile cmd then tryExec
    else
      let mp := spudNcat (cut 160 (ascii "/bin/")) m.manFile 160
      if sysExec (mp, argv) > 0 then [(mp, argv)] else (mp, argv) :: tryExec

/-- What the shell calls for a line, unless the line is empty or a command of its own. -/
def shellExternal (sh : Shell) (sysExec : Exec → Int) (line : CStr) : Option (List Exec) :=
  let (cmd, arg) := splitLine line
  if cmd = [] ∨ builtins.any (same cmd) then none else some (runExternal sh sysExec cmd (eargv cmd arg))

/-! ## What a line means -/

/-- The paths of the program that a word names. -/
def programPaths (sh : Shell) (word : CStr) : List CStr :=
  (match sh.modules.find? fun m => m.manName == word || m.manAlias == word || m.manFile == word with
    | some m => if m.manFile = word then [] else [ascii "/bin/" ++ m.manFile]
    | none => []) ++
  [if word.head? = some slash then word else sh.cwd ++ slash :: word]

/-- The paths are called one after the other, until a program starts. -/
def callUntil (sysExec : Exec → Int) (argv : List CStr) : List CStr → List Exec
  | [] => []
  | path :: paths => (path, argv) :: if sysExec (path, argv) > 0 then [] else callUntil sysExec argv paths

/-- A line of printable bytes that is no command of the shell. -/
structure External (line : CStr) : Prop where
  printable : ∀ c ∈ line, 0x20 ≤ c ∧ c ≤ 0x7E
  length_lt : line.length < 256
  word : words space line ≠ []
  foreign : ∀ word ∈ (words space line).head?, word ∉ builtins

def firstWord (line : CStr) : CStr := (skip line).takeWhile (· != space)

/-- What follows the first word. -/
def further (line : CStr) : CStr := skip ((skip line).dropWhile (· != space))

/-- The shell starts the program of the first word with the words of the line, at most 15 of them. -/
def RunsRight (sh : Shell) (sysExec : Exec → Int) (line : CStr) : Prop :=
  shellExternal sh sysExec line =
    some (callUntil sysExec ((words space line).take 15) (programPaths sh (firstWord line)))

/-- The text behind the scanned one is blank and few words are there, or the last word that finds room
stands at the end of the scanned text and ends there. -/
def Scans (room : Nat) (arg behind : CStr) : Prop :=
  ((words space (arg ++ behind)).length < room ∧ ∀ c ∈ behind, c = space) ∨
  ((words space arg).length = room ∧ arg.getLast? ≠ some space ∧ behind.head?.all (· == space) = true)

/-- The first word and what follows it fit in their buffers, and the pointers suffice. -/
def FitsLine (line : CStr) : Prop :=
  (firstWord line).length < 32 ∧ Scans 14 ((further line).take 191) ((further line).drop 191)

/-! ## The scan in place -/

/-- The strings that the pointers lead to: behind the last one no NUL is written. -/
def tokenStrings : Nat → CStr → List CStr
  | 0, _ => []
  | room + 1, rest =>
    let ap := skip rest
    if ap = [] then []
    else if room = 0 then [ap]
    else ap.takeWhile (· != space) :: tokenStrings room (ap.dropWhile (· != space))

/-- The pointers lead behind what has been seen, and with room left the array goes on with a NUL. -/
structure Tokenized (room : Nat) (done rest : List UInt8) (r : List Nat × List UInt8) : Prop where
  kept : ∃ tail, r.2 = done ++ tail ∧ (room = 0 → tail = rest) ∧
    (room ≠ 0 → rest.head?.all (· == space) = true → tail.head?.all (· == 0) = true)
  strings : r.1.map (fun p => cString (r.2.drop p)) = tokenStrings room rest

theorem cString_append {s tail : List UInt8} (hs : 0 ∉ s) (h : tail.head?.all (· == 0) = true) :
    cString (s ++ tail) = s :=
  takeWhile_eq_iff.mpr ⟨hs, h⟩

theorem tokenize_spec (room : Nat) (done : List UInt8) {rest : List UInt8} (h0 : 0 ∉ rest) :
    Tokenized room done rest (tokenize room done rest) := by
  induction room generalizing done rest with
  | zero => exact ⟨⟨rest, rfl, fun _ => rfl, fun h => absurd rfl h⟩, rfl⟩
  | succ room ih =>
    rw [tokenize]
    split_ifs with hrest
    · subst hrest
      exact ⟨⟨[], by simp, fun h => absurd h (by omega), by simp⟩, by simp [tokenStrings, skip]⟩
    have hzeros (tail : List UInt8) : rest.head?.all (· == space) = true →
        (((rest.takeWhile (· == space)).map fun _ => (0 : UInt8)) ++ tail).head?.all (· == 0) = true := by
      obtain ⟨c, rest, rfl⟩ := List.exists_cons_of_ne_nil hrest
      intro hc
      have hc : c = space := by simpa using hc
      simp [hc]
    dsimp only
    split_ifs with hap
    · refine ⟨⟨_, rfl, fun h => absurd h (by omega), fun _ h => ?_⟩, by simp [tokenStrings, hap]⟩
      simpa using hzeros [] h
    · have hap0 : 0 ∉ skip rest := fun hmem => h0 ((List.dropWhile_sublist _).subset hmem)
      have hdrop : (skip rest).drop ((skip rest).takeWhile (· != space)).length = (skip rest).dropWhile (· != space) :=
        drop_length_takeWhile _ _
      obtain ⟨⟨tail, harr, hlast, hnul⟩, hstrings⟩ := ih (done ++ (rest.takeWhile (· == space)).map (fun _ => 0) ++
        (skip rest).takeWhile (· != space)) (fun hmem => hap0 ((List.dropWhile_sublist (· != space)).subset hmem))
      rw [hdrop]
      refine ⟨⟨(rest.takeWhile (· == space)).map (fun _ => 0) ++ ((skip rest).takeWhile (· != space) ++ tail),
        by rw [harr]; simp, fun h => absurd h (by omega), fun _ h => hzeros _ h⟩, ?_⟩
      rw [List.map_cons, hstrings, harr, List.append_assoc, List.drop_left, tokenStrings, if_neg hap]
      by_cases hroom : room = 0
      · subst hroom
        rw [if_pos rfl, hlast rfl, List.takeWhile_append_dropWhile]
        rw [cString_whole hap0]
        rfl
      · rw [if_neg hroom, cString_append (fun hmem => hap0 ((List.takeWhile_sublist _).subset hmem))
          (hnul hroom (head_dropWhile _))]

/-! ## Words and strings -/

theorem skip_cons {s ap : CStr} {c : UInt8} (h : skip s = c :: ap) : c ≠ space := by
  have hc := List.head_dropWhile_not (p := (· == space)) (l := s)
    (by rw [show s.dropWhile (· == space) = c :: ap from h]; simp)
  simpa [show s.dropWhile (· == space) = c :: ap from h] using hc

theorem words_skip (s : CStr) : words space (skip s) = words space s := words_dropWhile s

theorem getLast_skip {s : CStr} (h : skip s ≠ []) : (skip s).getLast? = s.getLast? := by
  have hsplit := List.takeWhile_append_dropWhile (p := (· == space)) (l := s)
  rw [← congrArg List.getLast? hsplit]
  exact (List.getLast?_append_of_ne_nil _ h).symm

theorem scans_blank {arg : CStr} (h : skip arg = []) {room : Nat} (hroom : room ≠ 0) (behind : CStr) :
    tokenStrings room arg = (words space (arg ++ behind)).take room ↔ Scans room arg behind := by
  obtain ⟨room, rfl⟩ := Nat.exists_eq_succ_of_ne_zero hroom
  have harg : words space arg = [] := by rw [← words_skip, h, words_nil]
  have hwords : words space (arg ++ behind) = words space behind := by
    rw [← words_dropWhile_append, show arg.dropWhile (· == space) = [] from h, List.nil_append]
  rw [Scans, hwords, harg, tokenStrings, if_pos h, eq_comm, List.take_eq_nil_iff, words_eq_nil_iff]
  constructor
  · rintro (h | hblank)
    · omega
    · exact Or.inl ⟨by simp [words_eq_nil_iff.mpr hblank], hblank⟩
  · rintro (⟨-, hblank⟩ | ⟨hlen, -⟩)
    · exact Or.inr hblank
    · simp at hlen

theorem scans_last {arg ap : CStr} {c : UInt8} (h : skip arg = c :: ap) (hd : (c :: ap).dropWhile (· != space) = [])
    (room : Nat) (behind : CStr) :
    tokenStrings (room + 1) arg = (words space (arg ++ behind)).take (room + 1) ↔ Scans (room + 1) arg behind := by
  have hword : (c :: ap).takeWhile (· != space) = c :: ap := by
    have hsplit := List.takeWhile_append_dropWhile (p := (· != space)) (l := c :: ap)
    rwa [hd, List.append_nil] at hsplit
  have hfree : space ∉ c :: ap := hword ▸ sep_not_mem_takeWhile (c :: ap)
  have harg : words space arg = [c :: ap] := by rw [← words_skip, h, words_word (by simp) hfree]
  have hlast : arg.getLast? ≠ some space := by
    rw [← getLast_skip (by simp [h]), h]
    exact fun hmem => hfree (List.mem_of_getLast? hmem)
  have hcode : tokenStrings (room + 1) arg = [c :: ap] := by
    rw [tokenStrings, if_neg (by simp [h]), h, hword, hd]
    split
    · rfl
    · cases room <;> simp [tokenStrings, skip]
  have hwords : words space (arg ++ behind) = words space ((c :: ap) ++ behind) := by
    rw [← words_dropWhile_append, show arg.dropWhile (· == space) = c :: ap from h]
  rw [Scans, hwords, harg, hcode]
  by_cases hb : behind.head?.all (· == space) = true
  · rw [words_word_append (by simp) hfree hb, List.take_succ_cons, List.cons.injEq, eq_comm (b := List.take _ _),
      List.take_eq_nil_iff, words_eq_nil_iff]
    constructor
    · rintro ⟨-, rfl | hblank⟩
      · exact Or.inr ⟨rfl, hlast, hb⟩
      · by_cases hroom : room = 0
        · exact Or.inr ⟨by simp [hroom], hlast, hb⟩
        · exact Or.inl ⟨by simp [words_eq_nil_iff.mpr hblank]; omega, hblank⟩
    · rintro (⟨-, hblank⟩ | ⟨hlen, -⟩)
      · exact ⟨rfl, Or.inr hblank⟩
      · exact ⟨rfl, Or.inl (by simpa using hlen.symm)⟩
  · have hblank : ¬ ∀ c ∈ behind, c = space := by
      intro hall
      cases behind with
      | nil => exact hb rfl
      | cons b behind => exact hb (by simp [hall b (by simp)])
    have hfirst : (c :: ap) ++ behind = c :: (ap ++ behind) := rfl
    have hne : [c :: ap] ≠ (words space ((c :: ap) ++ behind)).take (room + 1) := by
      rw [hfirst, words_cons (skip_cons h), List.take_succ_cons, ← hfirst]
      intro heq
      exact hb (takeWhile_eq_iff.mp (List.cons.inj heq).1.symm).2
    exact ⟨fun heq => absurd heq hne, fun hor => (hor.elim (fun h => absurd h.2 hblank) fun h => absurd h.2.2 hb)⟩

theorem tokenStrings_iff {room : Nat} (hroom : room ≠ 0) (arg behind : CStr) :
    tokenStrings room arg = (words space (arg ++ behind)).take room ↔ Scans room arg behind := by
  induction room generalizing arg with
  | zero => exact absurd rfl hroom
  | succ room ih =>
    cases hskip : skip arg with
    | nil => exact scans_blank hskip hroom behind
    | cons c ap =>
      by_cases hd : (c :: ap).dropWhile (· != space) = []
      · exact scans_last hskip hd room behind
      have harg : words space arg =
        (c :: ap).takeWhile (· != space) :: words space ((c :: ap).dropWhile (· != space)) := by
        rw [← words_skip, hskip, words_cons (skip_cons hskip)]
      have hsplit := List.takeWhile_append_dropWhile (p := (· != space)) (l := c :: ap)
      have hhead : ((c :: ap).dropWhile (· != space) ++ behind).head?.all (· == space) = true := by
        rw [List.head?_append_of_ne_nil _ hd]
        exact head_dropWhile (c :: ap)
      have hwords : words space (arg ++ behind) = (c :: ap).takeWhile (· != space) ::
          words space ((c :: ap).dropWhile (· != space) ++ behind) := by
        rw [← words_dropWhile_append, show arg.dropWhile (· == space) = c :: ap from hskip,
          ← words_word_append (by simp [skip_cons hskip]) (sep_not_mem_takeWhile (c :: ap)) hhead,
          ← List.append_assoc, hsplit]
      have hlast : arg.getLast? = ((c :: ap).dropWhile (· != space)).getLast? := by
        rw [← getLast_skip (by simp [hskip]), hskip, ← List.getLast?_append_of_ne_nil _ hd, hsplit]
      have hshort : (c :: ap).takeWhile (· != space) ≠ c :: ap := by
        intro heq
        rw [heq] at hsplit
        exact hd (by simpa using hsplit)
      rw [Scans, hwords, harg, tokenStrings, hskip, if_neg (by simp)]
      by_cases hzero : room = 0
      · subst hzero
        have hmore : words space ((c :: ap).dropWhile (· != space)) = [] → arg.getLast? = some space := by
          intro hnil
          obtain ⟨l, b, hb⟩ := (List.eq_nil_or_concat _).resolve_left hd
          rw [hlast, hb, List.concat_eq_append, List.getLast?_append]
          have hspace := words_eq_nil_iff.mp hnil b (by simp [hb])
          simp [hspace]
        rw [if_pos rfl]
        constructor
        · intro heq
          exact absurd (List.cons.inj heq).1.symm hshort
        · rintro (⟨hlen, -⟩ | ⟨hlen, hend, -⟩)
          · simp at hlen
          · exact absurd (hmore (by simpa using hlen)) hend
      · rw [if_neg hzero, List.take_succ_cons, List.cons.injEq, ih hzero, Scans, hlast]
        simp

/-! ## The line and the program -/

theorem same_iff {a b : CStr} (ha : 0 ∉ a) (hb : 0 ∉ b) : same a b = true ↔ a = b := by
  rw [same, decide_eq_true_eq, spudCmp_eq_zero, cString_whole ha, cString_whole hb]

theorem spudResolve_short {cmd cwd : CStr} (hcmd : cmd ≠ []) (hlen : cmd.length < 32) (hcwd : cwd.length < 128) :
    spudResolve cmd cwd 160 = if cmd.head? = some slash then cmd else cwd ++ slash :: cmd := by
  rw [spudResolve, if_neg hcmd]
  split_ifs
  · exact List.take_of_length_le (by omega)
  · have hbase : cut 160 cwd = cwd := List.take_of_length_le (by omega)
    rw [spudNcat, spudNcat, hbase, List.take_of_length_le (by simp; omega),
      List.take_of_length_le (by simp; omega), List.append_assoc]
    rfl

theorem manFind_eq (sh : Shell) {cmd : CStr} (h0 : 0 ∉ cmd) : manFind sh cmd =
    sh.modules.find? fun m => m.manName == cmd || m.manAlias == cmd || m.manFile == cmd := by
  unfold manFind
  congr 1
  funext m
  rw [Bool.eq_iff_iff]
  simp only [Bool.or_eq_true, same_iff h0 m.noNul.1, same_iff h0 m.noNul.2.1, same_iff h0 m.noNul.2.2, beq_iff_eq]
  rw [eq_comm (a := cmd), eq_comm (a := cmd), eq_comm (a := cmd)]

theorem runExternal_eq (sh : Shell) (sysExec : Exec → Int) {cmd : CStr} (argv : List CStr) (h0 : 0 ∉ cmd)
    (hcmd : cmd ≠ []) (hlen : cmd.length < 32) :
    runExternal sh sysExec cmd argv = callUntil sysExec argv (programPaths sh cmd) := by
  rw [runExternal, programPaths, spudResolve_short hcmd hlen sh.cwd_lt, manFind_eq sh h0]
  cases sh.modules.find? fun m => m.manName == cmd || m.manAlias == cmd || m.manFile == cmd with
  | none => simp [callUntil]
  | some m =>
    have hpath : spudNcat (cut 160 (ascii "/bin/")) m.manFile 160 = ascii "/bin/" ++ m.manFile := by
      have hfile := m.file_lt
      rw [spudNcat, show cut 160 (ascii "/bin/") = ascii "/bin/" from rfl, List.take_of_length_le]
      rw [show (ascii "/bin/").length = 5 from rfl]
      omega
    by_cases hfile : m.manFile = cmd
    · dsimp only
      rw [if_pos ((same_iff m.noNul.1 h0).mpr hfile), if_pos hfile, List.nil_append]
      simp [callUntil]
    · have hsame : same m.manFile cmd = false := by
        rw [Bool.eq_false_iff, ne_eq, same_iff m.noNul.1 h0]
        exact hfile
      simp only [hsame, hpath, hfile, if_false, Bool.false_eq_true, List.singleton_append, callUntil]
      split_ifs <;> rfl

theorem runExternal_argv (sh : Shell) (sysExec : Exec → Int) (cmd : CStr) (argv : List CStr) :
    ∃ path calls, runExternal sh sysExec cmd argv = (path, argv) :: calls := by
  unfold runExternal
  dsimp only
  split
  · exact ⟨_, _, rfl⟩
  · split_ifs
    · exact ⟨_, _, rfl⟩
    · exact ⟨_, _, rfl⟩
    · exact ⟨_, _, rfl⟩

theorem callUntil_argv (sh : Shell) (sysExec : Exec → Int) (word : CStr) (argv : List CStr) :
    ∃ path calls, callUntil sysExec argv (programPaths sh word) = (path, argv) :: calls := by
  cases hpaths : programPaths sh word with
  | nil => simp [programPaths] at hpaths
  | cons path paths => exact ⟨path, _, rfl⟩

theorem eargv_eq (cmd : CStr) {arg : CStr} (h0 : 0 ∉ arg) : eargv cmd arg = cmd :: tokenStrings 14 arg := by
  rw [eargv, (tokenize_spec 14 [] h0).strings]

theorem External.noNul {line : CStr} (h : External line) : 0 ∉ line := by
  intro hmem
  have hle := (h.printable 0 hmem).1
  revert hle
  decide

theorem External.words_eq {line : CStr} (h : External line) :
    words space line = firstWord line :: words space (further line) := by
  rw [further, words_skip, ← words_skip line, firstWord]
  cases hskip : skip line with
  | nil => exact absurd (by rw [← words_skip, hskip, words_nil]) h.word
  | cons c ap => exact words_cons (skip_cons hskip)

theorem External.firstWord_ne {line : CStr} (h : External line) : firstWord line ≠ [] ∧ firstWord line ∉ builtins := by
  refine ⟨fun hnil => ?_, h.foreign _ (by simp [h.words_eq])⟩
  cases hskip : skip line with
  | nil => exact h.word (by rw [← words_skip, hskip, words_nil])
  | cons c ap => simp [firstWord, hskip, skip_cons hskip] at hnil

theorem shellExternal_some {sh : Shell} {sysExec : Exec → Int} {line : CStr} {calls : List Exec}
    (h : shellExternal sh sysExec line = some calls) :
    calls = runExternal sh sysExec (splitLine line).1 (eargv (splitLine line).1 (splitLine line).2) := by
  unfold shellExternal at h
  dsimp only at h
  split_ifs at h
  exact (Option.some.inj h).symm

/-- The shell runs the words of a line exactly where the line fits. -/
theorem runsRight_iff (sh : Shell) (sysExec : Exec → Int) {line : CStr} (h : External line) :
    RunsRight sh sysExec line ↔ FitsLine line := by
  have h0 := h.noNul
  have hsub : (firstWord line).Sublist line := (List.takeWhile_sublist _).trans (List.dropWhile_sublist _)
  by_cases hlen : (firstWord line).length < 32
  · have hcmd : ((skip line).takeWhile (· != space)).take 31 = firstWord line :=
      List.take_of_length_le (show (firstWord line).length ≤ 31 by omega)
    have hdrop : (skip line).drop (firstWord line).length = (skip line).dropWhile (· != space) :=
      drop_length_takeWhile _ _
    have hfurther : (further line).Sublist line := (List.dropWhile_sublist _).trans
      ((List.dropWhile_sublist _).trans (List.dropWhile_sublist _))
    have harg0 : 0 ∉ (further line).take 191 := fun hmem => h0 (hfurther.subset (List.mem_of_mem_take hmem))
    have hbuiltin : ¬ (firstWord line = [] ∨ builtins.any (same (firstWord line)) = true) := by
      rintro (hnil | hany)
      · exact h.firstWord_ne.1 hnil
      · obtain ⟨b, hb, hsame⟩ := List.any_eq_true.mp hany
        have hb0 : ∀ b ∈ builtins, (0 : UInt8) ∉ b := by decide
        rw [same_iff (fun hmem => h0 (hsub.subset hmem)) (hb0 b hb)] at hsame
        exact h.firstWord_ne.2 (hsame ▸ hb)
    have hcode : shellExternal sh sysExec line = some (callUntil sysExec
        (firstWord line :: tokenStrings 14 ((further line).take 191)) (programPaths sh (firstWord line))) := by
      simp only [shellExternal, splitLine, hcmd, hdrop]
      rw [if_neg hbuiltin, show skip ((skip line).dropWhile (· != space)) = further line from rfl, eargv_eq _ harg0,
        runExternal_eq sh sysExec _ (fun hmem => h0 (hsub.subset hmem)) h.firstWord_ne.1 hlen]
    have hscan := tokenStrings_iff (show 14 ≠ 0 by omega) ((further line).take 191) ((further line).drop 191)
    rw [List.take_append_drop] at hscan
    rw [RunsRight, FitsLine, hcode, h.words_eq, List.take_succ_cons, Option.some.injEq, and_iff_right hlen, ← hscan]
    constructor
    · intro heq
      obtain ⟨_, _, hleft⟩ := callUntil_argv sh sysExec (firstWord line)
        (firstWord line :: tokenStrings 14 ((further line).take 191))
      obtain ⟨_, _, hright⟩ := callUntil_argv sh sysExec (firstWord line)
        (firstWord line :: (words space (further line)).take 14)
      rw [hleft, hright] at heq
      simp only [List.cons.injEq, Prod.mk.injEq, true_and] at heq
      exact heq.1.2
    · intro heq
      rw [heq]
  · constructor
    · intro hright
      obtain ⟨_, _, hleft⟩ :=
        runExternal_argv sh sysExec (splitLine line).1 (eargv (splitLine line).1 (splitLine line).2)
      obtain ⟨_, _, hspec⟩ := callUntil_argv sh sysExec (firstWord line) ((words space line).take 15)
      have hcalls := shellExternal_some hright
      rw [hleft, hspec] at hcalls
      -- the first argument is the cut word
      have hargv := (Prod.mk.inj (List.cons.inj hcalls).1).2
      rw [h.words_eq, eargv, List.take_succ_cons] at hargv
      have hcut := congrArg List.length (List.cons.inj hargv).1
      rw [show (splitLine line).1 = (firstWord line).take 31 from rfl, List.length_take] at hcut
      omega
    · exact fun hfits => absurd hfits.1 hlen

theorem runsRight_echo : RunsRight ⟨ascii "/praxis", by decide, []⟩ (fun _ => 1) (ascii " hello  a b ") :=
  (runsRight_iff _ _ ⟨by decide +kernel, by decide, by decide +kernel, by decide +kernel⟩).mpr
    ⟨by decide +kernel, Or.inl ⟨by decide +kernel, by decide +kernel⟩⟩

/-- The 15th argument takes in the rest of the line. -/
theorem runsRight_sixteen : External (ascii "run 1 2 3 4 5 6 7 8 9 10 11 12 13 14 15") ∧
    ¬ RunsRight ⟨ascii "/praxis", by decide, []⟩ (fun _ => 1) (ascii "run 1 2 3 4 5 6 7 8 9 10 11 12 13 14 15") := by
  refine ⟨⟨by decide +kernel, by decide, by decide +kernel, by decide +kernel⟩, ?_⟩
  unfold RunsRight
  decide +kernel

end Siathos.Praxia
