import Siathos.Fsd.Agree

/-!
# What `fsd_st_seed` copies

It reads the listings of `/nomos` and `/paradosis`, and asks the kernel for each file that it finds there.
-/

open Lib Siathos.Nomos Siathos.Fs Siathos.Syscall Siathos.Session

namespace Siathos.Fsd

/-! ## The names in a listing -/

/-- A name that is read whole: not empty, no space before it, at most 39 bytes. -/
def Legible (name : CStr) : Prop := name ≠ [] ∧ name.head? ≠ some 0x20 ∧ name.length ≤ 39

instance (name : CStr) : Decidable (Legible name) := inferInstanceAs (Decidable (_ ∧ _))

def fileName (c : FsType × CStr) : Option CStr := if c.1 = .file then some c.2 else none

theorem skipSpaces_name {name : CStr} (hne : name ≠ []) (hhead : name.head? ≠ some 0x20) (rest : CStr) :
    skipSpaces (name ++ rest) = name ++ rest := by
  obtain ⟨b, tail, rfl⟩ := List.exists_cons_of_ne_nil hne
  have hb : (b == 0x20) = false := by simpa using hhead
  simp [skipSpaces, hb]

theorem seedNames_file {name : CStr} (hname : Legible name) (hnl : 0x0A ∉ name) (fuel : Nat) (rest : CStr) :
    seedNames (fuel + 1) (lineOf (kindOf .file) name ++ rest) = name :: seedNames fuel rest := by
  obtain ⟨hne, hhead, hlen⟩ := hname
  have hshape : lineOf (kindOf .file) name ++ rest =
      ascii "  " ++ (ascii "<ARQ>" ++ (ascii "   " ++ (name ++ 0x0A :: rest))) := by
    simp [lineOf, lineBody, kindOf]
  have hline : skipSpaces (ascii "  " ++ (ascii "<ARQ>" ++ (ascii "   " ++ (name ++ 0x0A :: rest)))) =
      ascii "<ARQ>" ++ (ascii "   " ++ (name ++ 0x0A :: rest)) := rfl
  have hkind : (ascii "<ARQ>").isPrefixOf (ascii "<ARQ>" ++ (ascii "   " ++ (name ++ 0x0A :: rest))) = true :=
    List.isPrefixOf_iff_prefix.mpr (List.prefix_append _ _)
  have hspaces : skipSpaces ((ascii "<ARQ>" ++ (ascii "   " ++ (name ++ 0x0A :: rest))).drop 5) =
    name ++ 0x0A :: rest :=
    (rfl : _ = skipSpaces (name ++ 0x0A :: rest)).trans (skipSpaces_name hne hhead _)
  have hword : ((name ++ 0x0A :: rest).takeWhile (· != 0x0A)).take 39 = name := by
    rw [show (name ++ 0x0A :: rest).takeWhile (· != 0x0A) = name from writePath_line hnl rest]
    exact List.take_of_length_le hlen
  rw [hshape, seedNames, hline]
  dsimp only
  rw [if_neg (by simp [ascii]), hkind, hspaces, hword, List.drop_left]
  simp [hne]

theorem seedNames_dir {name : CStr} (hnl : 0x0A ∉ name) (fuel : Nat) (rest : CStr) :
    seedNames (fuel + 1) (lineOf (kindOf .dir) name ++ rest) = seedNames fuel rest := by
  have hshape : lineOf (kindOf .dir) name ++ rest = ascii "  " ++ ((ascii "<DIR>   " ++ name) ++ 0x0A :: rest) := by
    simp [lineOf, lineBody, kindOf, ascii]
  have hline : skipSpaces (ascii "  " ++ ((ascii "<DIR>   " ++ name) ++ 0x0A :: rest)) =
      (ascii "<DIR>   " ++ name) ++ 0x0A :: rest := rfl
  have hkind : (ascii "<ARQ>").isPrefixOf ((ascii "<DIR>   " ++ name) ++ 0x0A :: rest) = false := rfl
  have hskip : skipLine ((ascii "<DIR>   " ++ name) ++ 0x0A :: rest) = rest := by
    refine skipLine_line (fun h => ?_) rest
    rcases List.mem_append.mp h with h | h
    · revert h
      decide
    · exact hnl h
  rw [hshape, seedNames, hline]
  dsimp only
  rw [if_neg (by simp [ascii]), hkind, Bool.not_false, if_pos rfl, hskip]

theorem seedNames_nil (fuel : Nat) : seedNames fuel [] = [] := by
  cases fuel <;> rfl

theorem seedNames_lines {cs : List (FsType × CStr)} (hcs : ∀ c ∈ cs, 0x0A ∉ c.2 ∧ (c.1 = .file → Legible c.2))
    {fuel : Nat} (hfuel : cs.length ≤ fuel) :
    seedNames fuel (cs.flatMap fun c => lineOf (kindOf c.1) c.2) = cs.filterMap fileName := by
  induction cs generalizing fuel with
  | nil => exact seedNames_nil fuel
  | cons c cs ih =>
    rw [List.length_cons] at hfuel
    obtain ⟨fuel, rfl⟩ := Nat.exists_eq_add_of_le' (Nat.le_trans (Nat.le_add_left 1 _) hfuel)
    have hrest := ih (fun c hc => hcs c (List.mem_cons_of_mem _ hc)) (Nat.le_of_succ_le_succ hfuel)
    obtain ⟨hnl, hname⟩ := hcs c List.mem_cons_self
    obtain ⟨type, name⟩ := c
    cases type with
    | file => rw [List.flatMap_cons, seedNames_file (hname rfl) hnl, hrest]; rfl
    | dir => rw [List.flatMap_cons, seedNames_dir hnl, hrest]; rfl

/-! ## The files that are copied -/

def folders : List CStr := [nomos, paradosis]

def seedPaths (ns : Nodes) (src : CStr) : List CStr :=
  ((children src ns).filterMap fileName).map fun name => src ++ slash :: name

/-- A file of at most 511 bytes, at a canonical path of at most 47, that the process may read. -/
structure Fetchable (k : Kernel) (cur : Nat) (path : CStr) : Prop where
  short : path.length < stPath
  canonical : vfsNormalize root path fsNameMax = some path
  reads : Reads k cur path
  data : (fileAt k.nodes path).any (fun d => d.length < stData) = true

instance (k : Kernel) (cur : Nat) (path : CStr) : Decidable (Fetchable k cur path) :=
  decidable_of_iff
    (path.length < stPath ∧ vfsNormalize root path fsNameMax = some path ∧
      (callTarget k cur capFsRead path).isSome = true ∧
        (fileAt k.nodes path).any (fun d => d.length < stData) = true)
    ⟨fun ⟨h1, h2, h3, h4⟩ => ⟨h1, h2, h3, h4⟩, fun h => ⟨h.short, h.canonical, h.reads, h.data⟩⟩

/-- The files below the two folders lie in them directly, at most sixteen in all. Their names are read whole
from listings of at most 511 bytes. -/
structure Seedable (k : Kernel) (cur : Nat) : Prop where
  single : Single k.nodes
  reads : ∀ src ∈ folders, Reads k cur src
  listed : ∀ src ∈ folders, (childLines src k.nodes).length ≤ 511
  names : ∀ src ∈ folders, ∀ c ∈ children src k.nodes, 0x0A ∉ c.2 ∧ (c.1 = .file → Legible c.2)
  files : ∀ src ∈ folders, ∀ q ∈ seedPaths k.nodes src, Fetchable k cur q
  flat : ∀ n ∈ k.nodes, n.used = true → n.type = .file → inside n.path = true →
    ∃ src ∈ folders, (entryName src n.path).isSome = true
  few : (folders.flatMap (seedPaths k.nodes)).length ≤ stMax

/-- The store has the files at these paths. -/
structure Copied (k : Kernel) (st : Store) (done : List CStr) : Prop where
  dirs : st.dirs = dirSeeds
  distinct : Distinct st
  room : st.files.length ≤ done.length
  files : ∀ q, stored st q = if q ∈ done then fileAt k.nodes q else none

section

variable {env : Env} {k : Kernel} {cur : Nat} {st : Store} {done : List CStr} {src : CStr}

theorem inside_folder (hsrc : src ∈ folders) (name : CStr) :
    inside (src ++ slash :: name) = true ∧ vfsIsPseudo src = false ∧
      vfsNormalize root src fsNameMax = some src ∧ src.length ≤ 10 ∧ src ≠ root := by
  simp only [folders, List.mem_cons, List.not_mem_nil, or_false] at hsrc
  rcases hsrc with rfl | rfl
  · exact ⟨rfl, by decide, by decide +kernel, by decide, by decide⟩
  · exact ⟨rfl, by decide, by decide +kernel, by decide, by decide⟩

theorem seedFile_copied (hsrc : src ∈ folders) {name : CStr} (hfile : Fetchable k cur (src ++ slash :: name))
    (hroom : done.length < stMax) (h : Copied k st done) :
    Copied k (seedFile env k cur src st name) (done ++ [src ++ slash :: name]) := by
  obtain ⟨hinside, -, -, hlen, -⟩ := inside_folder hsrc name
  have hshort := hfile.short
  unfold stPath at hshort
  have hfull : src ++ [slash] ++ name = src ++ slash :: name := by simp
  have hlength : src.length + 1 + name.length < 64 := by
    rw [List.length_append, List.length_cons] at hshort
    omega
  obtain ⟨d, hd, hdata⟩ : ∃ d, fileAt k.nodes (src ++ slash :: name) = some d ∧ d.length < stData := by
    simpa [Option.any_eq_true] using hfile.data
  have hcall : callRead env k cur (src ++ slash :: name) (stData - 1) = some d := by
    rw [callRead_eq (inside_pseudo hinside) hfile.canonical hfile.reads, hd]
    exact congrArg some (List.take_of_length_le (Nat.le_pred_of_lt hdata))
  obtain ⟨st', hset⟩ := set_room (Nat.lt_of_le_of_lt h.room hroom) (src ++ slash :: name) d
  have hstep : seedFile env k cur src st name = st' := by
    unfold seedFile
    rw [if_pos hlength]
    dsimp only
    rw [hfull, hcall]
    simp [hset]
  have hcut : cut stPath (src ++ slash :: name) = src ++ slash :: name :=
    List.take_of_length_le (Nat.le_pred_of_lt hfile.short)
  rw [hstep]
  obtain ⟨hdirs, hfiles⟩ := fsdStSet_cases hset
  refine ⟨hdirs.trans h.dirs, distinct_set hfile.short h.distinct hset, ?_, fun q => ?_⟩
  · have hle := h.room
    rw [List.length_append, List.length_singleton]
    rcases hfiles with ⟨i, -, hfiles⟩ | ⟨-, -, hfiles⟩
    · rw [hfiles, List.length_modify]
      omega
    · rw [hfiles, List.length_append, List.length_singleton]
      omega
  · by_cases hq : q = src ++ slash :: name
    · have hkept : cut stData d = d := List.take_of_length_le (Nat.le_pred_of_lt hdata)
      rw [hq, stored_set_same hfile.short hset, hkept, if_pos (by simp), hd]
    · rw [stored_set_other hq (by rwa [hcut]) hset, h.files q]
      simp [hq]

theorem seedFiles_copied (hsrc : src ∈ folders) {names : List CStr}
    (hfiles : ∀ name ∈ names, Fetchable k cur (src ++ slash :: name)) (hroom : done.length + names.length ≤ stMax)
    (h : Copied k st done) :
    Copied k (names.foldl (seedFile env k cur src) st) (done ++ names.map fun name => src ++ slash :: name) := by
  induction names generalizing st done with
  | nil => simpa using h
  | cons name names ih =>
    rw [List.length_cons] at hroom
    have hfirst : Copied k (seedFile env k cur src st name) (done ++ [src ++ slash :: name]) :=
      seedFile_copied hsrc (hfiles name List.mem_cons_self) (by omega) h
    have hrest := ih (fun n hn => hfiles n (List.mem_cons_of_mem _ hn))
      (by rw [List.length_append, List.length_singleton]; omega) hfirst
    simpa using hrest

theorem childLines_nonempty (dir : CStr) (ns : Nodes) : (children dir ns).length ≤ (childLines dir ns).length := by
  unfold childLines
  generalize children dir ns = cs
  induction cs with
  | nil => simp
  | cons c cs ih =>
    have hline := length_lineOf (length_kindOf c.1) c.2
    rw [List.flatMap_cons, List.length_append, List.length_cons, hline]
    omega

theorem seedNames_folder (hs : Seedable k cur) (hsrc : src ∈ folders) :
    let list := (fsList k.nodes src 4096).take 511
    seedNames (list.length + 1) list = (children src k.nodes).filterMap fileName := by
  have hlisted := hs.listed src hsrc
  by_cases hne : children src k.nodes = []
  · simp only [fsList_empty hne, hne]
    rfl
  · have htake : (childLines src k.nodes).take 511 = childLines src k.nodes := List.take_of_length_le hlisted
    have hlist : fsList k.nodes src 4096 = childLines src k.nodes := fsList_eq (by omega) hne
    simp only [hlist, htake]
    exact seedNames_lines (hs.names src hsrc) (Nat.le_succ_of_le (childLines_nonempty src k.nodes))

theorem seedDir_copied (hs : Seedable k cur) (hsrc : src ∈ folders)
    (hroom : done.length + (seedPaths k.nodes src).length ≤ stMax) (h : Copied k st done) :
    Copied k (seedDir env k cur st src) (done ++ seedPaths k.nodes src) := by
  obtain ⟨-, hpseudo, hcan, -, -⟩ := inside_folder hsrc []
  have hnames := seedNames_folder hs hsrc
  unfold seedDir
  rw [callList_eq hpseudo hcan (hs.reads src hsrc)]
  dsimp only at hnames ⊢
  rw [hnames]
  refine seedFiles_copied hsrc (fun name hname => ?_) (by simpa [seedPaths] using hroom) h
  exact hs.files src hsrc _ (List.mem_map_of_mem hname)

theorem seed_copied (env : Env) (hs : Seedable k cur) :
    Copied k (fsdStSeed env k cur) (folders.flatMap (seedPaths k.nodes)) := by
  have hempty : Copied k { emptyStore with dirs := dirSeeds, dirs_le := by decide } [] :=
    ⟨rfl, List.nodup_nil, Nat.le_refl _, fun _ => rfl⟩
  have hfew := hs.few
  simp only [folders, List.flatMap_cons, List.flatMap_nil, List.append_nil, List.length_append] at hfew ⊢
  have hfirst : Copied k (seedDir env k cur _ nomos) ([] ++ seedPaths k.nodes nomos) :=
    seedDir_copied hs (by decide) (by simp; omega) hempty
  rw [List.nil_append] at hfirst
  exact seedDir_copied hs (by decide) hfew hfirst

theorem mem_seedPaths (hs : Seedable k cur) {q : CStr} (hq : inside q = true)
    (hfile : (fileAt k.nodes q).isSome = true) :
    q ∈ folders.flatMap (seedPaths k.nodes) := by
  unfold fileAt at hfile
  cases hget : fsGet k.nodes q with
  | none => simp [hget] at hfile
  | some n =>
    obtain ⟨hmem, hused, rfl⟩ := fsGet_mem hget
    have htype : n.type = .file := by
      cases htype : n.type with
      | file => rfl
      | dir => simp [hget, htype] at hfile
    obtain ⟨src, hsrc, hname⟩ := hs.flat n hmem hused htype hq
    obtain ⟨name, hname⟩ := Option.isSome_iff_exists.mp hname
    obtain ⟨-, -, -, -, hroot⟩ := inside_folder hsrc []
    have hchild : (FsType.file, name) ∈ children src k.nodes :=
      List.mem_filterMap.mpr ⟨n, hmem, by rw [if_pos hused, childName_eq hroot, hname, ← htype]; rfl⟩
    refine List.mem_flatMap.mpr ⟨src, hsrc, List.mem_map.mpr ⟨name, ?_, (entryName_iff.mp hname).1.symm⟩⟩
    exact List.mem_filterMap.mpr ⟨_, hchild, rfl⟩

/-- The store right after `fsd_st_seed` holds the files of the kernel. -/
theorem seed_mirrors (env : Env) (hs : Seedable k cur) : Mirror (fsdStSeed env k cur) k.nodes := by
  have hcopied := seed_copied env hs
  refine ⟨hcopied.dirs, hcopied.distinct, hs.single, fun q hq => ?_⟩
  rw [hcopied.files q]
  split_ifs with hdone
  · rfl
  · by_contra hsome
    exact hdone (mem_seedPaths hs hq (Option.isSome_iff_ne_none.mpr (Ne.symm hsome)))

end

end Siathos.Fsd
