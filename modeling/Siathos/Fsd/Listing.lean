import Siathos.Fs.Files
import Siathos.Fsd.Store

/-!
# Listings, of the store and of the kernel

Both write one line for each entry. The store skips a line that does not fit, and the kernel ends its text
there; the sixteen files of a store always fit.
-/

open Lib Siathos.Nomos Siathos.Fs Siathos.Syscall

namespace Siathos.Fsd

/-! ## Lines -/

/-- The line of an entry, without its newline. -/
def lineBody (kind name : CStr) : CStr := ascii "  " ++ kind ++ ascii "   " ++ name

def lineOf (kind name : CStr) : CStr := lineBody kind name ++ [0x0A]

def kindOf (type : FsType) : CStr := ascii (if type = .dir then "<DIR>" else "<ARQ>")

theorem length_lineOf {kind : CStr} (hkind : kind.length = 5) (name : CStr) :
    (lineOf kind name).length = name.length + 11 := by
  simp only [lineOf, lineBody, List.length_append, hkind]
  change 2 + 5 + 3 + name.length + 1 = _
  omega

theorem length_kindOf (type : FsType) : (kindOf type).length = 5 := by
  cases type <;> decide

/-- The same lines, in some order. -/
def SameEntries (t t' : CStr) : Prop := (t.splitOn 0x0A).Perm (t'.splitOn 0x0A)

instance (t t' : CStr) : Decidable (SameEntries t t') := inferInstanceAs (Decidable (List.Perm _ _))

theorem splitOn_entries (kind : CStr) (names : List CStr) :
    (names.flatMap (lineOf kind)).splitOn 0x0A =
      names.flatMap (fun name => (lineBody kind name).splitOn 0x0A) ++ [[]] := by
  induction names with
  | nil => rfl
  | cons name names ih =>
    rw [List.flatMap_cons, List.flatMap_cons, lineOf, List.append_assoc, List.singleton_append,
      List.splitOn_append_cons_self, ih, List.append_assoc]

theorem sameEntries_of_perm (kind : CStr) {names names' : List CStr} (h : names.Perm names') :
    SameEntries (names.flatMap (lineOf kind)) (names'.flatMap (lineOf kind)) := by
  unfold SameEntries
  rw [splitOn_entries, splitOn_entries]
  exact (h.flatMap_right _).append_right _

/-! ## The two listings -/

theorem drop_child (dir name : CStr) : (dir ++ slash :: name).drop (dir.length + 1) = name := by
  rw [← List.drop_drop, List.drop_left]
  rfl

theorem entryName_iff {dir p name : CStr} :
    entryName dir p = some name ↔ p = dir ++ slash :: name ∧ slash ∉ name := by
  unfold entryName
  constructor
  · intro h
    split_ifs at h with hp hhead hmore
    simp only [Bool.or_eq_true, decide_eq_true_eq, Bool.not_eq_true', not_or, Bool.not_eq_false] at hp
    obtain ⟨rest, rfl⟩ := List.isPrefixOf_iff_prefix.mp hp.2
    rw [List.drop_left] at hhead
    obtain ⟨tail, rfl⟩ : ∃ tail, rest = slash :: tail := by
      cases rest with
      | nil => simp at hhead
      | cons b tail => exact ⟨tail, by simpa using hhead⟩
    rw [drop_child] at h hmore
    rw [← Option.some.inj h]
    exact ⟨rfl, by simpa using hmore⟩
  · rintro ⟨rfl, hname⟩
    have hne : dir ++ slash :: name ≠ dir := by simp
    have hinside : dir.isPrefixOf (dir ++ slash :: name) = true :=
      List.isPrefixOf_iff_prefix.mpr (List.prefix_append _ _)
    rw [drop_child, List.drop_left]
    simp [hne, hinside, hname]

theorem entryName_length {dir p name : CStr} (h : entryName dir p = some name) : name.length < p.length := by
  obtain ⟨rfl, -⟩ := entryName_iff.mp h
  simp
  omega

theorem childName_eq {dir : CStr} (hdir : dir ≠ root) (p : CStr) : childName dir p = entryName dir p := by
  unfold childName entryName
  by_cases hp : p = dir
  · simp [hp]
  · by_cases hinside : dir.isPrefixOf p = true
    · simp [hp, hdir, hinside]
    · simp [hp, hdir, hinside]

theorem stLines_eq {dir kind : CStr} {max : Nat} (hkind : kind.length = 5) {ps : List CStr}
    (hshort : ∀ p ∈ ps, p.length < stPath) {used : CStr} (hroom : used.length + 64 * ps.length ≤ max) :
    stLines dir max kind used ps = used ++ (ps.filterMap (entryName dir)).flatMap (lineOf kind) := by
  induction ps generalizing used with
  | nil => simp [stLines]
  | cons p ps ih =>
    rw [List.length_cons] at hroom
    have hrest := fun q hq => hshort q (List.mem_cons_of_mem _ hq)
    unfold stLines
    cases hname : entryName dir p with
    | none =>
      rw [List.filterMap_cons, hname]
      exact ih hrest (by omega)
    | some nome =>
      have hlen := Nat.lt_trans (entryName_length hname) (hshort p List.mem_cons_self)
      unfold stPath at hlen
      have hline := length_lineOf hkind nome
      have hnext : used ++ ascii "  " ++ kind ++ ascii "   " ++ nome ++ ascii "\n" = used ++ lineOf kind nome := by
        simp [lineOf, lineBody, ascii]
      dsimp only
      rw [if_pos (by omega), hnext, ih hrest (by rw [List.length_append, hline]; omega)]
      simp [hname]

theorem stLines_none {dir : CStr} (max : Nat) (kind : CStr) {ps : List CStr} (h : ∀ p ∈ ps, entryName dir p = none)
    (used : CStr) : stLines dir max kind used ps = used := by
  induction ps with
  | nil => rfl
  | cons p ps ih =>
    unfold stLines
    rw [h p List.mem_cons_self]
    exact ih fun q hq => h q (List.mem_cons_of_mem _ hq)

/-- The entries of `fs_list`. -/
def children (dir : CStr) (ns : Nodes) : List (FsType × CStr) :=
  ns.filterMap fun n => (if n.used then childName dir n.path else none).map (n.type, ·)

def childLines (dir : CStr) (ns : Nodes) : CStr :=
  (children dir ns).flatMap fun c => lineOf (kindOf c.1) c.2

theorem listLines_eq {dir : CStr} {max : Nat} {ns : Nodes} {used : CStr}
    (hroom : used.length + (childLines dir ns).length < max) :
    listLines dir max used ns = used ++ childLines dir ns := by
  induction ns generalizing used with
  | nil => simp [listLines, childLines, children]
  | cons n ns ih =>
    unfold listLines
    cases hname : (if n.used then childName dir n.path else none) with
    | none =>
      have hrest : childLines dir (n :: ns) = childLines dir ns := by simp [childLines, children, hname]
      rw [hrest] at hroom ⊢
      exact ih hroom
    | some name =>
      have hrest : childLines dir (n :: ns) = lineOf (kindOf n.type) name ++ childLines dir ns := by
        simp [childLines, children, hname]
      have hline : ascii "  " ++ ascii (if n.type = .dir then "<DIR>" else "<ARQ>") ++ ascii "   " ++ name ++
          ascii "\n" = lineOf (kindOf n.type) name := rfl
      rw [hrest, List.length_append] at hroom
      have hcut : cut (max - used.length) (lineOf (kindOf n.type) name) = lineOf (kindOf n.type) name :=
        List.take_of_length_le (by omega)
      dsimp only
      rw [hline, hcut, if_neg (by omega), ih (by rw [List.length_append]; omega), hrest, List.append_assoc]

theorem any_child_iff {dir : CStr} {ns : Nodes} :
    ns.any (fun n => n.used && (childName dir n.path).isSome) = true ↔ children dir ns ≠ [] := by
  constructor
  · intro h hnil
    obtain ⟨n, hn, hchild⟩ := List.any_eq_true.mp h
    simp only [Bool.and_eq_true] at hchild
    have hnone := List.filterMap_eq_nil_iff.mp hnil n hn
    rw [if_pos hchild.1, Option.map_eq_none_iff] at hnone
    simp [hnone] at hchild
  · intro hne
    obtain ⟨c, hc⟩ := List.exists_mem_of_ne_nil _ hne
    obtain ⟨n, hn, hname⟩ := List.mem_filterMap.mp hc
    refine List.any_eq_true.mpr ⟨n, hn, ?_⟩
    by_cases hused : n.used = true
    · rw [if_pos hused] at hname
      obtain ⟨name, hsome, -⟩ := Option.map_eq_some_iff.mp hname
      simp [hused, hsome]
    · simp [hused] at hname

theorem fsList_eq {dir : CStr} {max : Nat} {ns : Nodes} (hroom : (childLines dir ns).length < max)
    (hne : children dir ns ≠ []) : fsList ns dir max = childLines dir ns := by
  unfold fsList
  rw [if_pos (any_child_iff.mpr hne), listLines_eq (by simpa using hroom), List.nil_append]

theorem fsList_empty {dir : CStr} {ns : Nodes} (hne : children dir ns = []) :
    fsList ns dir 4096 = ascii "  (vazio)\n" := by
  unfold fsList
  rw [if_neg fun h => any_child_iff.mp h hne]
  rfl

theorem childLines_length {dir : CStr} {ns : Nodes} (hshort : ∀ c ∈ children dir ns, c.2.length < stPath) :
    (childLines dir ns).length ≤ 64 * (children dir ns).length := by
  unfold childLines
  generalize children dir ns = cs at hshort
  induction cs with
  | nil => simp
  | cons c cs ih =>
    have hlen := hshort c List.mem_cons_self
    have hrest := ih fun c hc => hshort c (List.mem_cons_of_mem _ hc)
    have hline := length_lineOf (length_kindOf c.1) c.2
    unfold stPath at hlen
    rw [List.flatMap_cons, List.length_append, List.length_cons, hline]
    omega

theorem children_names (dir : CStr) (ns : Nodes) :
    (children dir ns).map Prod.snd = (usedPaths ns).filterMap (childName dir) := by
  unfold children usedPaths
  induction ns with
  | nil => rfl
  | cons n ns ih =>
    by_cases hused : n.used = true
    · cases hname : childName dir n.path <;> simp_all
    · simp_all

/-! ## One folder, listed by both -/

section

variable {st : Store} {ns : Nodes} {dir : CStr}

theorem nodup_names {l : List CStr} (h : l.Nodup) (dir : CStr) : (l.filterMap (entryName dir)).Nodup := by
  refine h.filterMap fun p p' name hp hp' => ?_
  rw [(entryName_iff.mp hp).1, (entryName_iff.mp hp').1]

/-- The folder holds the same files here and there, and no folders. -/
structure SameFolder (st : Store) (ns : Nodes) (dir : CStr) : Prop where
  notRoot : dir ≠ root
  distinct : Distinct st
  single : Single ns
  files : ∀ q, (entryName dir q).isSome = true → stored st q = fileAt ns q
  flat : ∀ c ∈ children dir ns, c.1 = .file

theorem mem_usedPaths {q : CStr} : q ∈ usedPaths ns ↔ (fsGet ns q).isSome = true := by
  unfold usedPaths fsGet
  rw [List.find?_isSome]
  simp [and_assoc]

theorem mem_storedPaths {q : CStr} : q ∈ st.files.map (·.path) ↔ (stored st q).isSome = true := by
  unfold stored
  rw [Option.isSome_map, List.find?_isSome]
  simp

theorem SameFolder.found (h : SameFolder st ns dir) {q name : CStr} (hname : entryName dir q = some name) :
    (fsGet ns q).isSome = (fileAt ns q).isSome := by
  unfold fileAt
  cases hget : fsGet ns q with
  | none => rfl
  | some n =>
    obtain ⟨hmem, hused, rfl⟩ := fsGet_mem hget
    have hchild : (n.type, name) ∈ children dir ns :=
      List.mem_filterMap.mpr ⟨n, hmem, by rw [if_pos hused, childName_eq h.notRoot, hname]; rfl⟩
    have hfile : n.type = .file := h.flat _ hchild
    simp [hfile]

theorem SameFolder.names (h : SameFolder st ns dir) :
    ((st.files.map (·.path)).filterMap (entryName dir)).Perm ((children dir ns).map Prod.snd) := by
  have hchild : childName dir = entryName dir := funext (childName_eq h.notRoot)
  rw [children_names, hchild,
    List.perm_ext_iff_of_nodup (nodup_names h.distinct dir) (nodup_names (single_iff.mp h.single) dir)]
  intro name
  simp only [List.mem_filterMap]
  refine exists_congr fun q => and_congr_left fun hname => ?_
  rw [mem_usedPaths, mem_storedPaths, h.files q (by rw [hname]; rfl), h.found hname]

theorem SameFolder.lines (h : SameFolder st ns dir) :
    childLines dir ns = ((children dir ns).map Prod.snd).flatMap (lineOf (ascii "<ARQ>")) := by
  rw [List.flatMap_map]
  refine List.flatMap_congr fun c hc => ?_
  rw [h.flat c hc]
  rfl

theorem SameFolder.same (h : SameFolder st ns dir) (hdirs : ∀ d ∈ st.dirs, entryName dir d = none)
    (hne : children dir ns ≠ []) :
    SameEntries (fsdStList st dir (respMax - 1)) (fsList ns dir 4096) := by
  have hperm := h.names
  have hlen : (children dir ns).length ≤ stMax := by
    have hcount := hperm.length_eq
    rw [List.length_map] at hcount
    rw [← hcount]
    exact Nat.le_trans (List.length_filterMap_le _ _) (by simpa using st.files_le)
  have hshort : ∀ c ∈ children dir ns, c.2.length < stPath := by
    intro c hc
    obtain ⟨q, hq, hname⟩ := List.mem_filterMap.mp (hperm.mem_iff.mpr (List.mem_map_of_mem hc))
    obtain ⟨f, -, rfl⟩ := List.mem_map.mp hq
    exact Nat.lt_trans (entryName_length hname) f.path_lt
  unfold stMax at hlen
  have hstore : fsdStList st dir (respMax - 1) =
      ((st.files.map (·.path)).filterMap (entryName dir)).flatMap (lineOf (ascii "<ARQ>")) := by
    unfold fsdStList
    rw [stLines_none _ _ hdirs, stLines_eq rfl]
    · rfl
    · intro q hq
      obtain ⟨f, -, rfl⟩ := List.mem_map.mp hq
      exact f.path_lt
    · have hfiles := st.files_le
      unfold stMax at hfiles
      simp only [List.length_nil, List.length_map, respMax]
      omega
  have hlines := childLines_length hshort
  rw [hstore, fsList_eq (by omega) hne, h.lines]
  exact sameEntries_of_perm _ hperm

end

end Siathos.Fsd
