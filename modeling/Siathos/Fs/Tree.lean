import Mathlib.Data.List.TakeWhile
import Mathlib.Logic.Function.Basic
import Siathos.Fs.Frame

/-!
# The tree that the nodes stand for

A tree is a map from paths to types and bytes. Each operation of `fs.c` that succeeds is one step of
the map.
-/

open Lib

namespace Siathos.Fs

abbrev Tree := CStr → Option (FsType × List UInt8)

/-- The directory that holds a path. -/
def parent (path : CStr) : CStr := if (dirname path).isEmpty then root else dirname path

namespace Tree

def IsDir (t : Tree) (q : CStr) : Prop := q = root ∨ ∃ data, t q = some (.dir, data)

/-- The path goes on below the directory. -/
def Below (dir q : CStr) : Prop := dir.isPrefixOf q = true ∧ (q.drop dir.length).head? = some slash

/-- A new node can be put there. -/
structure Vacant (t : Tree) (path : CStr) : Prop where
  notRoot : path ≠ root
  absent : t path = none
  parent : t.IsDir (Fs.parent path)

end Tree

inductive MapOp
  | create (path : CStr) (type : FsType)
  | write (path : CStr) (data : List UInt8)
  | remove (path : CStr)
  | copy (src dst : CStr)
  | move (src dst : CStr)
  deriving DecidableEq, Repr

/-- The operations on a map from paths. -/
inductive Tree.Step (t : Tree) : MapOp → Tree → Prop
  | create {path : CStr} (type : FsType) :
      t.Vacant path → Step t (.create path type) (Function.update t path (some (type, [])))
  | write {path : CStr} {old : List UInt8} (data : List UInt8) :
      t path = some (.file, old) → Step t (.write path data) (Function.update t path (some (.file, data)))
  | removeFile {path : CStr} {data : List UInt8} :
      t path = some (.file, data) → Step t (.remove path) (Function.update t path none)
  | removeDir {path : CStr} {data : List UInt8} :
      t path = some (.dir, data) → (∀ q, Tree.Below path q → t q = none) →
        Step t (.remove path) (Function.update t path none)
  | copy {src dst : CStr} {data : List UInt8} :
      t src = some (.file, data) → t.Vacant dst →
        Step t (.copy src dst) (Function.update t dst (some (.file, data)))
  | move {src dst : CStr} {data : List UInt8} :
      t src = some (.file, data) → t.Vacant dst →
        Step t (.move src dst) (Function.update (Function.update t dst (some (.file, data))) src none)

/-! ## The tree of a list of nodes -/

def content (n : FsNode) : FsType × List UInt8 := (n.type, n.data)

def treeOf (ns : Nodes) : Tree := fun q => (fsGet ns q).map content

theorem treeOf_eq (ns : Nodes) (q : CStr) : treeOf ns q = (nodesAt ns q).head?.map content := by
  unfold treeOf
  rw [fsGet_eq]

theorem treeOf_some {ns : Nodes} {q : CStr} {v : FsType × List UInt8} :
    treeOf ns q = some v ↔ ∃ n, fsGet ns q = some n ∧ content n = v := by
  unfold treeOf
  rw [Option.map_eq_some_iff]

theorem treeOf_none {ns : Nodes} {q : CStr} : treeOf ns q = none ↔ fsGet ns q = none := by
  unfold treeOf
  rw [Option.map_eq_none_iff]

theorem fsGet_mem {ns : Nodes} {q : CStr} {n : FsNode} (h : fsGet ns q = some n) :
    n ∈ ns ∧ n.used = true ∧ n.path = q := by
  have hp := List.find?_some h
  simp only [Bool.and_eq_true, decide_eq_true_eq] at hp
  exact ⟨List.mem_of_find?_eq_some h, hp⟩

theorem fsGet_isSome_of_mem {ns : Nodes} {n : FsNode} (h : n ∈ ns) (hused : n.used = true) :
    (fsGet ns n.path).isSome := by
  unfold fsGet
  rw [List.find?_isSome]
  exact ⟨n, h, by simp [hused]⟩

theorem fsIsDir_iff {ns : Nodes} {q : CStr} : fsIsDir ns q = true ↔ (treeOf ns).IsDir q := by
  unfold fsIsDir Tree.IsDir treeOf
  cases fsGet ns q with
  | none => simp
  | some n => simp [content]

theorem treeOf_update {ns ns' : Nodes} {path : CStr} {v : Option (FsType × List UInt8)}
    (hsame : treeOf ns' path = v) (hother : ∀ q, q ≠ path → nodesAt ns' q = nodesAt ns q) :
    treeOf ns' = Function.update (treeOf ns) path v := by
  funext q
  by_cases hq : q = path
  · subst hq
    rw [Function.update_self, hsame]
  · rw [Function.update_of_ne hq, treeOf_eq, treeOf_eq, hother q hq]

/-! ## Paths -/

/-- Paths such as `vfs_normalize` gives, and others that start with a slash. -/
def Absolute (path : CStr) : Prop := path.head? = some slash ∧ path.length < fsNameMax

instance (path : CStr) : Decidable (Absolute path) := inferInstanceAs (Decidable (_ ∧ _))

theorem Absolute.contains {path : CStr} (h : Absolute path) : path.contains slash = true := by
  have hmem := List.mem_of_head? h.1
  simpa using hmem

/-- A path is what `dirname` leaves, a slash, and a name without one. -/
theorem dirname_split {path : CStr} (h : path.contains slash = true) :
    ∃ name, path = dirname path ++ slash :: name ∧ slash ∉ name := by
  have hsplit := List.takeWhile_append_dropWhile (p := (· != slash)) (l := path.reverse)
  have hne : path.reverse.dropWhile (· != slash) ≠ [] := by
    intro hnil
    rw [List.dropWhile_eq_nil_iff] at hnil
    have hmem : slash ∈ path.reverse := by simpa using h
    exact absurd (hnil slash hmem) (by simp)
  obtain ⟨b, rest, hrest⟩ := List.exists_cons_of_ne_nil hne
  have hb : b = slash := by
    have hhead := List.head_dropWhile_not (p := (· != slash)) (l := path.reverse) hne
    simp only [hrest, List.head_cons] at hhead
    simpa using hhead
  subst hb
  refine ⟨(path.reverse.takeWhile (· != slash)).reverse, ?_, ?_⟩
  · rw [hrest] at hsplit
    have hrev := congrArg List.reverse hsplit
    rw [List.reverse_reverse, List.reverse_append, List.reverse_cons] at hrev
    unfold dirname
    rw [hrest]
    simpa using hrev.symm
  · intro hmem
    rw [List.mem_reverse] at hmem
    simpa using List.mem_takeWhile_imp hmem

theorem below_of_parent {path : CStr} (h : path.contains slash = true) (hroot : parent path ≠ root) :
    Tree.Below (parent path) path := by
  obtain ⟨name, hpath, -⟩ := dirname_split h
  unfold parent at hroot ⊢
  split at hroot
  · exact absurd rfl hroot
  · next hne =>
    rw [if_neg hne]
    unfold Tree.Below
    constructor
    · rw [List.isPrefixOf_iff_prefix]
      exact ⟨_, hpath.symm⟩
    · have hdrop := congrArg (List.drop (dirname path).length) hpath
      rw [List.drop_left] at hdrop
      rw [hdrop]
      rfl

theorem fsHasChildren_iff {ns : Nodes} {dir : CStr} :
    fsHasChildren ns dir = true ↔ ∃ q, Tree.Below dir q ∧ treeOf ns q ≠ none := by
  unfold fsHasChildren Tree.Below
  rw [List.any_eq_true]
  constructor
  · rintro ⟨n, hn, hbelow⟩
    simp only [Bool.and_eq_true, beq_iff_eq] at hbelow
    refine ⟨n.path, ⟨hbelow.1.2, hbelow.2⟩, ?_⟩
    rw [Ne, treeOf_none, ← Ne, Option.ne_none_iff_isSome]
    exact fsGet_isSome_of_mem hn hbelow.1.1
  · rintro ⟨q, ⟨hinside, hhead⟩, hsome⟩
    rw [Ne, treeOf_none, ← Ne, Option.ne_none_iff_exists'] at hsome
    obtain ⟨n, hn⟩ := hsome
    obtain ⟨hmem, hused, rfl⟩ := fsGet_mem hn
    exact ⟨n, hmem, by simp [hused, hinside, hhead]⟩

theorem parentOk_iff {ns : Nodes} {path : CStr} (h : Absolute path) (hroot : path ≠ root) :
    parentOk ns path = true ↔ (treeOf ns).IsDir (parent path) := by
  unfold parentOk parent
  rw [if_pos h.contains]
  have hle : (dirname path).length < fsNameMax := by
    obtain ⟨name, hpath, -⟩ := dirname_split h.contains
    have hlen := congrArg List.length hpath
    have hmax := h.2
    simp only [List.length_append, List.length_cons] at hlen
    omega
  split
  · have hlen : path.length ≠ 1 := by
      intro hone
      obtain ⟨b, hb⟩ := List.length_eq_one_iff.mp hone
      subst hb
      have hslash := h.1
      simp only [List.head?_cons, Option.some.injEq] at hslash
      exact hroot (by rw [hslash, root])
    simp [hlen, Tree.IsDir]
  · simp [hle, fsIsDir_iff]

/-! ## The invariant of the paths -/

/-- Each path is used once, and lies in a directory. -/
structure PathsInv (ns : Nodes) : Prop where
  absolute : ∀ n ∈ ns, n.used = true → Absolute n.path ∧ n.path ≠ root
  unique : ∀ q, (nodesAt ns q).length ≤ 1
  parents : ∀ q, treeOf ns q ≠ none → (treeOf ns).IsDir (parent q)

namespace PathsInv

variable {ns ns' : Nodes}

theorem init : PathsInv fsInit := by
  have hunused : ∀ n ∈ fsInit, n.used = false := by
    intro n hn
    rw [List.eq_of_mem_replicate hn]
  have hnone : ∀ q, nodesAt fsInit q = [] := by
    intro q
    unfold nodesAt
    rw [List.filter_eq_nil_iff]
    intro n hn
    simp [hunused n hn]
  refine ⟨?_, ?_, ?_⟩
  · intro n hn hused
    rw [hunused n hn] at hused
    simp at hused
  · intro q
    simp [hnone q]
  · intro q hq
    rw [treeOf_eq, hnone q] at hq
    simp at hq

theorem path (h : PathsInv ns) {q : CStr} (hq : treeOf ns q ≠ none) : Absolute q ∧ q ≠ root := by
  rw [Ne, treeOf_none, ← Ne, Option.ne_none_iff_exists'] at hq
  obtain ⟨n, hn⟩ := hq
  obtain ⟨hmem, hused, rfl⟩ := fsGet_mem hn
  exact h.absolute n hmem hused

theorem of_tree (hunique : ∀ q, (nodesAt ns q).length ≤ 1)
    (hpath : ∀ q, treeOf ns q ≠ none → Absolute q ∧ q ≠ root ∧ (treeOf ns).IsDir (parent q)) :
    PathsInv ns := by
  refine ⟨?_, hunique, fun q hq => (hpath q hq).2.2⟩
  intro n hn hused
  have hsome : treeOf ns n.path ≠ none := by
    rw [Ne, treeOf_none, ← Ne, Option.ne_none_iff_isSome]
    exact fsGet_isSome_of_mem hn hused
  exact ⟨(hpath _ hsome).1, (hpath _ hsome).2.1⟩

end PathsInv

theorem Tree.IsDir.update {t : Tree} {path q : CStr} (h : t.IsDir q) (hq : q ≠ path ∨ q = root)
    (v : Option (FsType × List UInt8)) : Tree.IsDir (Function.update t path v) q := by
  rcases h with h | ⟨data, hdata⟩
  · exact Or.inl h
  rcases hq with hq | hq
  · exact Or.inr ⟨data, by rw [Function.update_of_ne hq, hdata]⟩
  · exact Or.inl hq

theorem Tree.IsDir.ne {t : Tree} {path q : CStr} (h : t.IsDir q)
    (hfile : ∀ data, t path ≠ some (.dir, data)) : q ≠ path ∨ q = root := by
  rcases h with h | ⟨data, hdata⟩
  · exact Or.inr h
  · left
    rintro rfl
    exact hfile data hdata

theorem PathsInv.update {ns ns' : Nodes} {path : CStr} {v : Option (FsType × List UInt8)}
    (h : PathsInv ns) (hunique : ∀ q, (nodesAt ns' q).length ≤ 1)
    (htree : treeOf ns' = Function.update (treeOf ns) path v)
    (hnew : v ≠ none → Absolute path ∧ path ≠ root ∧ (treeOf ns).IsDir (parent path))
    (hleaf : ∀ q, (treeOf ns).IsDir (parent q) → treeOf ns q ≠ none ∨ v ≠ none →
      parent q ≠ path ∨ parent q = root) : PathsInv ns' := by
  apply PathsInv.of_tree hunique
  intro q hq
  rw [htree] at hq ⊢
  by_cases hqp : q = path
  · subst hqp
    rw [Function.update_self] at hq
    obtain ⟨habs, hroot, hdir⟩ := hnew hq
    exact ⟨habs, hroot, hdir.update (hleaf q hdir (Or.inr hq)) v⟩
  · rw [Function.update_of_ne hqp] at hq
    obtain ⟨habs, hroot⟩ := h.path hq
    have hdir := h.parents q hq
    exact ⟨habs, hroot, hdir.update (hleaf q hdir (Or.inl hq)) v⟩

/-! ## The operations are steps of the tree -/

section

variable {ns ns' : Nodes} {path : CStr}

theorem fsCreate_step (h : PathsInv ns) (hpath : Absolute path) {type : FsType}
    (hc : fsCreate ns path type = some ns') :
    PathsInv ns' ∧ treeOf ns' = Function.update (treeOf ns) path (some (type, [])) ∧
      (treeOf ns).Vacant path := by
  obtain ⟨hnew, -⟩ := fsCreate_cases hc
  have hsame := fsCreate_same hpath.2 hc
  have hother : ∀ q, q ≠ path → nodesAt ns' q = nodesAt ns q := fun q hq =>
    fsCreate_other hpath.2 hc hq
  have htree : treeOf ns' = Function.update (treeOf ns) path (some (type, [])) := by
    apply treeOf_update _ hother
    rw [treeOf_eq, hsame]
    rfl
  have habsent : treeOf ns path = none := treeOf_none.mpr hnew.fresh
  have hdir := (parentOk_iff hpath hnew.notRoot).mp hnew.parent
  refine ⟨?_, htree, hnew.notRoot, habsent, hdir⟩
  apply h.update _ htree
  · exact fun _ => ⟨hpath, hnew.notRoot, hdir⟩
  · intro q hq _
    apply hq.ne
    simp [habsent]
  · intro q
    by_cases hq : q = path
    · subst hq
      simp [hsame]
    · rw [hother q hq]
      exact h.unique q

/-- What `fs_write` does to the node that it finds. -/
theorem fsWrite_data {kmallocOk : Bool} {data : List UInt8}
    (hw : fsWrite kmallocOk ns path data = some ns') :
    ∃ n f, fsGet ns path = some n ∧ n.type = .file ∧ ns' = updateNode path f ns ∧
      (∀ m, (f m).path = m.path ∧ (f m).used = m.used) ∧ content (f n) = (.file, data) := by
  unfold fsWrite at hw
  split at hw
  · simp at hw
  split at hw
  · simp at hw
  next n hn =>
  split at hw
  · simp at hw
  next hdir =>
  have hfile : n.type = .file := by
    revert hdir
    cases n.type <;> simp
  split at hw
  · dsimp only at hw
    split at hw
    · refine ⟨n, _, hn, hfile, (Option.some.inj hw).symm, fun _ => ⟨rfl, rfl⟩, ?_⟩
      simp [content, hfile]
    · simp at hw
  · refine ⟨n, _, hn, hfile, (Option.some.inj hw).symm, fun _ => ⟨rfl, rfl⟩, ?_⟩
    simp [content, hfile]

theorem fsWrite_step (h : PathsInv ns) {kmallocOk : Bool} {data : List UInt8}
    (hw : fsWrite kmallocOk ns path data = some ns') :
    PathsInv ns' ∧ treeOf ns' = Function.update (treeOf ns) path (some (.file, data)) ∧
      ∃ old, treeOf ns path = some (.file, old) := by
  obtain ⟨n, f, hn, hfile, rfl, hf, hdata⟩ := fsWrite_data hw
  obtain ⟨rest, hold, hnew⟩ := updateNode_same hf hn
  have hother : ∀ q, q ≠ path → nodesAt (updateNode path f ns) q = nodesAt ns q := fun q hq =>
    updateNode_other (fun m => (hf m).1) hq ns
  have htree : treeOf (updateNode path f ns) =
      Function.update (treeOf ns) path (some (.file, data)) := by
    apply treeOf_update _ hother
    rw [treeOf_eq, hnew, List.head?_cons, Option.map_some, hdata]
  have hfound : treeOf ns path = some (.file, n.data) := by
    rw [treeOf_some]
    exact ⟨n, hn, by simp [content, hfile]⟩
  have hsome : treeOf ns path ≠ none := by simp [hfound]
  refine ⟨?_, htree, n.data, hfound⟩
  apply h.update _ htree
  · exact fun _ => ⟨(h.path hsome).1, (h.path hsome).2, h.parents path hsome⟩
  · intro q hq _
    apply hq.ne
    simp [hfound]
  · intro q
    by_cases hq : q = path
    · subst hq
      have hlen := h.unique q
      rw [hold] at hlen
      rw [hnew]
      simpa using hlen
    · rw [hother q hq]
      exact h.unique q

theorem fsRemove_step (h : PathsInv ns) (hr : fsRemove ns path = some ns') :
    PathsInv ns' ∧ Tree.Step (treeOf ns) (.remove path) (treeOf ns') ∧
      treeOf ns' = Function.update (treeOf ns) path none := by
  obtain ⟨⟨hroot, n, hn, hempty⟩, hns'⟩ := fsRemove_cases hr
  have hother : ∀ q, q ≠ path → nodesAt ns' q = nodesAt ns q := fun q hq => fsRemove_other hr hq
  have hgone : (nodesAt ns' path).length = 0 := by
    have hfreed := updateNode_freed (f := fun n => { n with used := false, data := [], capacity := 0 })
      (fun _ => rfl) (Option.isSome_of_mem hn)
    rw [← hns'] at hfreed
    have := h.unique path
    omega
  have htree : treeOf ns' = Function.update (treeOf ns) path none := by
    apply treeOf_update _ hother
    rw [treeOf_eq, List.length_eq_zero_iff.mp hgone]
    rfl
  have hfound : treeOf ns path = some (n.type, n.data) := treeOf_some.mpr ⟨n, hn, rfl⟩
  -- a directory that goes away holds nothing
  have hchildless : n.type = .dir → ∀ q, Tree.Below path q → treeOf ns q = none := by
    intro hdir q hq
    by_contra hsome
    exact hempty ⟨hdir, fsHasChildren_iff.mpr ⟨q, hq, hsome⟩⟩
  refine ⟨?_, ?_, htree⟩
  · apply h.update _ htree
    · exact fun hne => absurd rfl hne
    · intro q hq hsome
      rcases hsome with hsome | hne
      · by_cases hdir : n.type = .dir
        · by_contra hbad
          rw [not_or, not_not] at hbad
          have hbelow := below_of_parent (h.path hsome).1.contains hbad.2
          rw [hbad.1] at hbelow
          exact hsome (hchildless hdir q hbelow)
        · apply hq.ne
          intro data heq
          rw [hfound] at heq
          simp at heq
          exact hdir heq.1
      · exact absurd rfl hne
    · intro q
      by_cases hq : q = path
      · subst hq
        omega
      · rw [hother q hq]
        exact h.unique q
  · rw [htree]
    cases hdir : n.type with
    | file =>
      rw [hdir] at hfound
      exact Tree.Step.removeFile hfound
    | dir =>
      rw [hdir] at hfound
      exact Tree.Step.removeDir hfound (hchildless hdir)

variable {src dst : CStr}

theorem fsCopy_step (src : CStr) (h : PathsInv ns) (hdst : Absolute dst) (kmallocOk : Bool) :
    PathsInv (fsCopy kmallocOk ns src dst).1 ∧
      ((fsCopy kmallocOk ns src dst).2 = true → ∃ data, treeOf ns src = some (.file, data) ∧
        (treeOf ns).Vacant dst ∧ treeOf (fsCopy kmallocOk ns src dst).1 =
          Function.update (treeOf ns) dst (some (.file, data))) := by
  obtain ⟨-, he⟩ | ⟨hc, s, ns₁, hs, hcreate, hw⟩ := fsCopy_cases kmallocOk ns src dst
  · rw [he]
    exact ⟨h, by simp⟩
  obtain ⟨h₁, htree₁, hvacant⟩ := fsCreate_step h hdst hcreate
  obtain ⟨-, he⟩ | ⟨ns₂, hw, he⟩ := hw
  · rw [he]
    exact ⟨h₁, by simp⟩
  obtain ⟨h₂, htree₂, -⟩ := fsWrite_step h₁ hw
  rw [he]
  refine ⟨h₂, fun _ => ⟨s.data, ?_, hvacant, ?_⟩⟩
  · obtain ⟨s', hs', hfile⟩ := hc.file
    obtain rfl : s = s' := Option.some.inj (hs.symm.trans hs')
    refine treeOf_some.mpr ⟨s, hs, ?_⟩
    revert hfile
    unfold content
    cases s.type <;> simp
  · rw [htree₂, htree₁, Function.update_idem]

theorem fsCopy_keeps (hdst : Absolute dst) (kmallocOk : Bool) {q : CStr} (hq : treeOf ns q ≠ none) :
    treeOf (fsCopy kmallocOk ns src dst).1 q = treeOf ns q := by
  rw [treeOf_eq, treeOf_eq]
  by_contra hne
  have hchanged : nodesAt (fsCopy kmallocOk ns src dst).1 q ≠ nodesAt ns q := fun h => hne (by rw [h])
  obtain ⟨rfl, hc⟩ := (fsCopy_changes kmallocOk ns src hdst.2 q).mp hchanged
  exact hq (treeOf_none.mpr hc.new.fresh)

theorem fsMove_failed {kmallocOk : Bool} (h : (fsMove kmallocOk ns src dst).2 = false) :
    (fsMove kmallocOk ns src dst).1 = (fsCopy kmallocOk ns src dst).1 := by
  unfold fsMove at h ⊢
  revert h
  generalize fsCopy kmallocOk ns src dst = r
  obtain ⟨ns₁, ok⟩ := r
  cases ok with
  | false => exact fun _ => rfl
  | true =>
    dsimp only
    cases fsRemove ns₁ src with
    | none => exact fun _ => rfl
    | some ns₂ => simp

theorem fsMove_step (src : CStr) (h : PathsInv ns) (hdst : Absolute dst) (kmallocOk : Bool) :
    PathsInv (fsMove kmallocOk ns src dst).1 ∧
      ((fsMove kmallocOk ns src dst).2 = true →
        Tree.Step (treeOf ns) (.move src dst) (treeOf (fsMove kmallocOk ns src dst).1)) := by
  have hcopy := fsCopy_step src h hdst kmallocOk
  unfold fsMove
  revert hcopy
  generalize fsCopy kmallocOk ns src dst = r
  obtain ⟨ns₁, ok⟩ := r
  rintro ⟨h₁, hok⟩
  cases ok with
  | false => exact ⟨h₁, by simp⟩
  | true =>
    obtain ⟨data, hsrc, hvacant, htree⟩ := hok rfl
    dsimp only at h₁ htree ⊢
    cases hr : fsRemove ns₁ src with
    | none => exact ⟨h₁, by simp⟩
    | some ns₂ =>
      obtain ⟨h₂, -, htree₂⟩ := fsRemove_step h₁ hr
      refine ⟨h₂, fun _ => ?_⟩
      dsimp only
      rw [htree₂, htree]
      exact Tree.Step.move hsrc hvacant

end

end Siathos.Fs
