import Siathos.Fs.Canonical
import Siathos.Fs.Refine

/-!
# The trees that the system reaches

Who calls `fs.c` has its paths from `vfs_normalize`, or has constants of the same form.
-/

open Lib

namespace Siathos.Fs

/-- A canonical path that is a C string. -/
def Proper (path : CStr) : Prop := Canonical path ∧ 0 ∉ path

/-- The tree of a run: each path once, each in a directory, and all of them proper. -/
structure GoodTree (ns : Nodes) : Prop where
  paths : PathsInv ns
  proper : ∀ q, treeOf ns q ≠ none → Proper q

theorem Proper.normal {path : CStr} (h : Proper path) : Normal path := by
  obtain ⟨⟨comps, hcomps, rfl⟩, -⟩ := h
  exact Normal.pathOf hcomps

theorem Proper.name_ne {dir name : CStr} (h : Proper (dir ++ slash :: name)) (hroot : dir ++ slash :: name ≠ root) :
    name ≠ [] := by
  rintro rfl
  exact h.normal.noTrailing hroot (by simp)

namespace Table

def Op.paths : Op → List CStr
  | .create path _ | .write path _ _ | .remove path => [path]
  | .copy src dst _ | .move src dst _ => [src, dst]
  | .outside _ => []

theorem orError_other {ns : Nodes} {r : Option Nodes} {q : CStr}
    (h : ∀ ns', r = some ns' → nodesAt ns' q = nodesAt ns q) :
    nodesAt (orError ns r).1 q = nodesAt ns q := by
  cases r with
  | none => rfl
  | some ns' => exact h ns' rfl

theorem apply_other {t : Ramfs} (h : BuffersInv t) {o : Op} (ho : Allowed t o) {q : CStr} (hq : q ∉ o.paths) :
    nodesAt (nodesOf (apply t o).1) q = nodesAt (nodesOf t) q := by
  have hview : ∀ {r : Ramfs × Bool} {ns : Nodes × Bool}, Refines r ns → nodesAt ns.1 q = nodesAt (nodesOf t) q →
      nodesAt (nodesOf r.1) q = nodesAt (nodesOf t) q := by
    rintro r ns ⟨-, rfl⟩ hns
    exact hns
  cases o with
  | create path type =>
    refine hview (fsCreate_refines h path type) (orError_other fun ns' hc => ?_)
    exact fsCreate_other ho.2 hc fun heq => hq (by simp [Op.paths, heq])
  | write path data mem =>
    refine hview (fsWrite_refines h ho.2 path data) (orError_other fun ns' hw => ?_)
    exact fsWrite_other hw fun heq => hq (by simp [Op.paths, heq])
  | remove path =>
    refine hview (fsRemove_refines h path) (orError_other fun ns' hr => ?_)
    exact fsRemove_other hr fun heq => hq (by simp [Op.paths, heq])
  | copy src dst mem =>
    refine hview (fsCopy_refines h ho.2.2 src dst) (fsCopy_other mem.isSome src ho.2.1.2 fun heq => ?_)
    exact hq (by simp [Op.paths, heq])
  | move src dst mem =>
    refine hview (fsMove_refines h ho.2.2 src dst) (fsMove_other mem.isSome ho.2.1.2 (fun heq => ?_) fun heq => ?_)
    · exact hq (by simp [Op.paths, heq])
    · exact hq (by simp [Op.paths, heq])
  | outside heap =>
    have hnodes : nodesOf { t with heap } = nodesOf t :=
      List.map_congr_left fun n hn => view_congr (ho n hn)
    exact congrArg (nodesAt · q) hnodes

/-- The steps whose paths are proper. -/
abbrev ProperStep := Guarded (fun _ o => ∀ q ∈ o.paths, Proper q) Step

structure ProperInv (t : Ramfs) : Prop where
  table : TableInv t
  proper : ∀ q, tree t q ≠ none → Proper q

theorem ProperInv.init (heap : Heap) : ProperInv (fsInit heap) := by
  refine ⟨TableInv.init heap, fun q hq => absurd ?_ hq⟩
  simp [tree, treeOf, Fs.fsGet, nodesOf, fsInit, view]

theorem ProperInv.step {t u : Ramfs} (h : ProperInv t) {o : Op} (hstep : ProperStep t o u) : ProperInv u := by
  obtain ⟨hpaths, ho, rfl⟩ := hstep
  refine ⟨(apply_step h.table ho).1, fun q hq => ?_⟩
  by_cases hmem : q ∈ o.paths
  · exact hpaths q hmem
  · refine h.proper q ?_
    unfold tree at hq ⊢
    rwa [treeOf_eq, ← apply_other h.table.buffers ho hmem, ← treeOf_eq]

theorem goodTree_run {heap : Heap} {ops : List Op} {t : Ramfs} (h : Run ProperStep (fsInit heap) ops t) :
    GoodTree (nodesOf t) := by
  have hinv : ProperInv t := h.invariant (fun _ _ _ ht hstep => ht.step hstep) (ProperInv.init heap)
  exact ⟨hinv.table.paths, hinv.proper⟩

theorem properRun_of_admits {ops : List Op} {t : Ramfs} (hpaths : ∀ o ∈ ops, ∀ q ∈ o.paths, Proper q)
    (h : Admits Allowed (fun t o => (apply t o).1) t ops) :
    Run ProperStep t ops (ops.foldl (fun t o => (apply t o).1) t) := by
  induction ops generalizing t with
  | nil => exact Run.nil t
  | cons o ops ih =>
    obtain ⟨ho, hops⟩ := List.forall_mem_cons.mp hpaths
    exact Run.cons ⟨ho, h.1, rfl⟩ (ih hops h.2)

end Table

end Siathos.Fs
