import Siathos.Fs.Mediation

/-!
# What a failed operation leaves behind

An operation that fails should leave the tree as it was. Those that make a node first and fill it
afterwards do not: where the bytes find no room, the empty node stays.
-/

open Lib Siathos.Nomos

namespace Siathos.Fs

/-- What a path holds, as users see it. -/
def contents (ns : Nodes) (q : CStr) : List (FsType × List UInt8) :=
  (nodesAt ns q).map fun n => (n.type, n.data)

def SameTree (ns ns' : Nodes) : Prop := ∀ q, contents ns' q = contents ns q

/-- The operations of `fs.c` and `vfs.c` that change the tree. -/
inductive FileOp
  | fsCreate (path : CStr) (type : FsType)
  | fsWrite (path : CStr) (data : List UInt8)
  | fsRemove (path : CStr)
  | fsCopy (src dst : CStr)
  | fsMove (src dst : CStr)
  | vfsCreate (path : CStr) (type : FsType)
  | vfsWrite (path : CStr) (data : List UInt8)
  | vfsRemove (path : CStr)
  | vfsCopy (src dst : CStr)
  | vfsMove (src dst : CStr)
  deriving DecidableEq, Repr

/-- The nodes that an operation leaves, and whether it returns `FS_OK`. -/
def orError (ns : Nodes) (r : Option Nodes) : Nodes × Bool := (r.getD ns, r.isSome)

def FileOp.run (kmallocOk : Bool) (p : Policy) (ns : Nodes) (cwd : CStr) : FileOp → Nodes × Bool
  | .fsCreate path type => orError ns (Fs.fsCreate ns path type)
  | .fsWrite path data => orError ns (Fs.fsWrite kmallocOk ns path data)
  | .fsRemove path => orError ns (Fs.fsRemove ns path)
  | .fsCopy src dst => Fs.fsCopy kmallocOk ns src dst
  | .fsMove src dst => Fs.fsMove kmallocOk ns src dst
  | .vfsCreate path type => orError ns (Fs.vfsCreate p ns cwd path type)
  | .vfsWrite path data => Fs.vfsWrite kmallocOk p ns cwd path data
  | .vfsRemove path => orError ns (Fs.vfsRemove p ns cwd path)
  | .vfsCopy src dst => Fs.vfsCopy kmallocOk p ns cwd src dst
  | .vfsMove src dst => Fs.vfsMove kmallocOk p ns cwd src dst

/-- An error leaves the tree as it was. -/
def AtomicOnError (ns : Nodes) (r : Nodes × Bool) : Prop := r.2 = false → SameTree ns r.1

theorem SameTree.refl (ns : Nodes) : SameTree ns ns := fun _ => rfl

theorem orError_atomic (ns : Nodes) (r : Option Nodes) : AtomicOnError ns (orError ns r) := by
  intro h
  cases r with
  | none => exact SameTree.refl ns
  | some ns' => simp [orError] at h

/-! ## A new node shows -/

theorem claimNode_length {n : FsNode} (hn : n.used = true) {ns ns' : Nodes}
    (h : claimNode n ns = some ns') :
    (nodesAt ns' n.path).length = (nodesAt ns n.path).length + 1 := by
  induction ns generalizing ns' with
  | nil => simp [claimNode] at h
  | cons m rest ih =>
    unfold claimNode at h
    split at h
    · obtain ⟨t, ht, rfl⟩ := Option.map_eq_some_iff.mp h
      rw [nodesAt_cons, nodesAt_cons]
      split
      · simp [ih ht]
      · exact ih ht
    · next hm =>
      obtain rfl := Option.some.inj h
      rw [nodesAt_cons, nodesAt_cons, if_pos ⟨hn, rfl⟩, if_neg (fun h => hm h.1), List.length_cons]

theorem fsCreate_not_same {ns ns' : Nodes} {path : CStr} {type : FsType}
    (h : fsCreate ns path type = some ns') : ¬ SameTree ns ns' := by
  intro hsame
  obtain ⟨-, hclaim⟩ := fsCreate_cases h
  have hlen := claimNode_length rfl hclaim
  dsimp only at hlen
  have heq := congrArg List.length (hsame (cut fsNameMax path))
  simp only [contents, List.length_map] at heq
  omega

/-! ## Copies -/

/-- The copy fits, under a name that `fs_create` stores whole. -/
def Lands (kmallocOk : Bool) (ns : Nodes) (src dst : CStr) : Prop :=
  dst.length < fsNameMax ∧ Fits kmallocOk ns src

/-- A name that `fs_create` cuts is not found again. -/
theorem fsCreate_cut {ns ns' : Nodes} {path : CStr} {type : FsType} (hlen : ¬ path.length < fsNameMax)
    (h : fsCreate ns path type = some ns') : fsGet ns' path = none := by
  obtain ⟨hc, hclaim⟩ := fsCreate_cases h
  have hne : path ≠ cut fsNameMax path := by
    intro heq
    have := congrArg List.length heq
    unfold cut at this
    rw [List.length_take] at this
    have hmax : fsNameMax = 256 := rfl
    omega
  rw [fsGet_eq, claimNode_other hclaim hne, nodesAt_of_none hc.fresh]
  rfl

theorem fsWrite_absent {kmallocOk : Bool} {ns : Nodes} {path : CStr} (data : List UInt8)
    (h : fsGet ns path = none) : fsWrite kmallocOk ns path data = none := by
  unfold fsWrite
  split
  · rfl
  · rw [h]

/-- `fs_copy` fails after it made the node exactly where the bytes do not land. -/
theorem fsCopy_lands {kmallocOk : Bool} {ns : Nodes} {src dst : CStr} (hc : Copyable ns src dst) :
    (fsCopy kmallocOk ns src dst).2 = true ↔ Lands kmallocOk ns src dst := by
  unfold Lands
  by_cases hlen : dst.length < fsNameMax
  · rw [fsCopy_ok kmallocOk ns src hlen]
    simp [hc, hlen]
  · refine iff_of_false ?_ fun h => hlen h.1
    obtain ⟨hnot, -⟩ | ⟨-, s, ns₁, -, hcreate, ⟨-, he⟩ | ⟨ns₂, hw, -⟩⟩ :=
      fsCopy_cases kmallocOk ns src dst
    · exact absurd hc hnot
    · simp [he]
    · rw [fsWrite_absent s.data (fsCreate_cut hlen hcreate)] at hw
      simp at hw

theorem fsCopy_atomic (kmallocOk : Bool) (ns : Nodes) (src dst : CStr) :
    AtomicOnError ns (fsCopy kmallocOk ns src dst) ↔
      (Copyable ns src dst → Lands kmallocOk ns src dst) := by
  unfold AtomicOnError
  obtain ⟨hnot, he⟩ | ⟨hc, s, ns₁, -, hcreate, hw⟩ := fsCopy_cases kmallocOk ns src dst
  · rw [he]
    exact iff_of_true (fun _ => SameTree.refl ns) fun hc => absurd hc hnot
  · rw [← fsCopy_lands hc]
    obtain ⟨-, he⟩ | ⟨ns₂, -, he⟩ := hw
    · rw [he]
      simp [hc, fsCreate_not_same hcreate]
    · simp [he]

/-! ## Moves -/

theorem fsRemove_copied {kmallocOk : Bool} {ns : Nodes} {src dst : CStr} (hc : Copyable ns src dst)
    (hl : Lands kmallocOk ns src dst) :
    (fsRemove (fsCopy kmallocOk ns src dst).1 src).isSome = true ↔ src ≠ root := by
  constructor
  · intro h
    obtain ⟨ns', hr⟩ := Option.isSome_iff_exists.mp h
    exact (fsRemove_cases hr).1.notRoot
  · intro hroot
    obtain ⟨s, hs, hfile⟩ := hc.file
    have hs' : fsGet (fsCopy kmallocOk ns src dst).1 src = some s := by
      rw [fsGet_eq, fsCopy_other kmallocOk src hl.1 hc.ne, ← fsGet_eq, hs]
    obtain ⟨ns', hr⟩ := fsRemove_of_removable ⟨hroot, s, hs', fun hdir => hfile hdir.1⟩
    rw [hr]
    rfl

theorem fsCopy_not_same {kmallocOk : Bool} {ns : Nodes} {src dst : CStr} (hc : Copyable ns src dst)
    (hl : Lands kmallocOk ns src dst) : ¬ SameTree ns (fsCopy kmallocOk ns src dst).1 := by
  intro hsame
  have hnew := hsame dst
  unfold contents at hnew
  rw [nodesAt_of_none hc.new.fresh, List.map_nil, List.map_eq_nil_iff] at hnew
  have hchanged := fsCopy_same kmallocOk hl.1 hc
  rw [hnew, nodesAt_of_none hc.new.fresh] at hchanged
  exact hchanged rfl

theorem fsMove_atomic (kmallocOk : Bool) (ns : Nodes) (src dst : CStr) :
    AtomicOnError ns (fsMove kmallocOk ns src dst) ↔
      (Copyable ns src dst → Lands kmallocOk ns src dst ∧ src ≠ root) := by
  have hcopy := fsCopy_atomic kmallocOk ns src dst
  have hlands := @fsCopy_lands kmallocOk ns src dst
  have hgone := @fsRemove_copied kmallocOk ns src dst
  have hkept := @fsCopy_not_same kmallocOk ns src dst
  have hfail : (fsCopy kmallocOk ns src dst).2 = true → Copyable ns src dst := by
    intro hok
    obtain ⟨-, he⟩ | ⟨hc, -⟩ := fsCopy_cases kmallocOk ns src dst
    · simp [he] at hok
    · exact hc
  unfold AtomicOnError at *
  unfold fsMove
  revert hcopy hlands hgone hkept hfail
  generalize fsCopy kmallocOk ns src dst = r
  obtain ⟨ns₁, ok⟩ := r
  intro hcopy hlands hgone hkept hfail
  cases ok with
  | false =>
    -- the copy failed, and so did the move
    rw [hcopy]
    constructor
    · intro h hc
      exact absurd ((hlands hc).mpr (h hc)) (by simp)
    · exact fun h hc => (h hc).1
  | true =>
    have hc := hfail rfl
    have hl := (hlands hc).mp rfl
    simp only [hc, hl, forall_const, true_and]
    rw [← hgone hc hl]
    cases hr : fsRemove ns₁ src with
    | none => simp [hkept hc hl]
    | some ns₂ => simp

/-! ## Writes through `vfs.c` -/

/-- The bytes fit a new file. -/
def Small (kmallocOk : Bool) (data : List UInt8) : Prop :=
  data.length ≤ fsMaxData ∧ (data = [] ∨ kmallocOk = true)

theorem vfsWrite_atomic (kmallocOk : Bool) (p : Policy) (ns : Nodes) (cwd path : CStr)
    (data : List UInt8) :
    AtomicOnError ns (vfsWrite kmallocOk p ns cwd path data) ↔
      ∀ norm ∈ vfsPath p cwd path capFsWrite, vfsIsPseudo norm = false → Creatable ns norm →
        Small kmallocOk data := by
  unfold AtomicOnError vfsWrite
  cases hpath : vfsPath p cwd path capFsWrite with
  | none => simp [SameTree.refl]
  | some norm =>
    have hlen := vfsPath_length hpath
    simp only [Option.mem_def, Option.some.injEq, forall_eq']
    split
    · next hpseudo => simp [hpseudo, SameTree.refl]
    · next hpseudo =>
      rw [Bool.not_eq_true] at hpseudo
      simp only [hpseudo, forall_const]
      by_cases hex : fsExists ns norm = true
      · -- the node is there: only `fs_write` runs
        have hnew : ¬ Creatable ns norm := fun h => fsExists_of_creatable h hex
        simp only [hnew, hex, if_true, false_implies, iff_true]
        cases fsWrite kmallocOk ns norm data with
        | none => exact fun _ => SameTree.refl ns
        | some ns' => simp
      · simp only [hex, if_false, Bool.false_eq_true]
        cases hcreate : fsCreate ns norm .file with
        | none =>
          have hnew : ¬ Creatable ns norm := by
            intro hc
            obtain ⟨ns', hns'⟩ := fsCreate_of_creatable hc .file
            rw [hcreate] at hns'
            simp at hns'
          simp [hnew, SameTree.refl]
        | some ns₁ =>
          have hc := (fsCreate_cases hcreate).1
          have hget : fsGet ns₁ norm = some ⟨norm, [], 0, .file, true⟩ := by
            rw [fsGet_eq, fsCreate_same hlen hcreate]
            rfl
          have hfits := fsWrite_new kmallocOk hget data
          simp only [hc, forall_const, Small, ← hfits]
          cases fsWrite kmallocOk ns₁ norm data with
          | none => simp [fsCreate_not_same hcreate]
          | some ns₂ => simp

/-! ## The rule -/

/-- Where a node is made, what should go into it fits. -/
def FileOp.Whole (kmallocOk : Bool) (p : Policy) (ns : Nodes) (cwd : CStr) : FileOp → Prop
  | .fsCopy src dst => Copyable ns src dst → Lands kmallocOk ns src dst
  | .fsMove src dst => Copyable ns src dst → Lands kmallocOk ns src dst ∧ src ≠ root
  | .vfsWrite path data =>
    ∀ norm ∈ vfsPath p cwd path capFsWrite, vfsIsPseudo norm = false → Creatable ns norm →
      Small kmallocOk data
  | .vfsCopy src dst =>
    ∀ nsrc ∈ vfsPath p cwd src capFsRead, ∀ ndst ∈ vfsPath p cwd dst capFsWrite,
      Copyable ns nsrc ndst → Fits kmallocOk ns nsrc
  | .vfsMove src dst =>
    ∀ nsrc ∈ vfsPath p cwd src capFsRead, ∀ ndst ∈ vfsPath p cwd dst capFsWrite,
      Copyable ns nsrc ndst → Fits kmallocOk ns nsrc ∧ nsrc ≠ root
  | .fsCreate .. | .fsWrite .. | .fsRemove _ | .vfsCreate .. | .vfsRemove _ => True

theorem vfsCopy_atomic (kmallocOk : Bool) (p : Policy) (ns : Nodes) (cwd src dst : CStr) :
    AtomicOnError ns (vfsCopy kmallocOk p ns cwd src dst) ↔
      ∀ nsrc ∈ vfsPath p cwd src capFsRead, ∀ ndst ∈ vfsPath p cwd dst capFsWrite,
        Copyable ns nsrc ndst → Fits kmallocOk ns nsrc := by
  unfold vfsCopy
  cases vfsPath p cwd src capFsRead with
  | none => simp [AtomicOnError, SameTree.refl]
  | some nsrc =>
    cases hdst : vfsPath p cwd dst capFsWrite with
    | none => simp [AtomicOnError, SameTree.refl]
    | some ndst =>
      have hlen := vfsPath_length hdst
      simp only [Option.mem_def, Option.some.injEq, forall_eq']
      rw [fsCopy_atomic]
      simp [Lands, hlen]

theorem vfsMove_atomic (kmallocOk : Bool) (p : Policy) (ns : Nodes) (cwd src dst : CStr) :
    AtomicOnError ns (vfsMove kmallocOk p ns cwd src dst) ↔
      ∀ nsrc ∈ vfsPath p cwd src capFsRead, ∀ ndst ∈ vfsPath p cwd dst capFsWrite,
        Copyable ns nsrc ndst → Fits kmallocOk ns nsrc ∧ nsrc ≠ root := by
  unfold vfsMove
  cases vfsPath p cwd src capFsRead with
  | none => simp [AtomicOnError, SameTree.refl]
  | some nsrc =>
    cases hdst : vfsPath p cwd dst capFsWrite with
    | none => simp [AtomicOnError, SameTree.refl]
    | some ndst =>
      have hlen := vfsPath_length hdst
      simp only [Option.mem_def, Option.some.injEq, forall_eq']
      rw [fsMove_atomic]
      simp [Lands, hlen]

theorem atomic_on_error_iff (kmallocOk : Bool) (p : Policy) (ns : Nodes) (cwd : CStr) (op : FileOp) :
    AtomicOnError ns (op.run kmallocOk p ns cwd) ↔ op.Whole kmallocOk p ns cwd := by
  cases op with
  | fsCreate path type => exact iff_of_true (orError_atomic ns _) trivial
  | fsWrite path data => exact iff_of_true (orError_atomic ns _) trivial
  | fsRemove path => exact iff_of_true (orError_atomic ns _) trivial
  | fsCopy src dst => exact fsCopy_atomic kmallocOk ns src dst
  | fsMove src dst => exact fsMove_atomic kmallocOk ns src dst
  | vfsCreate path type => exact iff_of_true (orError_atomic ns _) trivial
  | vfsWrite path data => exact vfsWrite_atomic kmallocOk p ns cwd path data
  | vfsRemove path => exact iff_of_true (orError_atomic ns _) trivial
  | vfsCopy src dst => exact vfsCopy_atomic kmallocOk p ns cwd src dst
  | vfsMove src dst => exact vfsMove_atomic kmallocOk p ns cwd src dst

/-- A tree with one file of one byte. -/
def oneFile : Nodes := [⟨ascii "/a", [7], 256, .file, true⟩, ⟨[], [], 0, .file, false⟩]

/-- Out of memory, a copy and a write each leave an empty file. -/
theorem empty_file_left :
    (¬ AtomicOnError oneFile
      ((FileOp.fsCopy (ascii "/a") (ascii "/b")).run false openPolicy oneFile root)) ∧
    ¬ AtomicOnError oneFile
      ((FileOp.vfsWrite (ascii "/c") [1]).run false openPolicy oneFile root) := by
  constructor
  · intro h
    exact absurd (h (by decide +kernel) (ascii "/b")) (by decide +kernel)
  · intro h
    exact absurd (h (by decide +kernel) (ascii "/c")) (by decide +kernel)

end Siathos.Fs
