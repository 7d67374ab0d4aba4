import Siathos.Fs.Frame

/-!
# Who lets a write through (`vfs.c`)

Every change of a path should have passed `vfs_check_cap` for that path, and no pseudo file should
change.
-/

open Lib Siathos.Nomos

namespace Siathos.Fs

/-! ## Normalized paths -/

theorem dirname_length_le (path : CStr) : (dirname path).length ≤ path.length := by
  unfold dirname
  have h := (List.dropWhile_suffix (· != slash) (l := path.reverse)).length_le
  simp only [List.length_reverse, List.length_drop] at h ⊢
  omega

theorem normalizeStep_length {outMax : Nat} (h : 1 < outMax) {out comp norm : CStr}
    (hout : out.length < outMax) (hstep : normalizeStep outMax (some out) comp = some norm) :
    norm.length < outMax := by
  simp only [normalizeStep, Option.bind_some] at hstep
  split_ifs at hstep with h1 h2 h3 h4 h5 h6
  all_goals
    simp only [Option.some.injEq] at hstep
    subst hstep
  · exact hout
  · simpa [root] using h
  · have := dirname_length_le out
    omega
  · simp only [List.length_append, List.length_singleton]
    omega
  · simp only [root, List.length_append, List.length_singleton]
    omega

/-- A path that `vfs_normalize` gives fits its buffer. -/
theorem vfsNormalize_length {cwd path norm : CStr} (h : vfsNormalize cwd path fsNameMax = some norm) :
    norm.length < fsNameMax := by
  have hfold : ∀ (l : List CStr) (out : Option CStr), (∀ o ∈ out, o.length < fsNameMax) →
      ∀ o ∈ l.foldl (normalizeStep fsNameMax) out, o.length < fsNameMax := by
    intro l
    induction l with
    | nil => exact fun _ hout => hout
    | cons comp l ih =>
      intro out hout
      apply ih
      intro o ho
      cases out with
      | none => cases ho
      | some out => exact normalizeStep_length (by decide) (hout out rfl) ho
  unfold vfsNormalize at h
  split at h
  · simp only [Option.some.injEq] at h
    subst h
    simp only [cut, List.length_take, fsNameMax]
    omega
  · refine hfold _ _ ?_ norm h
    rintro o ⟨⟩
    decide

theorem mem_vfsPath {p : Policy} {cwd path norm : CStr} {need : Rights} :
    norm ∈ vfsPath p cwd path need ↔
      vfsNormalize cwd path fsNameMax = some norm ∧ vfsCheckCap p norm need = true := by
  unfold vfsPath
  exact Option.filter_eq_some_iff

theorem vfsPath_length {p : Policy} {cwd path norm : CStr} {need : Rights}
    (h : norm ∈ vfsPath p cwd path need) : norm.length < fsNameMax :=
  vfsNormalize_length (mem_vfsPath.mp h).1

/-! ## Operations that write -/

inductive VfsOp
  | create (path : CStr) (type : FsType)
  | mkdir (path : CStr)
  | write (path : CStr) (data : List UInt8)
  | remove (path : CStr)
  | copy (src dst : CStr)
  | move (src dst : CStr)
  deriving DecidableEq, Repr

/-- The nodes after the operation. -/
def VfsOp.run (kmallocOk : Bool) (p : Policy) (ns : Nodes) (cwd : CStr) : VfsOp → Nodes
  | .create path type => (vfsCreate p ns cwd path type).getD ns
  | .mkdir path => (vfsMkdir p ns cwd path).getD ns
  | .write path data => (vfsWrite kmallocOk p ns cwd path data).1
  | .remove path => (vfsRemove p ns cwd path).getD ns
  | .copy src dst => (vfsCopy kmallocOk p ns cwd src dst).1
  | .move src dst => (vfsMove kmallocOk p ns cwd src dst).1

/-! ## What they change -/

section

variable {kmallocOk : Bool} {p : Policy} {ns : Nodes} {cwd path q : CStr}

theorem create_changes {type : FsType} : nodesAt ((vfsCreate p ns cwd path type).getD ns) q ≠ nodesAt ns q ↔
    q ∈ vfsPath p cwd path capFsWrite ∧ Creatable ns q := by
  unfold vfsCreate
  cases hpath : vfsPath p cwd path capFsWrite with
  | none => simp
  | some norm =>
    rw [Option.bind_some, fsCreate_changes type (vfsPath_length hpath)]
    simp only [Option.mem_def, Option.some.injEq, eq_comm (a := q)]
    exact and_congr_right fun h => by rw [h]

theorem remove_changes : nodesAt ((vfsRemove p ns cwd path).getD ns) q ≠ nodesAt ns q ↔
    q ∈ vfsPath p cwd path capFsWrite ∧ Removable ns q := by
  unfold vfsRemove
  cases vfsPath p cwd path capFsWrite with
  | none => simp
  | some norm =>
    rw [Option.bind_some, fsRemove_changes]
    simp only [Option.mem_def, Option.some.injEq, eq_comm (a := q)]
    exact and_congr_right fun h => by rw [h]

theorem fsExists_of_creatable {ns : Nodes} {q : CStr} (h : Creatable ns q) : ¬ fsExists ns q = true := by
  simp [fsExists, h.notRoot, h.fresh]

/-- What `vfs_write` does to a path that it may write. -/
theorem write_permitted {norm : CStr} {data : List UInt8} (hpath : vfsPath p cwd path capFsWrite = some norm)
    (hpseudo : ¬ vfsIsPseudo norm = true) :
    nodesAt (vfsWrite kmallocOk p ns cwd path data).1 q ≠ nodesAt ns q ↔
      q = norm ∧ (Creatable ns norm ∨ Rewrites kmallocOk ns norm data) := by
  have hlen := vfsPath_length hpath
  unfold vfsWrite
  rw [hpath]
  dsimp only
  rw [if_neg hpseudo]
  by_cases hex : fsExists ns norm = true
  · rw [if_pos hex]
    have hnew : ¬ Creatable ns norm := fun h => fsExists_of_creatable h hex
    dsimp only
    cases hw : fsWrite kmallocOk ns norm data with
    | none =>
      refine iff_of_false (fun h => h rfl) ?_
      rintro ⟨-, h | h⟩
      · exact hnew h
      · obtain ⟨ns', hns'⟩ := fsWrite_isSome h
        rw [hw] at hns'
        cases hns'
    | some ns₂ =>
      constructor
      · intro h
        obtain rfl : q = norm := by
          by_contra hq
          exact h (fsWrite_other hw hq)
        exact ⟨rfl, Or.inr ((fsWrite_same hw).2.mp h)⟩
      · rintro ⟨rfl, h | h⟩
        · exact absurd h hnew
        · exact (fsWrite_same hw).2.mpr h
  · rw [if_neg hex]
    have hget : fsGet ns norm = none := by
      simp only [fsExists, Bool.or_eq_true, not_or] at hex
      simpa using hex.2
    have hold : ¬ Rewrites kmallocOk ns norm data := by
      rintro ⟨-, n, hn, -⟩
      rw [hget] at hn
      cases hn
    cases hc : fsCreate ns norm .file with
    | none =>
      refine iff_of_false (fun h => h rfl) ?_
      rintro ⟨-, h | h⟩
      · obtain ⟨ns', hns'⟩ := fsCreate_of_creatable h .file
        rw [hc] at hns'
        cases hns'
      · exact hold h
    | some ns₁ =>
      have hcreatable := (fsCreate_cases hc).1
      have hnil := nodesAt_of_none hget
      dsimp only
      cases hw : fsWrite kmallocOk ns₁ norm data with
      | none =>
        constructor
        · intro h
          refine ⟨?_, Or.inl hcreatable⟩
          by_contra hq
          exact h (fsCreate_other hlen hc hq)
        · rintro ⟨rfl, -⟩
          simp [fsCreate_same hlen hc, hnil]
      | some ns₂ =>
        constructor
        · intro h
          refine ⟨?_, Or.inl hcreatable⟩
          by_contra hq
          exact h ((fsWrite_other hw hq).trans (fsCreate_other hlen hc hq))
        · rintro ⟨rfl, -⟩
          rw [hnil]
          exact (fsWrite_same hw).1

theorem write_changes {data : List UInt8} :
    nodesAt (vfsWrite kmallocOk p ns cwd path data).1 q ≠ nodesAt ns q ↔
      q ∈ vfsPath p cwd path capFsWrite ∧ vfsIsPseudo q = false ∧
        (Creatable ns q ∨ Rewrites kmallocOk ns q data) := by
  cases hpath : vfsPath p cwd path capFsWrite with
  | none => simp [vfsWrite, hpath]
  | some norm =>
    by_cases hpseudo : vfsIsPseudo norm = true
    · refine iff_of_false (fun h => h (by simp [vfsWrite, hpath, hpseudo])) ?_
      rintro ⟨⟨⟩, h, -⟩
      rw [hpseudo] at h
      cases h
    · rw [write_permitted hpath hpseudo]
      constructor
      · rintro ⟨rfl, h⟩
        exact ⟨rfl, by simpa using hpseudo, h⟩
      · rintro ⟨⟨⟩, -, h⟩
        exact ⟨rfl, h⟩

theorem copy_changes {src dst : CStr} : nodesAt (vfsCopy kmallocOk p ns cwd src dst).1 q ≠ nodesAt ns q ↔
    ∃ nsrc ∈ vfsPath p cwd src capFsRead, q ∈ vfsPath p cwd dst capFsWrite ∧ Copyable ns nsrc q := by
  unfold vfsCopy
  cases vfsPath p cwd src capFsRead with
  | none => simp
  | some nsrc =>
    cases hdst : vfsPath p cwd dst capFsWrite with
    | none => simp
    | some ndst =>
      dsimp only
      rw [fsCopy_changes kmallocOk ns nsrc (vfsPath_length hdst)]
      constructor
      · rintro ⟨rfl, hc⟩
        exact ⟨nsrc, rfl, rfl, hc⟩
      · rintro ⟨_, ⟨⟩, ⟨⟩, hc⟩
        exact ⟨rfl, hc⟩

theorem move_changes {src dst : CStr} : nodesAt (vfsMove kmallocOk p ns cwd src dst).1 q ≠ nodesAt ns q ↔
    ∃ nsrc ∈ vfsPath p cwd src capFsRead, ∃ ndst ∈ vfsPath p cwd dst capFsWrite,
      Copyable ns nsrc ndst ∧ (q = ndst ∨ (q = nsrc ∧ Fits kmallocOk ns nsrc ∧ nsrc ≠ root)) := by
  unfold vfsMove
  cases vfsPath p cwd src capFsRead with
  | none => simp
  | some nsrc =>
    cases hdst : vfsPath p cwd dst capFsWrite with
    | none => simp
    | some ndst =>
      dsimp only
      rw [fsMove_changes kmallocOk ns nsrc (vfsPath_length hdst)]
      constructor
      · intro h
        exact ⟨nsrc, rfl, ndst, rfl, h⟩
      · rintro ⟨_, ⟨⟩, _, ⟨⟩, h⟩
        exact h

end

/-! ## The rule -/

/-- The policy lets the path be written, and it is no pseudo file. -/
def MayWrite (p : Policy) (q : CStr) : Prop := vfsCheckCap p q capFsWrite = true ∧ vfsIsPseudo q = false

instance (p : Policy) (q : CStr) : Decidable (MayWrite p q) := inferInstanceAs (Decidable (_ ∧ _))

/-- Only paths that may be written have changed. -/
def Mediated (p : Policy) (ns ns' : Nodes) : Prop := ∀ q, nodesAt ns' q ≠ nodesAt ns q → MayWrite p q

/-- What `vfs_write` checks by itself: no node is made or removed in a pseudo file system, and no file
is moved away from where it may not be written. -/
def VfsOp.Checked (kmallocOk : Bool) (p : Policy) (ns : Nodes) (cwd : CStr) : VfsOp → Prop
  | .create path _ | .mkdir path =>
    ∀ norm ∈ vfsPath p cwd path capFsWrite, Creatable ns norm → vfsIsPseudo norm = false
  | .write _ _ => True
  | .remove path => ∀ norm ∈ vfsPath p cwd path capFsWrite, Removable ns norm → vfsIsPseudo norm = false
  | .copy src dst =>
    ∀ nsrc ∈ vfsPath p cwd src capFsRead, ∀ ndst ∈ vfsPath p cwd dst capFsWrite,
      Copyable ns nsrc ndst → vfsIsPseudo ndst = false
  | .move src dst =>
    ∀ nsrc ∈ vfsPath p cwd src capFsRead, ∀ ndst ∈ vfsPath p cwd dst capFsWrite,
      Copyable ns nsrc ndst →
        vfsIsPseudo ndst = false ∧ (Fits kmallocOk ns nsrc → nsrc ≠ root → MayWrite p nsrc)

theorem Mediated.refl (p : Policy) (ns : Nodes) : Mediated p ns ns := fun _ h => absurd rfl h

theorem create_mediated (p : Policy) (ns : Nodes) (cwd path : CStr) (type : FsType) :
    Mediated p ns ((vfsCreate p ns cwd path type).getD ns) ↔
      ∀ norm ∈ vfsPath p cwd path capFsWrite, Creatable ns norm → vfsIsPseudo norm = false := by
  unfold Mediated
  simp only [create_changes]
  constructor
  · intro h norm hpath hc
    exact (h norm ⟨hpath, hc⟩).2
  · rintro h q ⟨hpath, hc⟩
    exact ⟨(mem_vfsPath.mp hpath).2, h q hpath hc⟩

theorem remove_mediated (p : Policy) (ns : Nodes) (cwd path : CStr) :
    Mediated p ns ((vfsRemove p ns cwd path).getD ns) ↔
      ∀ norm ∈ vfsPath p cwd path capFsWrite, Removable ns norm → vfsIsPseudo norm = false := by
  unfold Mediated
  simp only [remove_changes]
  constructor
  · intro h norm hpath hr
    exact (h norm ⟨hpath, hr⟩).2
  · rintro h q ⟨hpath, hr⟩
    exact ⟨(mem_vfsPath.mp hpath).2, h q hpath hr⟩

theorem write_mediated (kmallocOk : Bool) (p : Policy) (ns : Nodes) (cwd path : CStr) (data : List UInt8) :
    Mediated p ns (vfsWrite kmallocOk p ns cwd path data).1 := by
  intro q hq
  obtain ⟨hpath, hpseudo, -⟩ := write_changes.mp hq
  exact ⟨(mem_vfsPath.mp hpath).2, hpseudo⟩

theorem copy_mediated (kmallocOk : Bool) (p : Policy) (ns : Nodes) (cwd src dst : CStr) :
    Mediated p ns (vfsCopy kmallocOk p ns cwd src dst).1 ↔
      ∀ nsrc ∈ vfsPath p cwd src capFsRead, ∀ ndst ∈ vfsPath p cwd dst capFsWrite,
        Copyable ns nsrc ndst → vfsIsPseudo ndst = false := by
  unfold Mediated
  simp only [copy_changes]
  constructor
  · intro h nsrc hsrc ndst hdst hc
    exact (h ndst ⟨nsrc, hsrc, hdst, hc⟩).2
  · rintro h q ⟨nsrc, hsrc, hdst, hc⟩
    exact ⟨(mem_vfsPath.mp hdst).2, h nsrc hsrc q hdst hc⟩

theorem move_mediated (kmallocOk : Bool) (p : Policy) (ns : Nodes) (cwd src dst : CStr) :
    Mediated p ns (vfsMove kmallocOk p ns cwd src dst).1 ↔
      ∀ nsrc ∈ vfsPath p cwd src capFsRead, ∀ ndst ∈ vfsPath p cwd dst capFsWrite,
        Copyable ns nsrc ndst →
          vfsIsPseudo ndst = false ∧ (Fits kmallocOk ns nsrc → nsrc ≠ root → MayWrite p nsrc) := by
  unfold Mediated
  simp only [move_changes]
  constructor
  · intro h nsrc hsrc ndst hdst hc
    refine ⟨(h ndst ⟨nsrc, hsrc, ndst, hdst, hc, Or.inl rfl⟩).2, fun hfits hroot => ?_⟩
    exact h nsrc ⟨nsrc, hsrc, ndst, hdst, hc, Or.inr ⟨rfl, hfits, hroot⟩⟩
  · rintro h q ⟨nsrc, hsrc, ndst, hdst, hc, rfl | ⟨rfl, hfits, hroot⟩⟩
    · exact ⟨(mem_vfsPath.mp hdst).2, (h nsrc hsrc q hdst hc).1⟩
    · exact (h q hsrc ndst hdst hc).2 hfits hroot

theorem vfs_mediated_iff (kmallocOk : Bool) (p : Policy) (ns : Nodes) (cwd : CStr) (op : VfsOp) :
    Mediated p ns (op.run kmallocOk p ns cwd) ↔ op.Checked kmallocOk p ns cwd := by
  cases op with
  | create path type => exact create_mediated p ns cwd path type
  | mkdir path => exact create_mediated p ns cwd path .dir
  | write path data => exact iff_of_true (write_mediated kmallocOk p ns cwd path data) trivial
  | remove path => exact remove_mediated p ns cwd path
  | copy src dst => exact copy_mediated kmallocOk p ns cwd src dst
  | move src dst => exact move_mediated kmallocOk p ns cwd src dst

/-- Nobody is logged in, and there are no contracts. -/
def openPolicy : Policy := ⟨authInit, synallagmaInit, 0⟩

/-- A tree with `/aisthesis`, `/oikos` and a file in the latter. -/
def smallTree : Nodes :=
  [⟨ascii "/aisthesis", [], 0, .dir, true⟩, ⟨ascii "/oikos", [], 0, .dir, true⟩,
    ⟨ascii "/oikos/a", [], 0, .file, true⟩, ⟨[], [], 0, .file, false⟩]

/-- A node appears in a pseudo file system, and a file leaves a folder that may only be read. -/
theorem vfs_unmediated :
    (¬ Mediated openPolicy smallTree
      ((VfsOp.create (ascii "/aisthesis/x") .file).run true openPolicy smallTree root)) ∧
    ¬ Mediated openPolicy smallTree
      ((VfsOp.move (ascii "/oikos/a") (ascii "/b")).run true openPolicy smallTree root) := by
  constructor
  · intro h
    have hmay := h (ascii "/aisthesis/x") (by decide +kernel)
    revert hmay
    decide +kernel
  · intro h
    have hmay := h (ascii "/oikos/a") (by decide +kernel)
    revert hmay
    decide +kernel

end Siathos.Fs
