import Mathlib.Data.List.Nodup
import Siathos.Fs.Mediation
import Siathos.Fs.Tree

/-!
# The files that the nodes hold
-/

open Lib Siathos.Nomos

namespace Siathos.Fs

/-- The bytes of the file at a path. -/
def fileAt (ns : Nodes) (q : CStr) : Option (List UInt8) :=
  (fsGet ns q).bind fun n => if n.type = .dir then none else some n.data

/-- No path is used twice. -/
def Single (ns : Nodes) : Prop := ∀ q, (nodesAt ns q).length ≤ 1

theorem fsRead_eq (ns : Nodes) (q : CStr) (max : Nat) : fsRead ns q max = (fileAt ns q).map (·.take max) := by
  unfold fsRead fileAt
  cases fsGet ns q with
  | none => rfl
  | some n => by_cases hdir : n.type = .dir <;> simp [hdir]

theorem fileAt_congr {ns ns' : Nodes} {q : CStr} (h : nodesAt ns' q = nodesAt ns q) : fileAt ns' q = fileAt ns q := by
  unfold fileAt
  rw [fsGet_eq, fsGet_eq, h]

def usedPaths (ns : Nodes) : List CStr := (ns.filter (·.used)).map (·.path)

theorem single_iff {ns : Nodes} : Single ns ↔ (usedPaths ns).Nodup := by
  rw [List.nodup_iff_count_le_one]
  refine forall_congr' fun q => ?_
  have hcount : (usedPaths ns).count q = (nodesAt ns q).length := by
    unfold usedPaths nodesAt
    rw [List.count, List.countP_map, List.countP_filter, List.countP_eq_length_filter]
    congr 2
    funext n
    rw [Bool.eq_iff_iff]
    simp [and_comm]
  rw [hcount]

variable {ns ns' : Nodes} {path : CStr}

/-! ## What changes them -/

theorem fsCreate_files {type : FsType} (hlen : path.length < fsNameMax) (h : fsCreate ns path type = some ns') :
    (Single ns → Single ns') ∧
      ∀ q, fileAt ns' q = if q = path then (if type = .dir then none else some []) else fileAt ns q := by
  have hsame := fsCreate_same hlen h
  refine ⟨fun hsingle q => ?_, fun q => ?_⟩
  · by_cases hq : q = path
    · simp [hq, hsame]
    · rw [fsCreate_other hlen h hq]
      exact hsingle q
  · split_ifs with hq hdir
    all_goals try simp [fileAt, fsGet_eq, hq, hsame, hdir]
    exact fileAt_congr (fsCreate_other hlen h hq)

theorem fsWrite_files {kmallocOk : Bool} {data : List UInt8} (h : fsWrite kmallocOk ns path data = some ns') :
    (Single ns → Single ns') ∧ ∀ q, fileAt ns' q = if q = path then some data else fileAt ns q := by
  obtain ⟨n, f, hn, -, rfl, hf, hdata⟩ := fsWrite_data h
  obtain ⟨rest, hold, hnew⟩ := updateNode_same hf hn
  have hother : ∀ q, q ≠ path → nodesAt (updateNode path f ns) q = nodesAt ns q := fun q hq =>
    updateNode_other (fun m => (hf m).1) hq ns
  refine ⟨fun hsingle q => ?_, fun q => ?_⟩
  · by_cases hq : q = path
    · have hlen := hsingle path
      rw [hold] at hlen
      rw [hq, hnew]
      simpa using hlen
    · rw [hother q hq]
      exact hsingle q
  · simp only [content, Prod.mk.injEq] at hdata
    split_ifs with hq
    · simp [fileAt, fsGet_eq, hq, hnew, hdata]
    · exact fileAt_congr (hother q hq)

theorem fsRemove_files (hsingle : Single ns) (h : fsRemove ns path = some ns') :
    Single ns' ∧ ∀ q, fileAt ns' q = if q = path then none else fileAt ns q := by
  obtain ⟨⟨hroot, n, hn, hempty⟩, hns'⟩ := fsRemove_cases h
  have hother : ∀ q, q ≠ path → nodesAt ns' q = nodesAt ns q := fun q hq => fsRemove_other h hq
  have hgone : nodesAt ns' path = [] := by
    have hfreed := updateNode_freed (f := fun n => { n with used := false, data := [], capacity := 0 })
      (fun _ => rfl) (Option.isSome_of_mem hn)
    rw [← hns'] at hfreed
    have hlen := hsingle path
    exact List.length_eq_zero_iff.mp (by omega)
  refine ⟨fun q => ?_, fun q => ?_⟩
  · by_cases hq : q = path
    · simp [hq, hgone]
    · rw [hother q hq]
      exact hsingle q
  · split_ifs with hq
    · simp [fileAt, fsGet_eq, hq, hgone]
    · exact fileAt_congr (hother q hq)

/-- `vfs_write` fails and changes nothing, writes the file, or makes it and fails to fill it. -/
theorem vfsWrite_cases {kmallocOk : Bool} {p : Policy} {data : List UInt8} {norm : CStr}
    (hpath : vfsPath p root path capFsWrite = some norm) :
    vfsWrite kmallocOk p ns root path data = (ns, false) ∨
      vfsIsPseudo norm = false ∧
        ((∃ ns', vfsWrite kmallocOk p ns root path data = (ns', true) ∧ (Single ns → Single ns') ∧
          ∀ q, fileAt ns' q = if q = norm then some data else fileAt ns q) ∨
        ∃ ns', vfsWrite kmallocOk p ns root path data = (ns', false) ∧ fileAt ns norm = none ∧
          ∀ q, fileAt ns' q = if q = norm then some [] else fileAt ns q) := by
  have hlen := vfsPath_length hpath
  unfold vfsWrite
  simp only [hpath]
  by_cases hpseudo : vfsIsPseudo norm = true
  · simp [hpseudo]
  rw [if_neg hpseudo, Bool.not_eq_true] at *
  by_cases hex : fsExists ns norm = true
  · rw [if_pos hex]
    dsimp only
    cases hwrite : fsWrite kmallocOk ns norm data with
    | none => exact .inl rfl
    | some ns' =>
      obtain ⟨hsingle, hfiles⟩ := fsWrite_files hwrite
      exact .inr ⟨hpseudo, .inl ⟨ns', rfl, hsingle, hfiles⟩⟩
  · rw [if_neg hex]
    cases hcreate : fsCreate ns norm .file with
    | none => exact .inl rfl
    | some ns₁ =>
      obtain ⟨hsingle, hnew⟩ := fsCreate_files hlen hcreate
      dsimp only
      cases hwrite : fsWrite kmallocOk ns₁ norm data with
      | none =>
        simp only [fsExists, Bool.or_eq_true, not_or, Option.not_isSome_iff_eq_none] at hex
        exact .inr ⟨hpseudo, .inr ⟨ns₁, rfl, by simp [fileAt, hex.2], by simpa using hnew⟩⟩
      | some ns₂ =>
        obtain ⟨hsingle', hfiles⟩ := fsWrite_files hwrite
        refine .inr ⟨hpseudo, .inl ⟨ns₂, rfl, hsingle' ∘ hsingle, fun q => ?_⟩⟩
        rw [hfiles, hnew]
        split <;> rfl

/-- `vfs_write` makes the file where there is none. -/
theorem vfsWrite_files {kmallocOk : Bool} {p : Policy} {data : List UInt8}
    (h : vfsWrite kmallocOk p ns root path data = (ns', true)) :
    ∃ norm, vfsPath p root path capFsWrite = some norm ∧ vfsIsPseudo norm = false ∧
      (Single ns → Single ns') ∧ ∀ q, fileAt ns' q = if q = norm then some data else fileAt ns q := by
  cases hpath : vfsPath p root path capFsWrite with
  | none => simp [vfsWrite, hpath] at h
  | some norm =>
    rcases @vfsWrite_cases ns path kmallocOk p data norm hpath with heq |
      ⟨hpseudo, ⟨ns₁, heq, hsingle, hfiles⟩ | ⟨ns₁, heq, -⟩⟩
    · simp [heq] at h
    · obtain rfl : ns₁ = ns' := (Prod.mk.inj (heq.symm.trans h)).1
      exact ⟨norm, rfl, hpseudo, hsingle, hfiles⟩
    · simp [heq] at h

end Siathos.Fs
