import Siathos.Fs.Vfs

/-!
# What the operations of `fs.c` change

A node is known by its path: `nodesAt` is what a path holds.
-/

open Lib

namespace Siathos.Fs

def nodesAt (ns : Nodes) (q : CStr) : Nodes := ns.filter fun n => n.used && decide (n.path = q)

theorem fsGet_eq (ns : Nodes) (q : CStr) : fsGet ns q = (nodesAt ns q).head? := List.head?_filter.symm

theorem nodesAt_of_none {ns : Nodes} {q : CStr} (h : fsGet ns q = none) : nodesAt ns q = [] := by
  rw [fsGet_eq, List.head?_eq_none_iff] at h
  exact h

theorem nodesAt_cons (n : FsNode) (ns : Nodes) (q : CStr) :
    nodesAt (n :: ns) q = if n.used = true ∧ n.path = q then n :: nodesAt ns q else nodesAt ns q := by
  simp [nodesAt, List.filter_cons]

theorem fsGet_cons (n : FsNode) (ns : Nodes) (q : CStr) :
    fsGet (n :: ns) q = if n.used = true ∧ n.path = q then some n else fsGet ns q := by
  unfold fsGet
  by_cases h : n.used = true ∧ n.path = q <;> simp [h]

/-! ## Slots -/

theorem claimNode_isSome (n : FsNode) (ns : Nodes) :
    (claimNode n ns).isSome = true ↔ ∃ m ∈ ns, m.used = false := by
  induction ns with
  | nil => simp [claimNode]
  | cons m rest ih =>
    unfold claimNode
    split
    case isTrue h => simp [ih, h]
    case isFalse h => simp [h]

theorem claimNode_other {n : FsNode} {ns ns' : Nodes} (h : claimNode n ns = some ns') {q : CStr}
    (hq : q ≠ n.path) : nodesAt ns' q = nodesAt ns q := by
  induction ns generalizing ns' with
  | nil => simp [claimNode] at h
  | cons m rest ih =>
    unfold claimNode at h
    split at h
    case isTrue hm =>
      obtain ⟨t, ht, rfl⟩ := Option.map_eq_some_iff.mp h
      rw [nodesAt_cons, nodesAt_cons, ih ht]
    case isFalse hm =>
      simp only [Option.some.injEq] at h
      subst h
      rw [nodesAt_cons, nodesAt_cons, if_neg (fun hn => hq hn.2.symm), if_neg (fun hn => hm hn.1)]

theorem claimNode_same {n : FsNode} {ns ns' : Nodes} (h : claimNode n ns = some ns')
    (hn : n.used = true) (hnil : nodesAt ns n.path = []) : nodesAt ns' n.path = [n] := by
  induction ns generalizing ns' with
  | nil => simp [claimNode] at h
  | cons m rest ih =>
    rw [nodesAt_cons] at hnil
    unfold claimNode at h
    split at h
    case isTrue hm =>
      obtain ⟨t, ht, rfl⟩ := Option.map_eq_some_iff.mp h
      split at hnil
      case isTrue => simp at hnil
      case isFalse hp => rw [nodesAt_cons, if_neg hp, ih ht hnil]
    case isFalse hm =>
      simp only [Option.some.injEq] at h
      subst h
      rw [if_neg (fun hp => hm hp.1)] at hnil
      rw [nodesAt_cons, if_pos ⟨hn, rfl⟩, hnil]

theorem updateNode_other {path q : CStr} {f : FsNode → FsNode} (hf : ∀ n, (f n).path = n.path)
    (hq : q ≠ path) (ns : Nodes) : nodesAt (updateNode path f ns) q = nodesAt ns q := by
  induction ns with
  | nil => rfl
  | cons n rest ih =>
    unfold updateNode
    split
    case isTrue h =>
      simp only [Bool.and_eq_true, decide_eq_true_eq] at h
      have hn : n.path ≠ q := by
        rw [h.2]
        exact hq.symm
      rw [nodesAt_cons, nodesAt_cons, if_neg (fun ht => hn (hf n ▸ ht.2)), if_neg (fun ht => hn ht.2)]
    case isFalse => rw [nodesAt_cons, nodesAt_cons, ih]

theorem updateNode_freed {path : CStr} {f : FsNode → FsNode} (hf : ∀ n, (f n).used = false) {ns : Nodes}
    (h : (fsGet ns path).isSome = true) :
    (nodesAt (updateNode path f ns) path).length + 1 = (nodesAt ns path).length := by
  induction ns with
  | nil => simp [fsGet] at h
  | cons n rest ih =>
    unfold updateNode
    split
    case isTrue hn =>
      simp only [Bool.and_eq_true, decide_eq_true_eq] at hn
      rw [nodesAt_cons, nodesAt_cons, if_neg (by simp [hf]), if_pos hn]
      simp
    case isFalse hn =>
      simp only [Bool.and_eq_true, decide_eq_true_eq] at hn
      rw [fsGet_cons, if_neg hn] at h
      rw [nodesAt_cons, nodesAt_cons, if_neg hn, if_neg hn, ih h]

/-- A change that keeps the path shows in the node that `fs_get` finds. -/
theorem updateNode_same {path : CStr} {f : FsNode → FsNode}
    (hf : ∀ n, (f n).path = n.path ∧ (f n).used = n.used) {ns : Nodes} {n : FsNode}
    (h : fsGet ns path = some n) :
    ∃ rest, nodesAt ns path = n :: rest ∧ nodesAt (updateNode path f ns) path = f n :: rest := by
  induction ns with
  | nil => cases h
  | cons m rest ih =>
    unfold updateNode
    split
    case isTrue hm =>
      simp only [Bool.and_eq_true, decide_eq_true_eq] at hm
      rw [fsGet_cons, if_pos hm] at h
      rw [nodesAt_cons, if_pos hm, nodesAt_cons, if_pos ⟨(hf m).2.trans hm.1, (hf m).1.trans hm.2⟩,
        Option.some.inj h]
      exact ⟨_, rfl, rfl⟩
    case isFalse hm =>
      simp only [Bool.and_eq_true, decide_eq_true_eq] at hm
      rw [fsGet_cons, if_neg hm] at h
      rw [nodesAt_cons, if_neg hm, nodesAt_cons, if_neg hm]
      exact ih h

/-! ## Operations -/

/-- `fs_create` makes a node at the path. -/
structure Creatable (ns : Nodes) (path : CStr) : Prop where
  notRoot : path ≠ root
  fresh : fsGet ns path = none
  room : ∃ n ∈ ns, n.used = false
  parent : parentOk ns path = true

theorem fsCreate_cases {ns : Nodes} {path : CStr} {type : FsType} {ns' : Nodes}
    (h : fsCreate ns path type = some ns') : Creatable ns path ∧
      claimNode ⟨cut fsNameMax path, [], 0, type, true⟩ ns = some ns' := by
  unfold fsCreate at h
  split_ifs at h with h1 h2 h3 h4
  refine ⟨⟨h1, by simpa using h2, by simpa using h3, by simpa using h4⟩, h⟩

theorem fsCreate_of_creatable {ns : Nodes} {path : CStr} (h : Creatable ns path) (type : FsType) :
    ∃ ns', fsCreate ns path type = some ns' := by
  have hroom := (claimNode_isSome ⟨cut fsNameMax path, [], 0, type, true⟩ ns).mpr h.room
  obtain ⟨ns', hns'⟩ := Option.isSome_iff_exists.mp hroom
  refine ⟨ns', ?_⟩
  have hall : ¬ ns.all (·.used) = true := by simpa using h.room
  unfold fsCreate
  rw [if_neg h.notRoot, if_neg (by simp [h.fresh]), if_neg hall, if_neg (by simp [h.parent]), hns']

/-- Paths of the size that `vfs_normalize` gives are stored whole. -/
theorem cut_path {path : CStr} (h : path.length < fsNameMax) : cut fsNameMax path = path := by
  apply List.take_of_length_le
  omega

theorem fsCreate_other {ns ns' : Nodes} {path q : CStr} {type : FsType} (hlen : path.length < fsNameMax)
    (h : fsCreate ns path type = some ns') (hq : q ≠ path) : nodesAt ns' q = nodesAt ns q := by
  apply claimNode_other (fsCreate_cases h).2
  rwa [cut_path hlen]

theorem fsCreate_same {ns ns' : Nodes} {path : CStr} {type : FsType} (hlen : path.length < fsNameMax)
    (h : fsCreate ns path type = some ns') : nodesAt ns' path = [⟨path, [], 0, type, true⟩] := by
  obtain ⟨hc, hclaim⟩ := fsCreate_cases h
  rw [cut_path hlen] at hclaim
  exact claimNode_same hclaim rfl (nodesAt_of_none hc.fresh)

theorem le_grownCapacity (size cap fuel : Nat) : cap ≤ grownCapacity size cap fuel := by
  induction fuel generalizing cap with
  | zero => exact Nat.le_refl cap
  | succ fuel ih =>
    unfold grownCapacity
    split
    · have := ih (cap * 2)
      omega
    · exact Nat.le_refl cap

/-- `fs_write` finds a file there, and leaves it with other data or a larger buffer. -/
def Rewrites (kmallocOk : Bool) (ns : Nodes) (path : CStr) (data : List UInt8) : Prop :=
  data.length ≤ fsMaxData ∧ ∃ n, fsGet ns path = some n ∧ n.type ≠ .dir ∧
    if n.capacity < data.length then kmallocOk = true else n.data ≠ data

theorem fsWrite_cases {kmallocOk : Bool} {ns ns' : Nodes} {path : CStr} {data : List UInt8}
    (h : fsWrite kmallocOk ns path data = some ns') : ∃ n f, fsGet ns path = some n ∧
      ns' = updateNode path f ns ∧ (∀ m, (f m).path = m.path ∧ (f m).used = m.used) ∧
      (f n ≠ n ↔ Rewrites kmallocOk ns path data) := by
  unfold fsWrite at h
  split at h
  case isTrue => cases h
  case isFalse hsize =>
    split at h
    case h_1 => cases h
    case h_2 n hn =>
      split at h
      case isTrue => cases h
      case isFalse hdir =>
      split at h
      case isTrue hcap =>
        dsimp only at h
        by_cases hk : kmallocOk = true
        case neg =>
          rw [if_neg hk] at h
          cases h
        case pos =>
          rw [if_pos hk] at h
          refine ⟨n, _, hn, (Option.some.inj h).symm, fun _ => ⟨rfl, rfl⟩, iff_of_true ?_ ?_⟩
          · intro he
            have hgrown := le_grownCapacity data.length (if n.capacity = 0 then 256 else n.capacity * 2) data.length
            rw [show grownCapacity _ _ _ = n.capacity from congrArg FsNode.capacity he] at hgrown
            split at hgrown
            all_goals omega
          · exact ⟨Nat.not_lt.mp hsize, n, hn, hdir, by rwa [if_pos hcap]⟩
      case isFalse hcap =>
        refine ⟨n, _, hn, (Option.some.inj h).symm, fun _ => ⟨rfl, rfl⟩, ?_⟩
        constructor
        · intro hne
          refine ⟨Nat.not_lt.mp hsize, n, hn, hdir, ?_⟩
          rw [if_neg hcap]
          rintro rfl
          exact hne rfl
        · rintro ⟨-, m, hm, -, hdata⟩ he
          obtain rfl : n = m := Option.some.inj (hn.symm.trans hm)
          rw [if_neg hcap] at hdata
          exact hdata (congrArg FsNode.data he).symm

theorem fsWrite_same {kmallocOk : Bool} {ns ns' : Nodes} {path : CStr} {data : List UInt8}
    (h : fsWrite kmallocOk ns path data = some ns') :
    nodesAt ns' path ≠ [] ∧ (nodesAt ns' path ≠ nodesAt ns path ↔ Rewrites kmallocOk ns path data) := by
  obtain ⟨n, f, hn, rfl, hf, hiff⟩ := fsWrite_cases h
  obtain ⟨rest, hold, hnew⟩ := updateNode_same hf hn
  rw [hnew, hold, ← hiff]
  simp

theorem fsWrite_isSome {kmallocOk : Bool} {ns : Nodes} {path : CStr} {data : List UInt8}
    (h : Rewrites kmallocOk ns path data) : ∃ ns', fsWrite kmallocOk ns path data = some ns' := by
  obtain ⟨hsize, n, hn, hdir, hcap⟩ := h
  unfold fsWrite
  rw [if_neg (Nat.not_lt.mpr hsize), hn]
  dsimp only
  rw [if_neg hdir]
  split_ifs at hcap with hlt
  · rw [if_pos hlt, if_pos hcap]
    exact ⟨_, rfl⟩
  · rw [if_neg hlt]
    exact ⟨_, rfl⟩

theorem fsWrite_other {kmallocOk : Bool} {ns ns' : Nodes} {path q : CStr} {data : List UInt8}
    (h : fsWrite kmallocOk ns path data = some ns') (hq : q ≠ path) : nodesAt ns' q = nodesAt ns q := by
  obtain ⟨n, f, -, rfl, hf, -⟩ := fsWrite_cases h
  exact updateNode_other (fun n => (hf n).1) hq ns

theorem fsWrite_new (kmallocOk : Bool) {ns : Nodes} {path : CStr}
    (hget : fsGet ns path = some ⟨path, [], 0, .file, true⟩) (data : List UInt8) :
    (fsWrite kmallocOk ns path data).isSome = true ↔
      data.length ≤ fsMaxData ∧ (data = [] ∨ kmallocOk = true) := by
  unfold fsWrite
  rw [hget]
  split
  case isTrue h => simp; omega
  case isFalse h =>
    cases data with
    | nil => simp
    | cons b bs =>
      rw [List.length_cons] at h
      cases kmallocOk with
      | false => simp
      | true =>
        simp
        omega

/-- `fs_remove` takes away the node at the path. -/
structure Removable (ns : Nodes) (path : CStr) : Prop where
  notRoot : path ≠ root
  node : ∃ n, fsGet ns path = some n ∧ ¬ (n.type = .dir ∧ fsHasChildren ns path = true)

theorem fsRemove_cases {ns ns' : Nodes} {path : CStr} (h : fsRemove ns path = some ns') :
    Removable ns path ∧
      ns' = updateNode path (fun n => { n with used := false, data := [], capacity := 0 }) ns := by
  unfold fsRemove at h
  split at h
  case isTrue => cases h
  case isFalse hroot =>
    split at h
    case h_1 => cases h
    case h_2 n hn =>
      split_ifs at h with hdir
      exact ⟨⟨hroot, n, hn, hdir⟩, (Option.some.inj h).symm⟩

theorem fsRemove_of_removable {ns : Nodes} {path : CStr} (h : Removable ns path) :
    ∃ ns', fsRemove ns path = some ns' := by
  obtain ⟨hroot, n, hn, hdir⟩ := h
  simp [fsRemove, hroot, hn, hdir]

theorem fsRemove_other {ns ns' : Nodes} {path q : CStr} (h : fsRemove ns path = some ns') (hq : q ≠ path) :
    nodesAt ns' q = nodesAt ns q := by
  obtain ⟨_, rfl⟩ := fsRemove_cases h
  apply updateNode_other _ hq
  intro n
  rfl

theorem fsRemove_same {ns ns' : Nodes} {path : CStr} (h : fsRemove ns path = some ns') :
    nodesAt ns' path ≠ nodesAt ns path := by
  obtain ⟨⟨_, n, hn, _⟩, rfl⟩ := fsRemove_cases h
  have hlen := updateNode_freed (f := fun n => { n with used := false, data := [], capacity := 0 })
    (fun _ => rfl) (Option.isSome_of_mem hn)
  intro heq
  rw [heq] at hlen
  omega

/-! ## What changes -/

theorem fsCreate_changes {ns : Nodes} {path : CStr} (type : FsType) (hlen : path.length < fsNameMax) (q : CStr) :
    nodesAt ((fsCreate ns path type).getD ns) q ≠ nodesAt ns q ↔ q = path ∧ Creatable ns path := by
  cases hc : fsCreate ns path type with
  | none =>
    refine iff_of_false (fun h => h rfl) ?_
    rintro ⟨-, h⟩
    obtain ⟨ns', hns'⟩ := fsCreate_of_creatable h type
    rw [hc] at hns'
    cases hns'
  | some ns' =>
    have hcreatable := (fsCreate_cases hc).1
    rw [Option.getD_some]
    constructor
    · intro h
      refine ⟨?_, hcreatable⟩
      by_contra hq
      exact h (fsCreate_other hlen hc hq)
    · rintro ⟨rfl, -⟩
      simp [fsCreate_same hlen hc, nodesAt_of_none hcreatable.fresh]

theorem fsRemove_changes (ns : Nodes) (path q : CStr) :
    nodesAt ((fsRemove ns path).getD ns) q ≠ nodesAt ns q ↔ q = path ∧ Removable ns path := by
  cases hr : fsRemove ns path with
  | none =>
    refine iff_of_false (fun h => h rfl) ?_
    rintro ⟨-, h⟩
    obtain ⟨ns', hns'⟩ := fsRemove_of_removable h
    rw [hr] at hns'
    cases hns'
  | some ns' =>
    rw [Option.getD_some]
    constructor
    · intro h
      refine ⟨?_, (fsRemove_cases hr).1⟩
      by_contra hq
      exact h (fsRemove_other hr hq)
    · rintro ⟨rfl, -⟩
      exact fsRemove_same hr

/-! ## Copies -/

/-- `fs_copy` gets as far as making the new file. -/
structure Copyable (ns : Nodes) (src dst : CStr) : Prop where
  file : ∃ s, fsGet ns src = some s ∧ s.type ≠ .dir
  new : Creatable ns dst

/-- There is room for the bytes of the copy. -/
def Fits (kmallocOk : Bool) (ns : Nodes) (src : CStr) : Prop :=
  ∀ s ∈ fsGet ns src, s.data.length ≤ fsMaxData ∧ (s.data = [] ∨ kmallocOk = true)

theorem Copyable.ne {ns : Nodes} {src dst : CStr} (h : Copyable ns src dst) : src ≠ dst := by
  rintro rfl
  obtain ⟨⟨s, hs, _⟩, hnew⟩ := h
  rw [hnew.fresh] at hs
  cases hs

theorem fsCopy_cases (kmallocOk : Bool) (ns : Nodes) (src dst : CStr) :
    (¬ Copyable ns src dst ∧ fsCopy kmallocOk ns src dst = (ns, false)) ∨
    (Copyable ns src dst ∧ ∃ s ns₁, fsGet ns src = some s ∧ fsCreate ns dst .file = some ns₁ ∧
      ((fsWrite kmallocOk ns₁ dst s.data = none ∧ fsCopy kmallocOk ns src dst = (ns₁, false)) ∨
      (∃ ns₂, fsWrite kmallocOk ns₁ dst s.data = some ns₂ ∧
        fsCopy kmallocOk ns src dst = (ns₂, true)))) := by
  unfold fsCopy
  split
  case h_1 hs =>
    refine Or.inl ⟨fun h => ?_, rfl⟩
    obtain ⟨⟨s, hs', _⟩, _⟩ := h
    rw [hs] at hs'
    cases hs'
  case h_2 s hs =>
    split
    case isTrue hdir =>
      refine Or.inl ⟨fun h => ?_, rfl⟩
      obtain ⟨⟨s', hs', hdir'⟩, _⟩ := h
      rw [hs] at hs'
      exact hdir' (Option.some.inj hs' ▸ hdir)
    split
    case isTrue hdst =>
      refine Or.inl ⟨fun h => ?_, rfl⟩
      rw [h.new.fresh] at hdst
      cases hdst
    case isFalse hdir hdst =>
    split
    case h_1 hcreate =>
      refine Or.inl ⟨fun h => ?_, rfl⟩
      obtain ⟨ns', hns'⟩ := fsCreate_of_creatable h.new .file
      rw [hcreate] at hns'
      cases hns'
    case h_2 ns₁ hcreate =>
      refine Or.inr ⟨⟨⟨s, hs, hdir⟩, (fsCreate_cases hcreate).1⟩, s, ns₁, hs, hcreate, ?_⟩
      cases hw : fsWrite kmallocOk ns₁ dst s.data with
      | none => exact Or.inl ⟨rfl, rfl⟩
      | some ns₂ => exact Or.inr ⟨ns₂, rfl, rfl⟩

theorem fsCopy_other (kmallocOk : Bool) {ns : Nodes} (src : CStr) {dst q : CStr}
    (hlen : dst.length < fsNameMax) (hq : q ≠ dst) :
    nodesAt (fsCopy kmallocOk ns src dst).1 q = nodesAt ns q := by
  obtain ⟨_, he⟩ | ⟨_, s, ns₁, _, hcreate, ⟨_, he⟩ | ⟨ns₂, hw, he⟩⟩ := fsCopy_cases kmallocOk ns src dst
  · rw [he]
  · rw [he, fsCreate_other hlen hcreate hq]
  · rw [he, fsWrite_other hw hq, fsCreate_other hlen hcreate hq]

theorem fsCopy_same (kmallocOk : Bool) {ns : Nodes} {src dst : CStr} (hlen : dst.length < fsNameMax)
    (h : Copyable ns src dst) : nodesAt (fsCopy kmallocOk ns src dst).1 dst ≠ nodesAt ns dst := by
  rw [nodesAt_of_none h.new.fresh]
  obtain ⟨hnot, _⟩ | ⟨_, s, ns₁, _, hcreate, hw⟩ := fsCopy_cases kmallocOk ns src dst
  · exact absurd h hnot
  have hsame : nodesAt ns₁ dst ≠ [] := by simp [fsCreate_same hlen hcreate]
  obtain ⟨_, he⟩ | ⟨ns₂, hw, he⟩ := hw
  · rwa [he]
  · rw [he]
    exact (fsWrite_same hw).1

theorem fsCopy_ok (kmallocOk : Bool) (ns : Nodes) (src : CStr) {dst : CStr} (hlen : dst.length < fsNameMax) :
    (fsCopy kmallocOk ns src dst).2 = true ↔ Copyable ns src dst ∧ Fits kmallocOk ns src := by
  obtain ⟨hnot, he⟩ | ⟨hc, s, ns₁, hs, hcreate, hw⟩ := fsCopy_cases kmallocOk ns src dst
  · simp [he, hnot]
  have hget : fsGet ns₁ dst = some ⟨dst, [], 0, .file, true⟩ := by
    rw [fsGet_eq, fsCreate_same hlen hcreate]
    rfl
  have hfits : Fits kmallocOk ns src ↔ (fsWrite kmallocOk ns₁ dst s.data).isSome = true := by
    rw [fsWrite_new _ hget]
    simp [Fits, hs]
  rw [hfits]
  obtain ⟨hw, he⟩ | ⟨ns₂, hw, he⟩ := hw
  · simp [he, hw]
  · simp [he, hw, hc]

theorem fsCopy_changes (kmallocOk : Bool) (ns : Nodes) (src : CStr) {dst : CStr} (hlen : dst.length < fsNameMax)
    (q : CStr) : nodesAt (fsCopy kmallocOk ns src dst).1 q ≠ nodesAt ns q ↔ q = dst ∧ Copyable ns src dst := by
  constructor
  · intro h
    have hq : q = dst := by
      by_contra hq
      exact h (fsCopy_other kmallocOk src hlen hq)
    refine ⟨hq, ?_⟩
    obtain ⟨-, he⟩ | ⟨hc, -⟩ := fsCopy_cases kmallocOk ns src dst
    · rw [he] at h
      exact absurd rfl h
    · exact hc
  · rintro ⟨rfl, hc⟩
    exact fsCopy_same kmallocOk hlen hc

/-! ## Moves -/

theorem fsMove_eq (kmallocOk : Bool) (ns : Nodes) (src dst : CStr) :
    (fsMove kmallocOk ns src dst).1 =
      if (fsCopy kmallocOk ns src dst).2 = true then
        (fsRemove (fsCopy kmallocOk ns src dst).1 src).getD (fsCopy kmallocOk ns src dst).1
      else (fsCopy kmallocOk ns src dst).1 := by
  unfold fsMove
  generalize fsCopy kmallocOk ns src dst = r
  obtain ⟨ns₁, ok⟩ := r
  cases ok with
  | false => rfl
  | true =>
    simp only [if_true]
    cases fsRemove ns₁ src <;> rfl

theorem fsMove_other (kmallocOk : Bool) {ns : Nodes} {src dst q : CStr} (hlen : dst.length < fsNameMax)
    (hdst : q ≠ dst) (hsrc : q ≠ src) : nodesAt (fsMove kmallocOk ns src dst).1 q = nodesAt ns q := by
  rw [fsMove_eq]
  split
  case isFalse => exact fsCopy_other kmallocOk src hlen hdst
  case isTrue =>
    cases hr : fsRemove (fsCopy kmallocOk ns src dst).1 src with
    | none => exact fsCopy_other kmallocOk src hlen hdst
    | some ns' =>
      rw [Option.getD_some, fsRemove_other hr hsrc]
      exact fsCopy_other kmallocOk src hlen hdst

theorem fsMove_dst (kmallocOk : Bool) {ns : Nodes} {src dst : CStr} (hlen : dst.length < fsNameMax)
    (h : Copyable ns src dst) : nodesAt (fsMove kmallocOk ns src dst).1 dst ≠ nodesAt ns dst := by
  rw [fsMove_eq]
  split
  case isFalse => exact fsCopy_same kmallocOk hlen h
  case isTrue =>
    cases hr : fsRemove (fsCopy kmallocOk ns src dst).1 src with
    | none => exact fsCopy_same kmallocOk hlen h
    | some ns' =>
      rw [Option.getD_some, fsRemove_other hr h.ne.symm]
      exact fsCopy_same kmallocOk hlen h

theorem fsMove_src (kmallocOk : Bool) {ns : Nodes} {src dst : CStr} (hlen : dst.length < fsNameMax)
    (hne : src ≠ dst) : nodesAt (fsMove kmallocOk ns src dst).1 src ≠ nodesAt ns src ↔
      Copyable ns src dst ∧ Fits kmallocOk ns src ∧ src ≠ root := by
  have hcopy : nodesAt (fsCopy kmallocOk ns src dst).1 src = nodesAt ns src :=
    fsCopy_other kmallocOk src hlen hne
  rw [fsMove_eq]
  split
  case isFalse hok =>
    rw [fsCopy_ok kmallocOk ns src hlen] at hok
    simp only [hcopy, ne_eq, not_true_eq_false, false_iff]
    rintro ⟨hc, hf, _⟩
    exact hok ⟨hc, hf⟩
  case isTrue hok =>
    obtain ⟨hc, hf⟩ := (fsCopy_ok kmallocOk ns src hlen).mp hok
    obtain ⟨s, hs, hfile⟩ := hc.file
    have hs' : fsGet (fsCopy kmallocOk ns src dst).1 src = some s := by rw [fsGet_eq, hcopy, ← fsGet_eq, hs]
    cases hr : fsRemove (fsCopy kmallocOk ns src dst).1 src with
    | none =>
      simp only [Option.getD_none, hcopy, ne_eq, not_true_eq_false, false_iff]
      rintro ⟨_, _, hroot⟩
      obtain ⟨ns', hns'⟩ := fsRemove_of_removable ⟨hroot, s, hs', fun hdir => hfile hdir.1⟩
      rw [hr] at hns'
      cases hns'
    | some ns' =>
      have hchange := fsRemove_same hr
      rw [hcopy] at hchange
      simp only [Option.getD_some, ne_eq, hchange, not_false_eq_true, true_iff]
      exact ⟨hc, hf, (fsRemove_cases hr).1.notRoot⟩

theorem fsMove_changes (kmallocOk : Bool) (ns : Nodes) (src : CStr) {dst : CStr} (hlen : dst.length < fsNameMax)
    (q : CStr) : nodesAt (fsMove kmallocOk ns src dst).1 q ≠ nodesAt ns q ↔
      Copyable ns src dst ∧ (q = dst ∨ (q = src ∧ Fits kmallocOk ns src ∧ src ≠ root)) := by
  obtain ⟨hnot, he⟩ | ⟨hc, -⟩ := fsCopy_cases kmallocOk ns src dst
  · simp [fsMove, he, hnot]
  have hmoved : nodesAt (fsMove kmallocOk ns src dst).1 src ≠ nodesAt ns src ↔ _ :=
    fsMove_src kmallocOk hlen hc.ne
  constructor
  · intro h
    refine ⟨hc, or_iff_not_imp_left.mpr fun hqd => ?_⟩
    have hqs : q = src := by
      by_contra hqs
      exact h (fsMove_other kmallocOk hlen hqd hqs)
    subst hqs
    exact ⟨rfl, (hmoved.mp h).2⟩
  · rintro ⟨-, rfl | ⟨rfl, hrest⟩⟩
    · exact fsMove_dst kmallocOk hlen hc
    · exact hmoved.mpr ⟨hc, hrest⟩

theorem fsMove_ok {kmallocOk : Bool} {ns : Nodes} {src dst : CStr} (hlen : dst.length < fsNameMax)
    (h : (fsMove kmallocOk ns src dst).2 = true) : Copyable ns src dst ∧ Fits kmallocOk ns src ∧ src ≠ root := by
  have hcopy := fsCopy_ok kmallocOk ns src hlen
  unfold fsMove at h
  revert h hcopy
  generalize fsCopy kmallocOk ns src dst = r
  obtain ⟨ns₁, ok⟩ := r
  intro h hcopy
  cases ok with
  | false => cases h
  | true =>
    obtain ⟨hc, hf⟩ := hcopy.mp rfl
    refine ⟨hc, hf, ?_⟩
    dsimp only at h
    cases hr : fsRemove ns₁ src with
    | none =>
      rw [hr] at h
      cases h
    | some ns₂ => exact (fsRemove_cases hr).1.notRoot

end Siathos.Fs
