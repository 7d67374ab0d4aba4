import Siathos.Fs.Mediation
import Siathos.Nomos.Specific
import Siathos.Session.Rights

/-!
# Who writes contracts

`/synallagma` is for the sovereign to write, but `vfs_check_cap` is content with the right of the
process, and every process is loaded with `CAP_FS_WRITE`.
-/

open Lib Lib.Call Siathos.Nomos Siathos.Fs Siathos.Syscall

namespace Siathos.Session

/-- `SYS_FS_READ`, `SYS_FS_WRITE`, `SYS_FS_LIST`, `SYS_FS_CREATE` and `SYS_FS_REMOVE`. -/
def fsCalls : List Nat := [7, 8, 9, 16, 23]

/-- The operation that a call asks `vfs.c` for, where its arguments pass. -/
def fileOp (env : Env) (cur : Nat) (nr a1 a2 a3 : U64) (k : Kernel) : Option VfsOp :=
  match nr.toNat, strArg env k cur a1 fsNameMax with
  | 8, some path =>
    if userPtrOk (k.proc cur) a2 a3 then some (.write path (bytesAt env.mem a2 a3.toNat)) else none
  | 16, some path => some (.create path (if a2 = 1 then .dir else .file))
  | 23, some path => some (.remove path)
  | _, _ => none

/-- The session has a user, and he is the sovereign. -/
def SovereignSession (k : Kernel) : Prop := ∃ u, loginResultUser k.auth = some u ∧ u.isAdmin = true

/-- The path lies under `/synallagma`, and no contract guards it. -/
def OpenContractPath (k : Kernel) (q : CStr) : Prop :=
  underDir dirSynallagma q = true ∧ ∀ c ∈ k.synallagma.contracts, ¬ c.guards q = true

/-- What a file call changes under `/synallagma`, it changes for the sovereign. -/
def SovereignWrites (m : Machine) (env : Env) (cur : Nat) (nr a1 a2 a3 a4 : U64) (k : Kernel) : Prop :=
  nr.toNat ∈ fsCalls → ∀ q, OpenContractPath k q →
    nodesAt (syscallDispatch m env cur nr a1 a2 a3 a4 k).state.nodes q ≠ nodesAt k.nodes q → SovereignSession k

/-- The operation has an effect on the path, once it is let through. -/
def Effective (kmallocOk : Bool) (ns : Nodes) (q : CStr) : VfsOp → Prop
  | .create path _ => vfsNormalize root path fsNameMax = some q ∧ Creatable ns q
  | .write path data =>
    vfsNormalize root path fsNameMax = some q ∧ (Creatable ns q ∨ Rewrites kmallocOk ns q data)
  | .remove path => vfsNormalize root path fsNameMax = some q ∧ Removable ns q
  | _ => False

/-- The caller may write files, and asks for something that has an effect under `/synallagma`. -/
def WritesContracts (env : Env) (cur : Nat) (nr a1 a2 a3 : U64) (k : Kernel) : Prop :=
  May (k.proc cur) capSyscall ∧ May (k.proc cur) capFsWrite ∧
    ∃ op ∈ fileOp env cur nr a1 a2 a3 k, ∃ q, OpenContractPath k q ∧ Effective env.kmallocOk k.nodes q op

variable {m : Machine} {env : Env} {cur : Nat} {k : Kernel}

/-! ## What the check lets through -/

theorem contractFor_none {s : Synallagma} {q : CStr} (h : ∀ c ∈ s.contracts, ¬ c.guards q = true) :
    synallagmaContractFor s q = none := by
  by_contra hne
  obtain ⟨c, hc⟩ := Option.ne_none_iff_exists'.mp hne
  obtain ⟨i, hi⟩ := mostSpecific_iff.mp hc
  exact h c (List.mem_of_getElem? hi.slot) hi.guards

theorem not_under_oikos {q : CStr} (h : underDir dirSynallagma q = true) : underDir dirOikos q = false := by
  simp only [underDir, Bool.and_eq_true, List.isPrefixOf_iff_prefix] at h
  obtain ⟨rest, rfl⟩ := h.1
  rfl

theorem not_pseudo {q : CStr} (h : underDir dirSynallagma q = true) : vfsIsPseudo q = false := by
  simp only [underDir, Bool.and_eq_true, List.isPrefixOf_iff_prefix] at h
  obtain ⟨rest, rfl⟩ := h.1
  rfl

/-- The right of the process is enough for a path under `/synallagma`. -/
theorem check_of_may {q : CStr} (hq : OpenContractPath k q) (hmay : May (k.proc cur) capFsWrite) :
    vfsCheckCap (policy cur k) q capFsWrite = true := by
  have hcap : (k.proc cur).rights &&& capFsWrite ≠ 0 := by
    rcases hmay with h | h
    · rw [h]
      decide
    · exact h
  unfold vfsCheckCap policy
  rw [contractFor_none hq.2]
  simp only [not_under_oikos hq.1, hq.1, Bool.false_eq_true, if_false, decide_eq_true hcap, Bool.or_true,
    ite_self]

theorem mem_vfsPath_of_may {path q : CStr} (hq : OpenContractPath k q) (hmay : May (k.proc cur) capFsWrite) :
    q ∈ vfsPath (policy cur k) root path capFsWrite ↔ vfsNormalize root path fsNameMax = some q := by
  rw [mem_vfsPath]
  exact and_iff_left (check_of_may hq hmay)

/-! ## What a file call does -/

theorem fsRead_state (a1 a2 a3 : U64) : (sysFsRead env cur a1 a2 a3 k).state = k := by
  have ht : Trusts cur (fun k' => k' = k) fun _ => True := fun _ _ _ _ _ _ _ _ _ => trivial
  exact (sysFsRead_meets ht a1 a2 a3 (fun _ _ _ _ _ _ _ _ _ _ => trivial) k rfl).2.1

theorem fsList_state (a1 a2 a3 : U64) : (sysFsList env cur a1 a2 a3 k).state = k := by
  have ht : Trusts cur (fun k' => k' = k) fun _ => True := fun _ _ _ _ _ _ _ _ _ => trivial
  exact (sysFsList_meets ht a1 a2 a3 k rfl).2.1

theorem fsCreate_state (hmay : May (k.proc cur) capFsWrite) {a1 : U64} (a2 : U64) :
    (sysFsCreate env cur a1 a2 k).state = { k with
      nodes := ((strArg env k cur a1 fsNameMax).bind fun path =>
        vfsCreate (policy cur k) k.nodes root path (if a2 = 1 then .dir else .file)).getD k.nodes } := by
  unfold sysFsCreate
  rw [syscallCap_bind_may hmay]
  cases hpath : strArg env k cur a1 fsNameMax with
  | none => rw [(userStr_bind_none hpath _).1]; rfl
  | some path =>
    rw [(userStr_bind_some hpath _).1, read_bind, Option.bind_some]
    cases vfsCreate (policy cur k) k.nodes root path (if a2 = 1 then .dir else .file) <;> rfl

theorem fsRemove_state (hmay : May (k.proc cur) capFsWrite) {a1 : U64} :
    (sysFsRemove env cur a1 k).state = { k with
      nodes := ((strArg env k cur a1 fsNameMax).bind fun path =>
        vfsRemove (policy cur k) k.nodes root path).getD k.nodes } := by
  unfold sysFsRemove
  rw [syscallCap_bind_may hmay]
  cases hpath : strArg env k cur a1 fsNameMax with
  | none => rw [(userStr_bind_none hpath _).1]; rfl
  | some path =>
    rw [(userStr_bind_some hpath _).1, read_bind, Option.bind_some]
    cases vfsRemove (policy cur k) k.nodes root path <;> rfl

theorem fsWrite_state (hmay : May (k.proc cur) capFsWrite) {a1 : U64} (a2 a3 : U64) :
    (sysFsWrite env cur a1 a2 a3 k).state = { k with
      nodes := match strArg env k cur a1 fsNameMax with
        | none => k.nodes
        | some path =>
          if userPtrOk (k.proc cur) a2 a3 = true then
            (vfsWrite env.kmallocOk (policy cur k) k.nodes root path (bytesAt env.mem a2 a3.toNat)).1
          else k.nodes } := by
  unfold sysFsWrite
  rw [syscallCap_bind_may hmay]
  cases hpath : strArg env k cur a1 fsNameMax with
  | none => rw [(userStr_bind_none hpath _).1]
  | some path =>
    rw [(userStr_bind_some hpath _).1]
    dsimp only
    by_cases hptr : userPtrOk (k.proc cur) a2 a3 = true
    · rw [if_pos hptr, checkPtr_bind_ok hptr, read_bind]
      generalize vfsWrite env.kmallocOk (policy cur k) k.nodes root path (bytesAt env.mem a2 a3.toNat) = r
      have hrest : Meets (fun k' => k' = { k with nodes := r.1 }) (fun _ => True)
          (Call.demand r.2 err >>= fun _ => (pure 0 : SysM U64)) fun _ => True :=
        Meets.demand.bind fun _ _ => Meets.pure trivial
      by_cases hread : r.2 = true ∧ a3 ≠ 0
      · rw [when_bind_true hread, touch_bind, change_bind]
        exact (hrest { k with nodes := r.1 } rfl).2.1
      · rw [when_bind_false hread, change_bind]
        exact (hrest { k with nodes := r.1 } rfl).2.1
    · rw [if_neg hptr, checkPtr_bind_bad hptr]

theorem dispatchNr_file (m : Machine) (env : Env) (cur : Nat) {nr : U64} (hnr : nr.toNat ∈ fsCalls)
    (a1 a2 a3 a4 : U64) :
    (nr.toNat = 7 ∧ dispatchNr m env cur nr a1 a2 a3 a4 = sysFsRead env cur a1 a2 a3) ∨
    (nr.toNat = 8 ∧ dispatchNr m env cur nr a1 a2 a3 a4 = sysFsWrite env cur a1 a2 a3) ∨
    (nr.toNat = 9 ∧ dispatchNr m env cur nr a1 a2 a3 a4 = sysFsList env cur a1 a2 a3) ∨
    (nr.toNat = 16 ∧ dispatchNr m env cur nr a1 a2 a3 a4 = sysFsCreate env cur a1 a2) ∨
    (nr.toNat = 23 ∧ dispatchNr m env cur nr a1 a2 a3 a4 = sysFsRemove env cur a1) := by
  simp only [fsCalls, List.mem_cons, List.not_mem_nil, or_false] at hnr
  unfold dispatchNr
  rcases hnr with h | h | h | h | h <;> simp [h]

theorem fileCall_without_right {nr : U64} (hnr : nr.toNat ∈ fsCalls) (a1 a2 a3 a4 : U64)
    (hmay : ¬ May (k.proc cur) capFsWrite) : (dispatchNr m env cur nr a1 a2 a3 a4 k).state = k := by
  rcases dispatchNr_file m env cur hnr a1 a2 a3 a4 with ⟨-, h⟩ | ⟨-, h⟩ | ⟨-, h⟩ | ⟨-, h⟩ | ⟨-, h⟩ <;> rw [h]
  · exact fsRead_state a1 a2 a3
  · rw [sysFsWrite, syscallCap_bind_not hmay]
  · exact fsList_state a1 a2 a3
  · rw [sysFsCreate, syscallCap_bind_not hmay]
  · rw [sysFsRemove, syscallCap_bind_not hmay]

theorem fileCall_state (m : Machine) (env : Env) (cur : Nat) (k : Kernel) {nr : U64} (hnr : nr.toNat ∈ fsCalls)
    (a1 a2 a3 a4 : U64) :
    ∃ nodes, (syscallDispatch m env cur nr a1 a2 a3 a4 k).state = { k with nodes } := by
  rcases syscallDispatch_cases m env cur nr a1 a2 a3 a4 k with h | h
  · exact ⟨k.nodes, h⟩
  rw [h]
  by_cases hmay : May (k.proc cur) capFsWrite
  · rcases dispatchNr_file m env cur hnr a1 a2 a3 a4 with ⟨-, h⟩ | ⟨-, h⟩ | ⟨-, h⟩ | ⟨-, h⟩ | ⟨-, h⟩ <;> rw [h]
    · exact ⟨k.nodes, fsRead_state a1 a2 a3⟩
    · exact ⟨_, fsWrite_state hmay a2 a3⟩
    · exact ⟨k.nodes, fsList_state a1 a2 a3⟩
    · exact ⟨_, fsCreate_state hmay a2⟩
    · exact ⟨_, fsRemove_state hmay⟩
  · exact ⟨k.nodes, fileCall_without_right hnr a1 a2 a3 a4 hmay⟩

/-- A file call changes an unguarded path under `/synallagma` exactly where its operation does. -/
theorem fileCall_changes {nr : U64} (hnr : nr.toNat ∈ fsCalls) (a1 a2 a3 a4 : U64) {q : CStr}
    (hq : OpenContractPath k q) :
    nodesAt (syscallDispatch m env cur nr a1 a2 a3 a4 k).state.nodes q ≠ nodesAt k.nodes q ↔
      May (k.proc cur) capSyscall ∧ May (k.proc cur) capFsWrite ∧
        ∃ op ∈ fileOp env cur nr a1 a2 a3 k, Effective env.kmallocOk k.nodes q op := by
  unfold syscallDispatch
  by_cases hcall : May (k.proc cur) capSyscall
  case neg =>
    rw [syscallCap_bind_not hcall]
    exact iff_of_false (fun h => h rfl) fun h => hcall h.1
  rw [syscallCap_bind_may hcall]
  by_cases hmay : May (k.proc cur) capFsWrite
  case neg =>
    rw [fileCall_without_right hnr a1 a2 a3 a4 hmay]
    exact iff_of_false (fun h => h rfl) fun h => hmay h.2.1
  simp only [hcall, hmay, true_and]
  unfold fileOp
  rcases dispatchNr_file m env cur hnr a1 a2 a3 a4 with
    ⟨h, hd⟩ | ⟨h, hd⟩ | ⟨h, hd⟩ | ⟨h, hd⟩ | ⟨h, hd⟩ <;> rw [h, hd]
  · simp [fsRead_state]
  · rw [fsWrite_state hmay]
    cases strArg env k cur a1 fsNameMax with
    | none => simp
    | some path =>
      dsimp only
      split
      · simp [write_changes, mem_vfsPath_of_may hq hmay, not_pseudo hq.1, Effective]
      · simp
  · simp [fsList_state]
  · rw [fsCreate_state hmay]
    cases strArg env k cur a1 fsNameMax with
    | none => simp
    | some path =>
      rw [Option.bind_some, create_changes, mem_vfsPath_of_may hq hmay]
      simp [Effective]
  · rw [fsRemove_state hmay]
    cases strArg env k cur a1 fsNameMax with
    | none => simp
    | some path =>
      rw [Option.bind_some, remove_changes, mem_vfsPath_of_may hq hmay]
      simp [Effective]

theorem sovereign_writes_iff (m : Machine) (env : Env) (cur : Nat) (nr a1 a2 a3 a4 : U64) (k : Kernel) :
    SovereignWrites m env cur nr a1 a2 a3 a4 k ↔
      (WritesContracts env cur nr a1 a2 a3 k → SovereignSession k) := by
  unfold SovereignWrites WritesContracts
  constructor
  · rintro h ⟨hcall, hmay, op, hop, q, hq, heff⟩
    have hnr : nr.toNat ∈ fsCalls := by
      unfold fileOp at hop
      split at hop
      · simp_all [fsCalls]
      · simp_all [fsCalls]
      · simp_all [fsCalls]
      · cases hop
    exact h hnr q hq ((fileCall_changes hnr a1 a2 a3 a4 hq).mpr ⟨hcall, hmay, op, hop, heff⟩)
  · intro h hnr q hq hchange
    obtain ⟨hcall, hmay, op, hop, heff⟩ := (fileCall_changes hnr a1 a2 a3 a4 hq).mp hchange
    exact h ⟨hcall, hmay, op, hop, q, hq, heff⟩

/-- A tree with `/synallagma`, and room for one node more. -/
def contractTree : Nodes := [⟨dirSynallagma, [], 0, .dir, true⟩, ⟨[], [], 0, .file, false⟩]

def pacto : CStr := ascii "/synallagma/x.pacto"

/-- 'authd' and 'spoudazo' run, and nobody has logged in. -/
def contractStart : System :=
  ([.init (.loaded [region]), .init (.loaded [region]), .init .rejected, .init (.loaded [region])] : List Op).foldl
    (apply smallMachine) (boot contractTree synallagmaInit)

/-- 'spoudazo' makes a contract before anybody has logged in. -/
theorem sovereign_writes_unchecked :
    ¬ ∀ (m : Machine) (nodes : Nodes) (synallagma : Synallagma) (ops : List Op) (s : System),
      Run (Step m) (boot nodes synallagma) ops s →
        ∀ (env : Env) (cur : Nat) (nr a1 a2 a3 a4 : U64), Runs (s.kernel.proc cur) →
          SovereignWrites m env cur nr a1 a2 a3 a4 s.kernel := by
  intro h
  have hcreate := h smallMachine contractTree synallagmaInit _ contractStart (Run.of_admits (by decide +kernel))
    (callEnv [(nameAddr, pacto)] 0) 2 16 nameAddr 0 0 0 (by decide +kernel) (by decide) pacto
    ⟨by decide +kernel, by decide +kernel⟩ (by decide +kernel)
  obtain ⟨u, hu, -⟩ := hcreate
  have hnobody : loginResultUser contractStart.kernel.auth = none := by decide +kernel
  rw [hnobody] at hu
  cases hu

end Siathos.Session
