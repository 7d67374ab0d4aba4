import Siathos.Session.Pointers
import Siathos.Proc.Atomic
import Siathos.Proc.System

/-!
# The results of system calls

What a system call stores for its caller goes where `user_ptr_ok` lets it go, which knows the regions of the caller and
not how their pages are mapped.
-/

open Lib Lib.Call Siathos.Nomos Siathos.Fs Siathos.Ipc Siathos.Proc Siathos.Syscall

namespace Siathos.Session

/-- The page is mapped for the caller, who may write it. -/
def Writable (vm : Paging.Vm) (pml4 : Nat) (v : U64) : Prop :=
  ∃ w ∈ Paging.lookup vm pml4 v, w.getLsbD 1 = true ∧ w.getLsbD 2 = true

/-- `SYS_READ`, `SYS_IPC_RECV`, `SYS_FS_READ`, `SYS_FS_LIST`, `SYS_SYSINFO`, `SYS_PROC_LIST`, `SYS_CONTRACT_LIST`,
`SYS_SVC_QUERY`, `SYS_AUTH_LIST`, `SYS_AUTH_TICKET_ISSUE` and `SYS_AUTH_HASH`. -/
def outputCalls : List Nat := [2, 5, 7, 9, 12, 15, 20, 26, 27, 36, 37]

/-- What is stored is stored where `P` holds. -/
def StoresIn (P : U64 → Prop) (x : Access) : Prop := x.write = true → ∀ i < x.len, P (x.addr + BitVec.ofNat 64 i)

/-- Every byte that a call stores for the process lies in a page that the process may write, whatever the arguments. -/
def OutputsWritable (m : Machine) (env : Env) (vm : Paging.Vm) (pml4 cur : Nat) (k : Kernel) : Prop :=
  ∀ nr a1 a2 a3 a4, nr.toNat ∈ outputCalls →
    ∀ x ∈ (syscallDispatch m env cur nr a1 a2 a3 a4 k).trace, StoresIn (Writable vm pml4) x

/-- `P` holds of all that `user_ptr_ok` accepts, and of what is stored without its being asked. -/
structure Open (P : U64 → Prop) (env : Env) (cur : Nat) (k : Kernel) : Prop where
  accepted : ∀ v, userPtrOk (k.proc cur) v 1 = true → P v
  message : ∀ msg ∈ (ipcTryReceive k.mailboxes (canIpc cur k) (k.proc cur).pid).2,
    ∀ i < min msg.payload.length (2 ^ 64 - 1), P (BitVec.ofNat 64 i)
  pseudo : May (k.proc cur) capFsRead → ∀ a1, ∀ path ∈ strArg env k cur a1 fsNameMax,
    ∀ norm ∈ vfsPath (policy cur k) root path capFsRead, vfsIsPseudo norm = true → ∀ v, P v

section

variable {P : U64 → Prop} {m : Machine} {env : Env} {cur : Nat} {k : Kernel}

theorem userPtrOk_byte {p : Process} (huser : p.isUser = true) {addr len : U64} (h : userPtrOk p addr len = true)
    {i : Nat} (hi : i < len.toNat) : userPtrOk p (addr + BitVec.ofNat 64 i) 1 = true := by
  have hlen : len ≠ 0 := by
    rintro rfl
    exact absurd hi (Nat.not_lt_zero i)
  unfold userPtrOk at h ⊢
  split at h
  · exact absurd (of_decide_eq_true h) hlen
  rename_i haddr
  split at h
  · cases h
  rename_i hwrap
  have hne : addr + BitVec.ofNat 64 i ≠ 0 := by bv_omega
  have hnowrap : ¬ addr + BitVec.ofNat 64 i + 1 < addr + BitVec.ofNat 64 i := by bv_omega
  rw [huser, if_neg (by decide)] at h
  rw [if_neg hne, if_neg (by decide), if_neg hnowrap, huser, if_neg (by decide)]
  obtain ⟨r, hr, hregion⟩ := List.any_eq_true.mp h
  simp only [Bool.and_eq_true, decide_eq_true_eq] at hregion
  obtain ⟨⟨⟨hsize, hbase⟩, hoff⟩, hend⟩ := hregion
  refine List.any_eq_true.mpr ⟨r, hr, ?_⟩
  simp only [Bool.and_eq_true, decide_eq_true_eq]
  refine ⟨⟨⟨hsize, ?_⟩, ?_⟩, ?_⟩ <;> bv_omega

theorem userPtrOk_congr {p q : Process} (h : (p.isUser, p.umap) = (q.isUser, q.umap)) (addr len : U64) :
    userPtrOk p addr len = userPtrOk q addr len := by
  obtain ⟨huser, humap⟩ := Prod.mk.inj h
  unfold userPtrOk
  rw [huser, humap]

theorem trusts_stores (hruns : Runs (k.proc cur)) (h : ∀ v, userPtrOk (k.proc cur) v 1 = true → P v) :
    Trusts cur (Keeps (fun p => (p.isUser, p.umap)) k) (StoresIn P) := by
  intro k' addr len hk' hptr o n w hle _ i hi
  have hsame := (hk' cur ⟨hruns.1, hruns.2.2⟩).2
  rw [userPtrOk_congr hsame] at hptr
  have hi : i < n := hi
  have hbyte := userPtrOk_byte hruns.2.1 hptr (show o + i < len.toNat by omega)
  rw [BitVec.ofNat_add, ← BitVec.add_assoc] at hbyte
  exact h _ hbyte

/-- `SYS_AUTH_LIST` stores one byte wherever `user_ptr_ok` accepts one. -/
theorem sysAuthList_stores {v : U64} (hv : userPtrOk (k.proc cur) v 1 = true) :
    ⟨v, 1, true⟩ ∈ (sysAuthList cur v 1 k).trace := by
  have hne : v ≠ 0 := by
    rintro rfl
    cases hv
  have hsize : (minSize 1 4096).toNat = 1 := by decide
  unfold sysAuthList
  rw [demand_bind_true (by simpa using hne), hsize, read_bind]
  have hlen : min ((authListText k.auth 1).length + 1) 1 = 1 := by omega
  rw [hlen]
  refine trace_bind_left _ _ ?_
  unfold copyOut
  have hone : (BitVec.ofNat 64 1 : U64) = 1 := rfl
  rw [hone, checkPtr_bind_ok hv]
  exact List.mem_cons_self

theorem dispatchNr_stores (hruns : Runs (k.proc cur)) :
    (∀ nr a1 a2 a3 a4, nr.toNat ∈ outputCalls → ∀ x ∈ (dispatchNr m env cur nr a1 a2 a3 a4 k).trace, StoresIn P x) ↔
      Open P env cur k := by
  have htrusts : ∀ {c : Prop}, (c → ∀ v, userPtrOk (k.proc cur) v 1 = true → P v) → c →
      Trusts cur (Keeps (fun p => (p.isUser, p.umap)) k) (StoresIn P) ∧ Trusts cur (· = k) (StoresIn P) := by
    intro c h hc
    have ht := trusts_stores hruns (h hc)
    refine ⟨ht, ?_⟩
    rintro k' addr len rfl
    exact ht k' addr len (Keeps.refl k')
  constructor
  · intro h
    have haccepted : ∀ v, userPtrOk (k.proc cur) v 1 = true → P v := by
      intro v hv
      have hstore := h 27 v 1 0 0 (by decide) _ (sysAuthList_stores hv) rfl 0 Nat.one_pos
      rwa [show v + BitVec.ofNat 64 0 = v from BitVec.add_zero v] at hstore
    obtain ⟨ht, ht'⟩ := htrusts (fun _ => haccepted) trivial
    refine ⟨haccepted, fun msg hmsg i hi => ?_, fun hmay a1 path hpath norm hnorm hpseudo v => ?_⟩
    · have hstore := (sysIpcRecv_touches ht 0 (BitVec.allOnes 64) 0 0).mp
        (h 5 0 (BitVec.allOnes 64) 0 0 (by decide)) rfl
        msg hmsg
      rw [BitVec.toNat_allOnes] at hstore
      have hbyte := hstore (by omega) rfl i hi
      rwa [show (0 : U64) + BitVec.ofNat 64 i = BitVec.ofNat 64 i from BitVec.zero_add _] at hbyte
    · have hstore := (sysFsRead_touches ht' a1 v 0).mp (h 7 a1 v 0 0 (by decide)) rfl hmay path hpath norm hnorm hpseudo
      have hbyte := hstore rfl 0 Nat.one_pos
      rwa [show v + BitVec.ofNat 64 0 = v from BitVec.add_zero v] at hbyte
  · intro h nr a1 a2 a3 a4 hnr
    obtain ⟨ht, ht'⟩ := htrusts (fun _ => h.accepted) trivial
    have hi := Keeps.tame stable_umap k cur
    by_cases hspecial : nr.toNat ∈ special
    case neg => exact (dispatchNr_meets hi ht nr a1 a2 a3 a4 (fun hs => absurd hs hspecial) k (Keeps.refl k)).1
    -- the calls that take a pointer which goes unchecked, and the one that changes the tickets
    have hcases : nr.toNat = 5 ∨ nr.toNat = 7 ∨ nr.toNat = 36 := by
      simp only [outputCalls, special, List.mem_cons, List.not_mem_nil, or_false] at hnr hspecial
      omega
    unfold dispatchNr
    rcases hcases with hn | hn | hn <;> rw [hn]
    · refine (sysIpcRecv_touches ht a1 a2 a3 a4).mpr fun _ msg hmsg _ _ i hi => ?_
      have hlt := a2.isLt
      have hi : i < min msg.payload.length a2.toNat := hi
      rw [show (0 : U64) + BitVec.ofNat 64 i = BitVec.ofNat 64 i from BitVec.zero_add _]
      exact h.message msg hmsg i (by omega)
    · exact (sysFsRead_touches ht' a1 a2 a3).mpr fun _ hmay path hpath norm hnorm hpseudo _ i _ =>
        h.pseudo hmay a1 path hpath norm hnorm hpseudo _
    · exact (sysAuthTicketIssue_meets ht a1 a2 a3 (fun _ _ h => h) k (Keeps.refl k)).1

end

/-- Results go to writable pages exactly if what `user_ptr_ok` accepts is writable, and what goes unchecked. -/
theorem outputs_writable_iff (m : Machine) (env : Env) (vm : Paging.Vm) (pml4 cur : Nat) (k : Kernel)
    (hruns : Runs (k.proc cur)) :
    OutputsWritable m env vm pml4 cur k ↔ (May (k.proc cur) capSyscall → Open (Writable vm pml4) env cur k) := by
  unfold OutputsWritable syscallDispatch
  by_cases hmay : May (k.proc cur) capSyscall
  · simp only [syscallCap_bind_may hmay]
    exact (dispatchNr_stores hruns).trans ⟨fun h _ => h, fun h => h hmay⟩
  · simp only [syscallCap_bind_not hmay]
    refine iff_of_true ?_ fun h => absurd h hmay
    rintro _ _ _ _ _ _ x ⟨⟩

/-- A segment of code. -/
def codeSegment : Memory.Ureg := ⟨0x200000000000, 0, 16, 16, 5⟩

/-- A process is created from it. -/
def codeCreated : List Memory.Op := [.createUserRegions (some 0x200020) (fun _ => 0) [codeSegment] fun _ => 0]

def codeLoaded : Memory.Sys := codeCreated.foldl (Memory.apply 1) (Memory.freshSys 64)

/-- 'authd' has the regions of that process. -/
def authdStart : List Op := [.init (.loaded (codeLoaded.procs 0).umap)]

def authdLoaded : System := authdStart.foldl (apply smallMachine) (boot [] synallagmaInit)

theorem code_not_writable : ¬ Writable codeLoaded.vm (codeLoaded.procs 0).cr3 0x200000000000 := by
  rintro ⟨w, hw, hwrite, -⟩
  have hnone : (Paging.lookup codeLoaded.vm (codeLoaded.procs 0).cr3 0x200000000000).all (fun w => !w.getLsbD 1) =
    true := by
    decide +kernel
  rw [Option.mem_def.mp hw, Option.all_some, hwrite] at hnone
  cases hnone

theorem outputs_writable_authd :
    ¬ OutputsWritable smallMachine (callEnv [] 0) codeLoaded.vm (codeLoaded.procs 0).cr3 1 authdLoaded.kernel := by
  intro h
  have hopen := (outputs_writable_iff smallMachine (callEnv [] 0) codeLoaded.vm (codeLoaded.procs 0).cr3 1
    authdLoaded.kernel (by decide +kernel)).mp h (by decide +kernel)
  exact code_not_writable (hopen.accepted 0x200000000000 (by decide +kernel))

/-- `SYS_SYSINFO` overwrites the code of its caller. -/
theorem outputs_into_code :
    ¬ ∀ (m : Machine) (nodes : Nodes) (synallagma : Synallagma) (ops : List Op) (s : System)
      (created : List Memory.Op) (t : Memory.Sys), Run (Step m) (boot nodes synallagma) ops s →
        Run (Memory.Step 1) (Memory.freshSys 64) created t → ∀ (env : Env) (cur i : Nat), Runs (s.kernel.proc cur) →
          (t.procs i).present = true → (s.kernel.proc cur).umap = (t.procs i).umap →
            OutputsWritable m env t.vm (t.procs i).cr3 cur s.kernel := by
  intro h
  have hall := h smallMachine [] synallagmaInit authdStart authdLoaded codeCreated codeLoaded
    (Run.of_admits (by decide +kernel)) (Run.of_admits (by decide +kernel)) (callEnv [] 0) 1 0 (by decide +kernel)
    (by decide +kernel) (by decide +kernel)
  have hstored := hall 12 0x200000000000 0 0 0 (by decide) ⟨0x200000000000, 48, true⟩ (by decide +kernel) rfl 0
    (by decide)
  exact code_not_writable hstored

end Siathos.Session
