import Siathos.Session.Rights
import Siathos.Syscall.Live

/-!
# The pointers of the caller

What a system call touches of its caller lies in the caller's regions, except where a pointer goes
unchecked: a null pointer with a length, and the NUL that a pseudo file starts with.
-/

open Lib Lib.Call Siathos.Nomos Siathos.Fs Siathos.Ipc Siathos.Proc Siathos.Syscall

namespace Siathos.Session

/-- Every byte of the access lies in one of the regions. -/
def InRegions (umap : List Region) (x : Access) : Prop :=
  ∀ i < x.len, ∃ r ∈ umap, r.Holds (x.addr + BitVec.ofNat 64 i).toNat

/-- All that the call touches lies in the regions of its caller. -/
def PointersContained (m : Machine) (env : Env) (cur : Nat) (nr a1 a2 a3 a4 : U64) (k : Kernel) : Prop :=
  ∀ x ∈ (syscallDispatch m env cur nr a1 a2 a3 a4 k).trace, InRegions (k.proc cur).umap x

/-! ## Checked pointers -/

theorem userPtrOk_inRegions {p : Process} (huser : p.isUser = true) {addr len : U64}
    (h : userPtrOk p addr len = true) : OkRange (InRegions p.umap) addr len := by
  intro o n w hle i hi
  have hlt : o + i < len.toNat := Nat.lt_of_lt_of_le (Nat.add_lt_add_left hi o) hle
  have hlen : len ≠ 0 := by
    rintro rfl
    exact absurd hlt (Nat.not_lt_zero _)
  unfold userPtrOk at h
  split at h
  · exact absurd (of_decide_eq_true h) hlen
  split at h
  · cases h
  rename_i hwrap
  rw [huser, if_neg (by decide)] at h
  obtain ⟨r, hr, hregion⟩ := List.any_eq_true.mp h
  simp only [Bool.and_eq_true, decide_eq_true_eq] at hregion
  obtain ⟨⟨⟨-, hbase⟩, hoff⟩, hend⟩ := hregion
  refine ⟨r, hr, ?_⟩
  have haddr : (addr + BitVec.ofNat 64 o + BitVec.ofNat 64 i).toNat = addr.toNat + (o + i) := by
    bv_omega
  simp only [Region.Holds, haddr]
  constructor <;> bv_omega

/-! ## Unchecked pointers -/

/-- Where a pointer goes unchecked, its bytes are in a region all the same. -/
def UncheckedContained (env : Env) (cur : Nat) (nr a1 a2 a3 a4 : U64) (k : Kernel) : Prop :=
  match nr.toNat with
  | 4 | 11 => a3 = 0 → a4 ≠ 0 → canIpc cur k = true → mailboxFor k.mailboxes (u32 a1) ≠ none →
      InRegions (k.proc cur).umap ⟨0, (minSize a4 ipcMsgMax).toNat, false⟩
  | 5 => a1 = 0 → ∀ msg ∈ (ipcTryReceive k.mailboxes (canIpc cur k) (k.proc cur).pid).2,
      InRegions (k.proc cur).umap ⟨0, min msg.payload.length a2.toNat, true⟩
  | 7 => a3 = 0 → May (k.proc cur) capFsRead → ∀ path ∈ strArg env k cur a1 fsNameMax,
      ∀ norm ∈ vfsPath (policy cur k) root path capFsRead, vfsIsPseudo norm = true →
        InRegions (k.proc cur).umap ⟨a2, 1, true⟩
  | _ => True

/-! ## What is touched without a check -/

variable {m : Machine} {env : Env} {cur : Nat} {k : Kernel}

theorem stable_umap : Stable fun p => (p.isUser, p.umap) := fun _ _ _ => rfl

theorem trusts_umap (hruns : Runs (k.proc cur)) :
    Trusts cur (Keeps (fun p => (p.isUser, p.umap)) k) (InRegions (k.proc cur).umap) := by
  intro k' addr len hk' hptr
  have hsame := (hk' cur ⟨hruns.1, hruns.2.2⟩).2
  have huser : (k'.proc cur).isUser = true := (congrArg Prod.fst hsame).trans hruns.2.1
  have humap : (k'.proc cur).umap = (k.proc cur).umap := congrArg Prod.snd hsame
  rw [← humap]
  exact userPtrOk_inRegions huser hptr

theorem kernelSend_trace (dst type : Nat) (addr size : U64) (x : Access) :
    x ∈ (kernelSend env cur dst type addr size k).trace ↔
      canIpc cur k = true ∧ mailboxFor k.mailboxes dst ≠ none ∧ minSize size ipcMsgMax ≠ 0 ∧
        x = ⟨addr, (minSize size ipcMsgMax).toNat, false⟩ := by
  unfold kernelSend
  rw [read_bind]
  generalize hsend : doSend k.mailboxes (canIpc cur k) (k.proc cur).pid dst type
    (bytesAt env.mem addr (minSize size ipcMsgMax).toNat) 0 = r
  cases r with
  | none =>
    constructor
    · rintro ⟨⟩
    · rintro ⟨hcan, hbox, -⟩
      rcases doSend_eq_none.mp hsend with h | h
      · rw [h] at hcan
        cases hcan
      · exact absurd h hbox
  | some mbs =>
    have hsome := not_or.mp (mt doSend_eq_none.mpr (by rw [hsend]; exact Option.some_ne_none mbs))
    have htrace := when_touch_trace (minSize size ipcMsgMax ≠ 0)
      [(⟨addr, (minSize size ipcMsgMax).toNat, false⟩ : Access)]
      (fun _ => do
        Call.change fun k => schedWakeup dst { k with mailboxes := mbs }
        pure (0 : U64) : Unit → SysM U64) k
    dsimp only
    rw [htrace]
    have hcan : canIpc cur k = true := by simpa using hsome.1
    by_cases hn : minSize size ipcMsgMax = 0
    · rw [if_neg (not_not.mpr hn)]
      constructor
      · rintro ⟨⟩
      · rintro ⟨-, -, hne, -⟩
        exact absurd hn hne
    · rw [if_pos hn]
      constructor
      · intro hx
        exact ⟨hcan, hsome.2, hn, List.mem_singleton.mp hx⟩
      · rintro ⟨-, -, -, rfl⟩
        exact List.mem_cons_self

theorem minSize_eq_zero {a : U64} {n : Nat} (hn : 0 < n) (hlt : n < 2 ^ 64) : minSize a n = 0 ↔ a = 0 := by
  unfold minSize
  split
  · rename_i hgt
    constructor
    · intro h
      have hval := congrArg BitVec.toNat h
      rw [BitVec.toNat_ofNat, Nat.mod_eq_of_lt hlt] at hval
      exact absurd hval (Nat.ne_of_gt hn)
    · rintro rfl
      exact absurd hgt (Nat.not_lt_zero _)
  · exact Iff.rfl

theorem copied_eq (msg : Message) (max : U64) :
    (if msg.payload.length > max.toNat then max else BitVec.ofNat 64 msg.payload.length).toNat =
      min msg.payload.length max.toNat := by
  split
  · omega
  · rw [BitVec.toNat_ofNat]
    omega

theorem kernelReceive_trace (addr max : U64) (x : Access) :
    x ∈ (kernelReceive cur addr max k).trace ↔
      ∃ msg ∈ (ipcTryReceive k.mailboxes (canIpc cur k) (k.proc cur).pid).2,
        min msg.payload.length max.toNat ≠ 0 ∧ x = ⟨addr, min msg.payload.length max.toNat, true⟩ := by
  unfold kernelReceive
  rw [read_bind]
  dsimp only
  rw [change_bind]
  generalize (ipcTryReceive k.mailboxes (canIpc cur k) (k.proc cur).pid).1 = mbs
  cases (ipcTryReceive k.mailboxes (canIpc cur k) (k.proc cur).pid).2 with
  | none =>
    constructor
    · rintro ⟨⟩
    · rintro ⟨msg, ⟨⟩, -⟩
  | some msg =>
    have hcopied := copied_eq msg max
    dsimp only
    generalize (if msg.payload.length > max.toNat then max else BitVec.ofNat 64 msg.payload.length) = n at hcopied
    rw [when_touch_trace, hcopied]
    have hzero : n ≠ 0 ↔ min msg.payload.length max.toNat ≠ 0 := by
      rw [← hcopied]
      exact not_congr BitVec.toNat_eq
    by_cases hn : n = 0
    · rw [if_neg (not_not.mpr hn)]
      constructor
      · rintro ⟨⟩
      · rintro ⟨msg', ⟨⟩, hne, -⟩
        exact absurd hn (hzero.mpr hne)
    · rw [if_pos hn]
      constructor
      · intro hx
        exact ⟨msg, rfl, hzero.mp hn, List.mem_singleton.mp hx⟩
      · rintro ⟨msg', ⟨⟩, -, rfl⟩
        exact List.mem_cons_self

/-! ## The three calls -/

theorem may_of_canIpc (h : canIpc cur k = true) : May (k.proc cur) capIpc := Or.inr (of_decide_eq_true h)

/-- All that a call touches, from this state, lies in the regions of the caller. -/
def Stays (cur : Nat) (k : Kernel) (c : SysM U64) : Prop := ∀ x ∈ (c k).trace, InRegions (k.proc cur).umap x

theorem stays_of_meets {g : Process → Bool × List Region} {c : SysM U64}
    (h : Meets (Keeps g k) (InRegions (k.proc cur).umap) c fun _ => True) : Stays cur k c :=
  (h k (Keeps.refl k)).1

theorem inRegions_empty (umap : List Region) (addr : U64) (w : Bool) : InRegions umap ⟨addr, 0, w⟩ :=
  fun i hi => absurd hi (Nat.not_lt_zero i)

theorem sysIpcSend_stays (hruns : Runs (k.proc cur)) (a1 a2 a3 a4 : U64) :
    Stays cur k (sysIpcSend env cur a1 a2 a3 a4) ↔
      (a3 = 0 → a4 ≠ 0 → canIpc cur k = true → mailboxFor k.mailboxes (u32 a1) ≠ none →
        InRegions (k.proc cur).umap ⟨0, (minSize a4 ipcMsgMax).toNat, false⟩) := by
  by_cases h3 : a3 = 0
  case neg =>
    refine iff_of_true ?_ fun h => absurd h h3
    exact stays_of_meets (sysIpcSend_meets (Keeps.tame stable_umap k cur) (trusts_umap hruns) a1 a2
      fun h => absurd h h3)
  subst h3
  have hzero : minSize a4 ipcMsgMax = 0 ↔ a4 = 0 := minSize_eq_zero (by decide) (by decide)
  have htrace : ∀ x, x ∈ (sysIpcSend env cur a1 a2 0 a4 k).trace ↔
      canIpc cur k = true ∧ mailboxFor k.mailboxes (u32 a1) ≠ none ∧ minSize a4 ipcMsgMax ≠ 0 ∧
        x = ⟨0, (minSize a4 ipcMsgMax).toNat, false⟩ := by
    intro x
    unfold sysIpcSend
    by_cases hmay : May (k.proc cur) capIpc
    · rw [syscallCap_bind_may hmay, when_bind_false fun h => h.1 rfl]
      exact kernelSend_trace _ _ _ _ x
    · rw [syscallCap_bind_not hmay]
      refine iff_of_false List.not_mem_nil fun h => hmay (may_of_canIpc h.1)
  constructor
  · intro h _ h4 hcan hbox
    exact h _ ((htrace _).mpr ⟨hcan, hbox, mt hzero.mp h4, rfl⟩)
  · intro h x hx
    obtain ⟨hcan, hbox, hn, rfl⟩ := (htrace x).mp hx
    exact h rfl (mt hzero.mpr hn) hcan hbox

theorem sysIpcRecv_touches {ok : Access → Prop} (ht : Trusts cur (Keeps (fun p => (p.isUser, p.umap)) k) ok)
    (a1 a2 a3 a4 : U64) :
    (∀ x ∈ (sysIpcRecv cur a1 a2 a3 a4 k).trace, ok x) ↔
      (a1 = 0 → ∀ msg ∈ (ipcTryReceive k.mailboxes (canIpc cur k) (k.proc cur).pid).2,
        min msg.payload.length a2.toNat ≠ 0 → ok ⟨0, min msg.payload.length a2.toNat, true⟩) := by
  have hi := Keeps.tame stable_umap k cur
  by_cases h1 : a1 = 0
  case neg =>
    refine iff_of_true ?_ fun h => absurd h h1
    exact (sysIpcRecv_meets hi ht a3 a4 (fun h => absurd h h1) k (Keeps.refl k)).1
  subst h1
  by_cases hmay : May (k.proc cur) capIpc
  case neg =>
    have hcan : canIpc cur k = false := by simpa using mt may_of_canIpc hmay
    refine iff_of_true ?_ ?_
    · unfold sysIpcRecv
      rw [syscallCap_bind_not hmay]
      rintro x ⟨⟩
    · intro _ msg hmsg
      rw [hcan] at hmsg
      cases hmsg
  unfold sysIpcRecv
  rw [syscallCap_bind_may hmay, when_bind_false fun h => h rfl]
  constructor
  · intro h _ msg hmsg hn
    exact h _ (trace_bind_left _ _ ((kernelReceive_trace _ _ _).mpr ⟨msg, hmsg, hn, rfl⟩))
  · intro h
    have hmeets : Meets (Keeps (fun p => (p.isUser, p.umap)) k) (fun _ => True)
      (kernelReceive cur 0 a2) fun _ => True :=
      kernelReceive_meets hi fun _ _ _ => trivial
    have hstate := (hmeets k (Keeps.refl k)).2.1
    refine Meets.after (fun got => ?_) ?_ hstate
    · refine (storeOpt_meets ht (by decide)).bind fun _ _ => (storeOpt_meets ht (by decide)).bind fun _ _ => ?_
      split
      · exact Meets.pure trivial
      · exact Meets.stop
    · intro x hx
      obtain ⟨msg, hmsg, hn, rfl⟩ := (kernelReceive_trace _ _ _).mp hx
      exact h rfl msg hmsg hn

theorem sysIpcRecv_stays (hruns : Runs (k.proc cur)) (a1 a2 a3 a4 : U64) :
    Stays cur k (sysIpcRecv cur a1 a2 a3 a4) ↔
      (a1 = 0 → ∀ msg ∈ (ipcTryReceive k.mailboxes (canIpc cur k) (k.proc cur).pid).2,
        InRegions (k.proc cur).umap ⟨0, min msg.payload.length a2.toNat, true⟩) := by
  refine (sysIpcRecv_touches (trusts_umap hruns) a1 a2 a3 a4).trans ?_
  refine forall_congr' fun _ => forall_congr' fun msg => forall_congr' fun _ => ⟨fun h => ?_, fun h _ => h⟩
  by_cases hn : min msg.payload.length a2.toNat = 0
  · rw [hn]
    exact inRegions_empty _ _ _
  · exact h hn

theorem sysFsRead_touches {ok : Access → Prop} (ht : Trusts cur (· = k) ok) (a1 a2 a3 : U64) :
    (∀ x ∈ (sysFsRead env cur a1 a2 a3 k).trace, ok x) ↔
      (a3 = 0 → May (k.proc cur) capFsRead → ∀ path ∈ strArg env k cur a1 fsNameMax,
        ∀ norm ∈ vfsPath (policy cur k) root path capFsRead, vfsIsPseudo norm = true → ok ⟨a2, 1, true⟩) := by
  by_cases hmay : May (k.proc cur) capFsRead
  case neg =>
    refine iff_of_true ?_ fun _ h => absurd h hmay
    unfold sysFsRead
    rw [syscallCap_bind_not hmay]
    rintro x ⟨⟩
  constructor
  · intro h h3 _ path hpath norm hnorm hpseudo
    subst h3
    refine h _ ?_
    unfold sysFsRead
    rw [syscallCap_bind_may hmay]
    refine (userStr_bind_some hpath _).2.2 _ ?_
    have hcheck : checkPtr cur a2 0 k = ⟨k, [], .ok ()⟩ := by
      unfold checkPtr
      have hptr : userPtrOk (k.proc cur) a2 0 = true := by
        unfold userPtrOk
        split <;> simp
      rw [read_bind, hptr]
      rfl
    refine trace_bind_right (congrArg Outcome.val hcheck) _ _ ?_
    rw [hcheck]
    unfold kernelRead
    rw [read_bind, hnorm]
    dsimp only
    rw [if_pos hpseudo, touch_bind]
    refine List.mem_append_left _ (List.mem_map.mpr ⟨(0, 1), ?_, ?_⟩)
    · unfold vfsPseudoRead
      split <;> exact List.mem_cons_self
    · rw [show a2 + BitVec.ofNat 64 (0, 1).1 = a2 from BitVec.add_zero a2]
  · intro h
    refine (sysFsRead_meets ht a1 a2 a3 ?_ k rfl).1
    rintro h3 _ _ path norm rfl rfl hpath hnorm hpseudo
    exact h h3 hmay path hpath norm hnorm hpseudo

theorem sysFsRead_stays (hruns : Runs (k.proc cur)) (a1 a2 a3 : U64) :
    Stays cur k (sysFsRead env cur a1 a2 a3) ↔
      (a3 = 0 → May (k.proc cur) capFsRead → ∀ path ∈ strArg env k cur a1 fsNameMax,
        ∀ norm ∈ vfsPath (policy cur k) root path capFsRead, vfsIsPseudo norm = true →
          InRegions (k.proc cur).umap ⟨a2, 1, true⟩) := by
  refine sysFsRead_touches ?_ a1 a2 a3
  rintro _ addr len rfl hptr
  exact userPtrOk_inRegions hruns.2.1 hptr

/-! ## Every call -/

theorem sysExit_stays (a1 : U64) : Stays cur k (sysExit cur a1) := by
  rintro x ⟨⟩

/-- `SYS_MMAP` and `SYS_DEV_MAP` touch nothing of their caller. -/
theorem stays_of_silent {c : SysM U64} (h : Meets (fun _ => True) (fun _ => False) c fun _ => True) : Stays cur k c :=
  fun x hx => ((h k trivial).1 x hx).elim

theorem sysAuthTicketIssue_stays (hruns : Runs (k.proc cur)) (a1 a2 a3 : U64) :
    Stays cur k (sysAuthTicketIssue env cur a1 a2 a3) :=
  stays_of_meets (sysAuthTicketIssue_meets (trusts_umap hruns) a1 a2 a3 fun _ _ h => h)

theorem sysSessionLogin_stays (hruns : Runs (k.proc cur)) (a1 a2 a3 : U64) :
    Stays cur k (sysSessionLogin env cur a1 a2 a3) := by
  refine stays_of_meets (sysSessionLogin_meets (trusts_umap hruns) a1 a2 a3 (fun _ _ h => h) (fun _ _ _ h => h) ?_)
  exact fun k' caps h => h.trans (Keeps.setProc k' cur fun _ hp => ⟨hp, rfl⟩)

theorem dispatchNr_stays (hruns : Runs (k.proc cur)) (nr a1 a2 a3 a4 : U64) :
    Stays cur k (dispatchNr m env cur nr a1 a2 a3 a4) ↔ UncheckedContained env cur nr a1 a2 a3 a4 k := by
  have hi := Keeps.tame stable_umap k cur
  have ht := trusts_umap hruns
  by_cases hs : nr.toNat ∈ special
  case neg =>
    refine iff_of_true (stays_of_meets (dispatchNr_meets hi ht nr a1 a2 a3 a4 fun h => absurd h hs)) ?_
    simp only [special, List.mem_cons, List.not_mem_nil, or_false, not_or] at hs
    unfold UncheckedContained
    split
    any_goals omega
    trivial
  simp only [special, List.mem_cons, List.not_mem_nil, or_false] at hs
  unfold dispatchNr UncheckedContained
  rcases hs with h | h | h | h | h | h | h | h | h | h <;> rw [h]
  · exact iff_of_true (sysExit_stays a1) trivial
  · exact iff_of_true (stays_of_meets (sysExec_meets ht a1 a2 a3 fun k path hk => hk.exec m env cur path)) trivial
  · exact sysIpcSend_stays hruns a1 a2 a3 a4
  · exact sysIpcRecv_stays hruns a1 a2 a3 a4
  · exact sysFsRead_stays hruns a1 a2 a3
  · exact sysIpcSend_stays hruns a1 a2 a3 a4
  · exact iff_of_true (sysSessionLogin_stays hruns a1 a2 a3) trivial
  · exact iff_of_true (stays_of_silent (sysMmap_meets a1 fun _ _ _ _ => trivial)) trivial
  · exact iff_of_true (stays_of_silent (sysDevMap_meets a1 a2 fun _ _ _ _ => trivial)) trivial
  · exact iff_of_true (sysAuthTicketIssue_stays hruns a1 a2 a3) trivial

/-- A call stays in its caller's regions exactly where the pointers that it does not check do. -/
theorem pointers_contained_iff (m : Machine) (env : Env) (cur : Nat) (nr a1 a2 a3 a4 : U64) (k : Kernel)
    (hruns : Runs (k.proc cur)) :
    PointersContained m env cur nr a1 a2 a3 a4 k ↔
      (May (k.proc cur) capSyscall → UncheckedContained env cur nr a1 a2 a3 a4 k) := by
  unfold PointersContained syscallDispatch
  by_cases hmay : May (k.proc cur) capSyscall
  · rw [syscallCap_bind_may hmay]
    exact (dispatchNr_stays hruns nr a1 a2 a3 a4).trans ⟨fun h _ => h, fun h => h hmay⟩
  · rw [syscallCap_bind_not hmay]
    refine iff_of_true ?_ fun h => absurd h hmay
    rintro x ⟨⟩

/-- 'authd' and 'spoudazo' run. -/
def sessionStart : System :=
  ([.init (.loaded [region]), .init (.loaded [region]), .init .rejected, .init (.loaded [region])] : List Op).foldl
    (apply smallMachine) (boot [] synallagmaInit)

/-- A send of eight bytes of the region to 'authd'. -/
theorem pointers_contained_send :
    PointersContained smallMachine (callEnv [] 0) 2 4 2 0 0x200000000000 8 sessionStart.kernel :=
  (pointers_contained_iff smallMachine (callEnv [] 0) 2 4 2 0 0x200000000000 8 sessionStart.kernel
    (by decide +kernel)).mpr
    fun _ hnull => absurd hnull (by decide)

/-- A null pointer with a length is read as it is. -/
theorem pointers_null_send :
    ¬ ∀ (m : Machine) (nodes : Nodes) (synallagma : Synallagma) (ops : List Op) (s : System),
      Run (Step m) (boot nodes synallagma) ops s →
        ∀ (env : Env) (cur : Nat) (nr a1 a2 a3 a4 : U64), Runs (s.kernel.proc cur) →
          PointersContained m env cur nr a1 a2 a3 a4 s.kernel := by
  intro h
  have hsend := h smallMachine [] synallagmaInit _ sessionStart (Run.of_admits (by decide +kernel))
    (callEnv [] 0) 2 4 2 0 0 8 (by decide +kernel) ⟨0, 8, false⟩ (by decide +kernel) 0 (by decide)
  obtain ⟨r, hr, hholds⟩ := hsend
  have hbase : ∀ r ∈ (sessionStart.kernel.proc 2).umap, 0 < r.base := by decide +kernel
  exact absurd hholds.1 (Nat.not_le.mpr (hbase r hr))

end Siathos.Session
