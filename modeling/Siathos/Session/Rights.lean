import Siathos.Session.Model

/-!
# The rights of a session

A process that has logged in, or comes from one that has, holds the rights that every ring-3 process
has and those of the account. This is so as long as each login finds no other rights in its process.
-/

open Lib Lib.Call Siathos.Nomos Siathos.Fs Siathos.Ipc Siathos.Proc Siathos.Syscall

namespace Siathos.Session

/-! ## Sets of rights -/

theorem within_iff (r s : Rights) : Within r s ↔ ∀ i, r.getLsbD i = true → s.getLsbD i = true := by
  unfold Within
  constructor
  · intro h i hr
    have hlt : i < 64 := BitVec.lt_of_getLsbD hr
    have hi := congrArg (fun x => x.getLsbD i) h
    simpa [hr, hlt] using hi
  · intro h
    refine BitVec.eq_of_getLsbD_eq fun i hi => ?_
    cases hr : r.getLsbD i
    · simp [hr]
    · simp [hr, h i hr]

theorem within_or {r r' s : Rights} : Within (r ||| r') s ↔ Within r s ∧ Within r' s := by
  simp only [within_iff, BitVec.getLsbD_or, Bool.or_eq_true, or_imp, forall_and]

theorem within_left (r s : Rights) : Within r (r ||| s) := by
  simp only [within_iff, BitVec.getLsbD_or, Bool.or_eq_true]
  exact fun i h => Or.inl h

theorem within_right (r s : Rights) : Within r (s ||| r) := by
  simp only [within_iff, BitVec.getLsbD_or, Bool.or_eq_true]
  exact fun i h => Or.inr h

/-! ## The invariant -/

/-- A process with a session holds the rights of every process and of the account. -/
def Contained (p : Process) : Prop := ∀ caps ∈ p.login, Within p.rights (baseRights ||| caps)

def RightsOk (k : Kernel) : Prop := ∀ p ∈ k.procs, Contained p

theorem contained_empty : Contained emptySlot := by
  rintro caps ⟨⟩

theorem RightsOk.proc {k : Kernel} (h : RightsOk k) (cur : Nat) : Contained (k.proc cur) := by
  unfold Kernel.proc
  rw [List.getD_eq_getElem?_getD]
  cases hp : k.procs[cur]? with
  | none => exact contained_empty
  | some p => exact h p (List.mem_of_getElem? hp)

theorem RightsOk.setProc {k : Kernel} (h : RightsOk k) (cur : Nat) {f : Process → Process}
    (hf : ∀ p, Contained p → Contained (f p)) : RightsOk (k.setProc cur f) :=
  forall_modify h fun p _ => hf p

theorem RightsOk.updatePid {k : Kernel} (h : RightsOk k) (pid : Nat) {f : Process → Process}
    (hf : ∀ p, Contained p → Contained (f p)) : RightsOk { k with procs := updatePid pid f k.procs } :=
  forall_updatePid h hf

theorem RightsOk.gc {k : Kernel} (h : RightsOk k) : RightsOk (procGcRun k) := by
  intro q hq
  obtain ⟨p, hp, rfl⟩ := List.mem_map.mp hq
  split
  · exact h p hp
  · exact h p hp

theorem RightsOk.wakeup {k : Kernel} (h : RightsOk k) (pid : Nat) : RightsOk (schedWakeup pid k) := by
  refine h.updatePid pid fun p hp => ?_
  split
  · exact hp
  · exact hp

theorem RightsOk.exit {k : Kernel} (h : RightsOk k) (cur : Nat) (code : BitVec 32) :
    RightsOk (procExit cur code k) :=
  forall_modify (forall_updatePid h fun _ hp => hp) fun _ _ hp => hp

theorem rightsOk_tame (cur : Nat) : Tame cur RightsOk where
  mailboxes _ _ h := h
  svcTable _ _ _ h _ _ := h
  nodes _ _ h := h
  wakeup _ pid h := h.wakeup pid
  gc _ h := h.gc
  accounts _ _ _ h := h
  verified _ _ h := h
  waited _ h := h.setProc cur fun _ hp => hp
  block _ h := h.setProc cur fun _ hp => hp

/-! ## New processes -/

theorem RightsOk.load {k : Kernel} (h : RightsOk k) (cur : Nat) (pname : CStr) (load : Load) :
    RightsOk (execElfCore cur pname load k).1 := by
  rcases execElfCore_new cur pname load k with hk | ⟨idx, p, pid, -, -, hrights, hlogin, -, hk⟩
  · rw [hk]
    exact h
  rw [hk]
  intro q hq
  rcases List.mem_or_eq_of_mem_set hq with hq | rfl
  · exact h q hq
  intro caps hcaps
  rw [hlogin] at hcaps
  rw [hrights]
  unfold loadRights
  split
  · exact within_or.mpr ⟨within_left _ _, h.proc cur caps hcaps⟩
  · exact within_left _ _

theorem RightsOk.embedded {k : Kernel} (h : RightsOk k) (m : Machine) (cur : Nat) (name : CStr) (load : Load) :
    RightsOk (execEmbeddedArgs m cur name load k).1 := by
  rcases execEmbeddedArgs_cases m cur name load k with hk | hk
  · rw [hk]
    exact h
  · rw [hk]
    exact h.load cur name load

theorem RightsOk.exec {k : Kernel} (h : RightsOk k) (m : Machine) (env : Env) (cur : Nat) (path : CStr) :
    RightsOk (execUserPath m env cur path k).1 := by
  apply execUserPath_keeps h
  · exact fun k name hk => hk.embedded m cur name env.loadEmbedded
  · exact fun k hk => hk.load cur _ env.loadFile

/-! ## Logins -/

/-- The account of a call to `SYS_SESSION_LOGIN`. -/
def loginOf (k : Kernel) (env : Env) (cur : Nat) (a1 a3 : U64) : Option (Auth × UserRef × Rights) :=
  (strArg env k cur a1 authNameMax).bind (loginAccount · a3 k.auth)

/-- Before a login the process holds no right that is not every process's or the account's. -/
def FreshLogin (s : System) : Op → Prop
  | .syscall cur env nr a1 a2 a3 _ =>
    nr = 21 → a2 ≠ 0 → ∀ r ∈ loginOf s.kernel env cur a1 a3,
      Within (s.kernel.proc cur).rights (baseRights ||| r.2.2)
  | _ => True

instance (s : System) : (o : Op) → Decidable (FreshLogin s o)
  | .syscall .. => inferInstanceAs (Decidable (_ → _ → ∀ _ ∈ _, _))
  | .init _ | .gc => isTrue trivial

theorem RightsOk.login {k : Kernel} (h : RightsOk k) {cur : Nat} {auth : Auth} {user : UserRef} {caps : Rights}
    (hfresh : Within (k.proc cur).rights (baseRights ||| caps)) : RightsOk (logIn cur auth user caps k) := by
  refine forall_modify h fun p hp _ => ?_
  have hproc : k.proc cur = p := by
    unfold Kernel.proc
    rw [List.getD_eq_getElem?_getD, hp]
    rfl
  rintro c ⟨⟩
  exact within_or.mpr ⟨hproc ▸ hfresh, within_right _ _⟩

theorem login_contained_iff {k : Kernel} {cur : Nat} {auth : Auth} {user : UserRef} {caps : Rights}
    (hcur : cur < k.procs.length) :
    Contained ((logIn cur auth user caps k).proc cur) ↔ Within (k.proc cur).rights (baseRights ||| caps) := by
  have hproc : (logIn cur auth user caps k).proc cur =
      { k.proc cur with rights := (k.proc cur).rights ||| caps, login := some caps } := by
    simp [logIn, Kernel.setProc, Kernel.proc, hcur]
  rw [hproc]
  constructor
  · intro h
    exact (within_or.mp (h caps rfl)).1
  · rintro h c ⟨⟩
    exact within_or.mpr ⟨h, within_right _ _⟩

/-! ## Runs -/

theorem RightsOk.syscall {s : System} {m : Machine} {env : Env} {cur : Nat} {nr a1 a2 a3 a4 : U64}
    (h : RightsOk s.kernel) (hfresh : FreshLogin s (.syscall cur env nr a1 a2 a3 a4)) :
    RightsOk (syscallDispatch m env cur nr a1 a2 a3 a4 s.kernel).state := by
  rcases syscallDispatch_cases m env cur nr a1 a2 a3 a4 s.kernel with hs | hs
  · rw [hs]
    exact h
  rw [hs]
  by_cases hlogin : nr = 21
  · subst hlogin
    change RightsOk (sysSessionLogin env cur a1 a2 a3 s.kernel).state
    rcases sysSessionLogin_cases env cur a1 a2 a3 s.kernel with hk | ⟨name, auth, user, caps, hname, hacc, hk⟩
    · rw [hk]
      exact h
    · rcases hk with ⟨-, hk⟩ | ⟨h2, hk⟩
      · rw [hk]
        exact h
      · rw [hk]
        refine h.login (hfresh rfl h2 (auth, user, caps) ?_)
        rw [loginOf, hname]
        exact hacc
  · have hi := rightsOk_tame cur
    have ht : Trusts cur RightsOk fun _ => True := fun _ _ _ _ _ _ _ _ _ => trivial
    refine (dispatchNr_meets hi ht nr a1 a2 a3 a4 (fun hspecial => ?_) s.kernel h).2.1
    simp only [special, List.mem_cons, List.not_mem_nil, or_false] at hspecial
    unfold dispatchNr
    rcases hspecial with h | h | h | h | h | h | h | h | h | h <;> rw [h]
    · exact sysExit_meets a1 fun k code hk => hk.exit cur code
    · exact sysExec_meets ht a1 a2 a3 fun k path hk => hk.exec m env cur path
    · exact sysIpcSend_meets hi ht a1 a2 fun _ _ _ _ => trivial
    · exact sysIpcRecv_meets hi ht a3 a4 fun _ _ _ _ => trivial
    · exact sysFsRead_meets ht a1 a2 a3 fun _ _ _ _ _ _ _ _ _ _ => trivial
    · exact sysIpcSend_meets hi ht a1 a2 fun _ _ _ _ => trivial
    · exact absurd (BitVec.eq_of_toNat_eq h) hlogin
    · exact sysMmap_meets a1 fun k u heap hk => hk.setProc cur fun _ hp => hp
    · exact sysDevMap_meets a1 a2 fun k b u hk => hk.setProc cur fun _ hp => hp
    · exact sysAuthTicketIssue_meets ht a1 a2 a3 fun k auth hk => hk

/-- A process that `init` starts has no session yet. -/
theorem RightsOk.init {s : System} (h : RightsOk s.kernel) (m : Machine) (load : Load) :
    RightsOk (initStep m load s).kernel := by
  have hstart : ∀ {pid : Nat} {k : Kernel}, RightsOk k → RightsOk (startSession pid k) := by
    intro pid k hk
    refine hk.updatePid pid fun p _ => ?_
    rintro caps ⟨⟩
  unfold initStep
  split
  · split
    · exact h
    rename_i name kormi _
    split
    · have hk := h.embedded m initSlot name load
      revert hk
      generalize execEmbeddedArgs m initSlot name load s.kernel = r
      obtain ⟨k, pid⟩ := r
      intro hk
      cases pid
      · exact hk
      · change RightsOk { k with procs := Syscall.updatePid _ _ (Syscall.updatePid _ _ k.procs) }
        rw [updatePid_updatePid (g := fun p => { p with rights := p.rights ||| kormiRights })
          fun _ => ⟨rfl, rfl⟩]
        refine hk.updatePid _ fun p _ => ?_
        rintro caps ⟨⟩
    · exact h
  · have hk := h.embedded m initSlot spoudazo load
    revert hk
    generalize execEmbeddedArgs m initSlot spoudazo load s.kernel = r
    obtain ⟨k, pid⟩ := r
    intro hk
    cases pid
    · exact hk
    · exact hstart hk
  · split
    · exact h.gc
    · exact h
  · exact h

theorem RightsOk.step {m : Machine} {s t : System} {o : Op} (h : RightsOk s.kernel)
    (hstep : Guarded FreshLogin (Step m) s o t) : RightsOk t.kernel := by
  obtain ⟨hfresh, -, rfl⟩ := hstep
  cases o with
  | syscall cur env nr a1 a2 a3 a4 => exact h.syscall hfresh
  | init load => exact h.init m load
  | gc => exact h.gc

theorem rightsOk_boot (nodes : Nodes) (synallagma : Synallagma) : RightsOk (boot nodes synallagma).kernel := by
  intro p hp
  rcases List.mem_cons.mp hp with rfl | hp
  · rintro caps ⟨⟩
  · rw [List.eq_of_mem_replicate hp]
    exact contained_empty

/-- In every run whose logins are fresh, every session holds the rights of its account only. -/
theorem session_rights (m : Machine) (nodes : Nodes) (synallagma : Synallagma) {ops : List Op} {s : System}
    (h : Run (Guarded FreshLogin (Step m)) (boot nodes synallagma) ops s) :
    ∀ p ∈ s.kernel.procs, ∀ caps ∈ p.login, Within p.rights (baseRights ||| caps) := by
  have hinv : ∀ (s : System) (o : Op) (t : System),
      RightsOk s.kernel → Guarded FreshLogin (Step m) s o t → RightsOk t.kernel :=
    fun _ _ _ hs hstep => hs.step hstep
  exact Run.invariant hinv h (rightsOk_boot nodes synallagma)

/-- The addresses of the strings that the runs below pass. -/
def userText (texts : List (U64 × CStr)) : U64 → UInt8 := fun a =>
  ((texts.find? fun t => a - t.1 ≤ BitVec.ofNat 64 t.2.length).bind fun t => t.2[(a - t.1).toNat]?).getD 0

def region : Region := ⟨0x200000000000, 0x10000⟩

/-- A call of a process that passes these strings. -/
def callEnv (texts : List (U64 × CStr)) (tok : U64) : Env where
  mem := userText texts
  ticks := 0
  memTotal := 0
  memFree := 0
  salt := ascii "00112233445566778899aabbccddeeff"
  tok := tok
  key := none
  port := 0
  phys := 0
  kmallocOk := true
  mapsPages := true
  loadEmbedded := .loaded [region]
  loadFile := .rejected

/-- The modules that matter here. -/
def smallMachine : Machine := ⟨fun pw salt => pw ++ salt, [(ascii "authd", true), (spoudazo, false)]⟩

def nameAddr : U64 := 0x200000000000

def bob : CStr := ascii "bob"

/-- 'authd' and 'spoudazo' start. The service issues a ticket for 'bob', who then logs in. -/
def firstLogin : List Op :=
  [.init (.loaded [region]), .init (.loaded [region]), .init .rejected, .init (.loaded [region]),
    .syscall 1 (callEnv [(nameAddr, bob)] 7) 36 nameAddr userRights 0 0,
    .syscall 2 (callEnv [(nameAddr, bob)] 0) 21 nameAddr 1 7 0]

/-- 'bob' is logged in, with the rights of his account. -/
theorem session_rights_first :
    (∃ p ∈ (firstLogin.foldl (apply smallMachine) (boot [] synallagmaInit)).kernel.procs,
      p.login = some userRights) ∧
    ∀ p ∈ (firstLogin.foldl (apply smallMachine) (boot [] synallagmaInit)).kernel.procs,
      ∀ caps ∈ p.login, Within p.rights (baseRights ||| caps) :=
  ⟨by decide +kernel, session_rights smallMachine [] synallagmaInit (Run.of_admits_guarded (by decide +kernel))⟩

/-- The session ends. `init` starts the next 'spoudazo' while 'bob' is still the current user, so
that it inherits the rights of `init`. -/
def secondLogin : List Op :=
  [.syscall 2 (callEnv [] 0) 0 0 0 0 0, .gc, .init .rejected, .init (.loaded [region]),
    .syscall 1 (callEnv [(nameAddr, bob)] 9) 36 nameAddr userRights 0 0,
    .syscall 2 (callEnv [(nameAddr, bob)] 0) 21 nameAddr 1 9 0]

theorem session_rights_respawn :
    ¬ ∀ (m : Machine) (nodes : Nodes) (synallagma : Synallagma) (ops : List Op) (s : System),
      Run (Step m) (boot nodes synallagma) ops s →
        ∀ p ∈ s.kernel.procs, ∀ caps ∈ p.login, Within p.rights (baseRights ||| caps) := by
  intro h
  have hall := h smallMachine [] synallagmaInit (firstLogin ++ secondLogin) _ (Run.of_admits (by decide +kernel))
  have hrights : ((firstLogin ++ secondLogin).foldl (apply smallMachine) (boot [] synallagmaInit)).kernel.procs.any
      fun p => p.login = some userRights ∧ ¬ Within p.rights (baseRights ||| userRights) := by
    decide +kernel
  obtain ⟨p, hp, h⟩ := List.any_eq_true.mp hrights
  obtain ⟨hlogin, hnot⟩ := of_decide_eq_true h
  exact hnot (hall p hp userRights hlogin)

end Siathos.Session
