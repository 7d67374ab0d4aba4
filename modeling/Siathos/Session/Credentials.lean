import Siathos.Session.Rights
import Siathos.Syscall.Live

/-!
# Logins and their credentials

The rights of a running process grow only by a login, and a login with a ticket spends one that an
administrator had issued. A login without a ticket asks for no password: that is left to its caller.
-/

open Lib Lib.Call Siathos.Nomos Siathos.Fs Siathos.Ipc Siathos.Proc Siathos.Syscall

namespace Siathos.Session

/-! ## What system calls keep -/

def KeepsRights (k k' : Kernel) : Prop := Keeps (fun p => (p.rights, p.pid)) k k'

theorem stable_rights : Stable fun p => (p.rights, p.pid) := fun _ _ _ => rfl

theorem KeepsRights.rights {k k' : Kernel} (h : KeepsRights k k') {i : Nat} (hlive : Live (k.proc i)) :
    (k'.proc i).rights = (k.proc i).rights := congrArg Prod.fst (h i hlive).2

theorem KeepsRights.pid {k k' : Kernel} (h : KeepsRights k k') {i : Nat} (hlive : Live (k.proc i)) :
    (k'.proc i).pid = (k.proc i).pid := congrArg Prod.snd (h i hlive).2

/-! ## Process numbers -/

/-- No process has a number that is still to be given out. -/
def PidsBelow (k : Kernel) : Prop := ∀ p ∈ k.procs, p.pid < k.nextPid

theorem PidsBelow.proc {k : Kernel} (h : PidsBelow k) {i : Nat} (hlive : Live (k.proc i)) :
    (k.proc i).pid < k.nextPid := by
  revert hlive
  unfold Kernel.proc
  rw [List.getD_eq_getElem?_getD]
  cases hp : k.procs[i]? with
  | none => exact fun hlive => absurd hlive not_live_empty
  | some p => exact fun _ => h p (List.mem_of_getElem? hp)

theorem PidsBelow.setProc {k : Kernel} (h : PidsBelow k) (cur : Nat) {f : Process → Process}
    (hf : ∀ p, (f p).pid = p.pid) : PidsBelow (k.setProc cur f) := by
  refine forall_modify h fun p _ hp => ?_
  rw [hf p]
  exact hp

theorem PidsBelow.updatePid {k : Kernel} (h : PidsBelow k) (pid : Nat) {f : Process → Process}
    (hf : ∀ p, (f p).pid = p.pid) : PidsBelow { k with procs := Syscall.updatePid pid f k.procs } := by
  refine forall_updatePid h fun p hp => ?_
  rw [hf p]
  exact hp

theorem PidsBelow.gc {k : Kernel} (h : PidsBelow k) : PidsBelow (procGcRun k) := by
  intro q hq
  obtain ⟨p, hp, rfl⟩ := List.mem_map.mp hq
  split <;> exact h p hp

theorem PidsBelow.exit {k : Kernel} (h : PidsBelow k) (cur : Nat) (code : BitVec 32) :
    PidsBelow (procExit cur code k) :=
  forall_modify (forall_updatePid h fun _ hp => hp) fun _ _ hp => hp

theorem pidsBelow_tame (cur : Nat) : Tame cur PidsBelow where
  mailboxes _ _ h := h
  svcTable _ _ _ h _ _ := h
  nodes _ _ h := h
  wakeup _ pid h := h.updatePid pid fun p => by split <;> rfl
  gc _ h := h.gc
  accounts _ _ _ h := h
  verified _ _ h := h
  waited _ h := h.setProc cur fun _ => rfl
  block _ h := h.setProc cur fun _ => rfl

theorem PidsBelow.set {k : Kernel} (h : PidsBelow k) (idx : Nat) {p : Process} (hp : p.pid = k.nextPid) :
    PidsBelow { k with procs := k.procs.set idx p, nextPid := k.nextPid + 1 } := by
  intro q hq
  rcases List.mem_or_eq_of_mem_set hq with hq | rfl
  · exact Nat.lt_succ_of_lt (h q hq)
  · exact hp ▸ Nat.lt_succ_self _

theorem PidsBelow.load {k : Kernel} (h : PidsBelow k) (cur : Nat) (pname : CStr) (load : Load) :
    PidsBelow (execElfCore cur pname load k).1 := by
  rcases execElfCore_new cur pname load k with hk | ⟨idx, p, pid, -, hp, -, -, -, hk⟩
  · rw [hk]
    exact h
  · rw [hk]
    exact h.set idx hp

theorem PidsBelow.embedded {k : Kernel} (h : PidsBelow k) (m : Machine) (cur : Nat) (name : CStr) (load : Load) :
    PidsBelow (execEmbeddedArgs m cur name load k).1 := by
  rcases execEmbeddedArgs_cases m cur name load k with hk | hk
  · rw [hk]
    exact h
  · rw [hk]
    exact h.load cur name load

theorem embedded_pid (m : Machine) (cur : Nat) (name : CStr) (load : Load) (k : Kernel) :
    ∀ pid ∈ (execEmbeddedArgs m cur name load k).2, pid = k.nextPid := by
  rcases execEmbeddedArgs_cases m cur name load k with h | h
  · rw [h]
    rintro pid ⟨⟩
  rw [h]
  rcases execElfCore_new cur name load k with h | ⟨idx, p, pid, -, -, -, -, hpid, h⟩
  · rw [h]
    rintro pid ⟨⟩
  · rw [h]
    exact hpid

/-! ## Tickets -/

/-- Every ticket was issued by a process that may administer users. -/
def IssuedByAdmin (k : Kernel) : Prop := ∀ t ∈ k.auth.tickets, t.issuer &&& capUserAdmin ≠ 0

theorem issuedByAdmin_tame (cur : Nat) : Tame cur IssuedByAdmin where
  mailboxes _ _ h := h
  svcTable _ _ _ h _ _ := h
  nodes _ _ h := h
  wakeup _ _ h := h
  gc _ h := h
  accounts _ _ ht h := fun t hmem => h t (ht ▸ hmem)
  verified _ _ h := h
  waited _ h := h
  block _ h := h

/-- `useTicket` spends one ticket that was not spent. -/
theorem useTicket_split {name : CStr} {tok : U64} {a : Auth} {t : AuthTicket}
    (h : authTicketMatch a name tok = some t) :
    ∃ l r, a.tickets = l ++ t :: r ∧ useTicket name tok a.tickets = l ++ { t with used := true } :: r ∧
      t.used = false ∧ t.name = name ∧ t.tok = tok := by
  unfold authTicketMatch at h
  revert h
  induction a.tickets with
  | nil => intro h; cases h
  | cons u rest ih =>
    intro h
    rw [List.find?_cons] at h
    unfold useTicket
    split at h
    · rename_i hu
      cases h
      rw [if_pos hu]
      simp only [Bool.and_eq_true, Bool.not_eq_true', decide_eq_true_eq] at hu
      exact ⟨[], rest, rfl, rfl, hu.1.1, hu.1.2, hu.2⟩
    · rename_i hu
      obtain ⟨l, r, hl, hr, hused⟩ := ih h
      rw [hu, if_neg Bool.false_ne_true, hr]
      exact ⟨u :: l, r, by rw [hl]; rfl, rfl, hused⟩

theorem IssuedByAdmin.issue {k : Kernel} (h : IssuedByAdmin k) {name : CStr} {caps tok issuer : U64} {auth : Auth}
    (hissuer : issuer &&& capUserAdmin ≠ 0) (hissue : authTicketIssue k.auth name caps tok issuer = some auth) :
    IssuedByAdmin { k with auth } := by
  unfold authTicketIssue at hissue
  split at hissue
  · cases hissue
  split at hissue
  · cases hissue
  rw [← Option.some.inj hissue]
  intro t ht
  rcases List.mem_append.mp ht with ht | ht
  · obtain ⟨u, hu, rfl⟩ := List.mem_map.mp ht
    split
    · exact h u hu
    · exact h u hu
  · rw [List.mem_singleton.mp ht]
    exact hissuer

theorem loginAccount_cases {name : CStr} {a3 : U64} {a a' : Auth} {user : UserRef} {caps : Rights}
    (h : loginAccount name a3 a = some (a', user, caps)) :
    (a3 = 0 ∧ a' = a ∧ ∃ u ∈ a.accounts, u.active = true ∧ u.name = name ∧ u.caps = caps) ∨
    (a3 ≠ 0 ∧ ∃ t l r, a.tickets = l ++ t :: r ∧ a'.tickets = l ++ { t with used := true } :: r ∧
      t.used = false ∧ t.name = name ∧ t.tok = a3 ∧ t.caps = caps) := by
  unfold loginAccount at h
  split at h
  · rename_i h3
    obtain ⟨b, hb, hr⟩ := Option.map_eq_some_iff.mp h
    obtain ⟨t, ht, rfl⟩ := Option.map_eq_some_iff.mp hb
    cases hr
    obtain ⟨l, r, hl, hr, hused, hname, htok⟩ := useTicket_split ht
    exact Or.inr ⟨h3, t, l, r, hl, hr, hused, hname, htok, rfl⟩
  · rename_i h3
    obtain ⟨i, hi, hr⟩ := Option.bind_eq_some_iff.mp h
    obtain ⟨u, hu, hr⟩ := Option.map_eq_some_iff.mp hr
    cases hr
    refine Or.inl ⟨not_not.mp h3, rfl, u, List.mem_of_getElem? hu, ?_⟩
    obtain ⟨hlt, hfound, -⟩ := List.findIdx?_eq_some_iff_getElem.mp hi
    rw [List.getElem?_eq_getElem hlt] at hu
    cases hu
    simp only [Bool.and_eq_true, decide_eq_true_eq] at hfound
    exact ⟨hfound.1, hfound.2, rfl⟩

/-! ## Steps -/

/-- The password was verified earlier in the session, where a login without a ticket would add rights. -/
def PasswordVerified (s : System) : Op → Prop
  | .syscall cur env nr a1 a2 a3 _ =>
    nr = 21 → a2 ≠ 0 → a3 = 0 → (s.kernel.proc cur).rights &&& capUserAdmin = 0 →
      ∀ name ∈ strArg env s.kernel cur a1 authNameMax, ∀ r ∈ loginAccount name 0 s.kernel.auth,
        Within r.2.2 (s.kernel.proc cur).rights ∨ ((s.kernel.proc cur).session, name) ∈ s.kernel.verified
  | _ => True

instance (s : System) : (o : Op) → Decidable (PasswordVerified s o)
  | .syscall .. => inferInstanceAs (Decidable (_ → _ → _ → _ → ∀ _ ∈ _, ∀ _ ∈ _, _ ∨ _))
  | .init _ | .gc => isTrue trivial

/-- The login of `p` as `name` spends a ticket that an administrator had issued for this token, or
follows a verified password. -/
def Credentials (p : Process) (tok : U64) (name : CStr) (caps : Rights) (k k' : Kernel) : Prop :=
  (∃ t l r, k.auth.tickets = l ++ t :: r ∧ k'.auth.tickets = l ++ { t with used := true } :: r ∧
    t.used = false ∧ t.name = name ∧ t.tok = tok ∧ t.caps = caps ∧ t.issuer &&& capUserAdmin ≠ 0) ∨
  (∃ u ∈ k.auth.accounts, u.active = true ∧ u.name = name ∧ u.caps = caps ∧
    (p.session, name) ∈ k.verified)

/-- A running process in ring 3 without `CAP_USER_ADMIN` keeps its rights, or logs in. -/
def NoElevation (s : System) (o : Op) (t : System) : Prop :=
  ∀ i, Runs (s.kernel.proc i) → (s.kernel.proc i).rights &&& capUserAdmin = 0 →
    (t.kernel.proc i).rights = (s.kernel.proc i).rights ∨
    ∃ env a1 a2 a3 a4 name caps, o = .syscall i env 21 a1 a2 a3 a4 ∧
      strArg env s.kernel i a1 authNameMax = some name ∧
      (t.kernel.proc i).rights = (s.kernel.proc i).rights ||| caps ∧
      Credentials (s.kernel.proc i) a3 name caps s.kernel t.kernel

/-- What holds in every state. -/
def Sound (k : Kernel) : Prop := PidsBelow k ∧ IssuedByAdmin k

def SameRights (k k' : Kernel) : Prop := ∀ i, Live (k.proc i) → (k'.proc i).rights = (k.proc i).rights

theorem KeepsRights.same {k k' : Kernel} (h : KeepsRights k k') : SameRights k k' := fun _ hi => h.rights hi

theorem sameRights_exit (k : Kernel) (cur : Nat) (code : BitVec 32) : SameRights k (procExit cur code k) := by
  intro i _
  have htold := proc_updatePid k (k.proc cur).parent (fun p => { p with
    waitPid := (k.proc cur).pid
    waitCode := code
    state := if p.state = .blocked then .ready else p.state }) i
  generalize hk : Kernel.mk _ _ _ _ _ _ _ _ = k' at htold
  have hexit : procExit cur code k = k'.setProc cur fun p => { p with exitCode := code, state := .terminated } := by
    rw [← hk]
    rfl
  have hrights : (k'.proc i).rights = (k.proc i).rights := by
    rcases htold with h | ⟨-, h⟩ <;> rw [h]
  rw [hexit]
  rcases proc_setProc k' cur (fun p => { p with exitCode := code, state := .terminated }) i with h | ⟨-, h⟩ <;>
    rw [h] <;> exact hrights

/-- What every part of a call keeps, seen from its start `k₀`. -/
def Kept (k₀ k : Kernel) : Prop := KeepsRights k₀ k ∧ Sound k

theorem kept_tame (k₀ : Kernel) (cur : Nat) : Tame cur (Kept k₀) :=
  (Keeps.tame stable_rights k₀ cur).and ((pidsBelow_tame cur).and (issuedByAdmin_tame cur))

theorem Kept.setProc {k₀ k : Kernel} (h : Kept k₀ k) (cur : Nat) {f : Process → Process}
    (hf : ∀ p, (f p).present = p.present ∧ (f p).state = p.state ∧ (f p).rights = p.rights ∧ (f p).pid = p.pid) :
    Kept k₀ (k.setProc cur f) := by
  refine ⟨h.1.trans (Keeps.setProc k cur fun p hp => ?_), h.2.1.setProc cur fun p => (hf p).2.2.2, h.2.2⟩
  obtain ⟨hpresent, hstate, hrights, hpid⟩ := hf p
  exact ⟨⟨hpresent.trans hp.1, hstate ▸ hp.2⟩, Prod.ext hrights hpid⟩

theorem IssuedByAdmin.load {k : Kernel} (h : IssuedByAdmin k) (cur : Nat) (pname : CStr) (load : Load) :
    IssuedByAdmin (execElfCore cur pname load k).1 := by
  rcases execElfCore_new cur pname load k with hk | ⟨idx, p, pid, -, -, -, -, -, hk⟩ <;> rw [hk] <;> exact h

theorem Kept.load {k₀ k : Kernel} (h : Kept k₀ k) (cur : Nat) (pname : CStr) (load : Load) :
    Kept k₀ (execElfCore cur pname load k).1 :=
  ⟨h.1.trans (Keeps.load cur pname load k), h.2.1.load cur pname load, h.2.2.load cur pname load⟩

theorem Kept.embedded {k₀ k : Kernel} (h : Kept k₀ k) (m : Machine) (cur : Nat) (name : CStr) (load : Load) :
    Kept k₀ (execEmbeddedArgs m cur name load k).1 := by
  rcases execEmbeddedArgs_cases m cur name load k with hk | hk
  · rw [hk]
    exact h
  · rw [hk]
    exact h.load cur name load

theorem Kept.exec {k₀ k : Kernel} (h : Kept k₀ k) (m : Machine) (env : Env) (cur : Nat) (path : CStr) :
    Kept k₀ (execUserPath m env cur path k).1 := by
  apply execUserPath_keeps h
  · exact fun k name hk => hk.embedded m cur name env.loadEmbedded
  · exact fun k hk => hk.load cur _ env.loadFile

theorem dispatchNr_sameRights (m : Machine) (env : Env) (cur : Nat) {nr : U64} (a1 a2 a3 a4 : U64) {k : Kernel}
    (h : Sound k) (hlogin : nr ≠ 21) :
    SameRights k (dispatchNr m env cur nr a1 a2 a3 a4 k).state ∧
      Sound (dispatchNr m env cur nr a1 a2 a3 a4 k).state := by
  by_cases hexit : nr = 0
  · subst hexit
    exact ⟨sameRights_exit k cur _, h.1.exit cur _, h.2⟩
  by_cases hissue : nr = 36
  · subst hissue
    change SameRights k (sysAuthTicketIssue env cur a1 a2 a3 k).state ∧
      Sound (sysAuthTicketIssue env cur a1 a2 a3 k).state
    rcases sysAuthTicketIssue_cases env cur a1 a2 a3 k with hk | ⟨name, auth, hadmin, hauth, hk⟩
    · rw [hk]
      exact ⟨fun _ _ => rfl, h⟩
    · rw [hk]
      exact ⟨fun _ _ => rfl, h.1, h.2.issue hadmin hauth⟩
  have hi := kept_tame k cur
  have ht : Trusts cur (Kept k) fun _ => True := fun _ _ _ _ _ _ _ _ _ => trivial
  have hmeets : Meets (Kept k) (fun _ => True) (dispatchNr m env cur nr a1 a2 a3 a4) fun _ => True := by
    refine dispatchNr_meets hi ht nr a1 a2 a3 a4 fun hspecial => ?_
    simp only [special, List.mem_cons, List.not_mem_nil, or_false] at hspecial
    unfold dispatchNr
    rcases hspecial with h | h | h | h | h | h | h | h | h | h <;> rw [h]
    · exact absurd (BitVec.eq_of_toNat_eq h) hexit
    · exact sysExec_meets ht a1 a2 a3 fun k path hk => hk.exec m env cur path
    · exact sysIpcSend_meets hi ht a1 a2 fun _ _ _ _ => trivial
    · exact sysIpcRecv_meets hi ht a3 a4 fun _ _ _ _ => trivial
    · exact sysFsRead_meets ht a1 a2 a3 fun _ _ _ _ _ _ _ _ _ _ => trivial
    · exact sysIpcSend_meets hi ht a1 a2 fun _ _ _ _ => trivial
    · exact absurd (BitVec.eq_of_toNat_eq h) hlogin
    · exact sysMmap_meets a1 fun k u heap hk => hk.setProc cur fun _ => ⟨rfl, rfl, rfl, rfl⟩
    · exact sysDevMap_meets a1 a2 fun k b u hk => hk.setProc cur fun _ => ⟨rfl, rfl, rfl, rfl⟩
    · exact absurd (BitVec.eq_of_toNat_eq h) hissue
  obtain ⟨-, ⟨hkeeps, hsound⟩, -⟩ := hmeets k ⟨Keeps.refl k, h⟩
  exact ⟨hkeeps.same, hsound⟩

theorem Sound.tickets {k : Kernel} {name : CStr} {a3 : U64} {auth : Auth} {user : UserRef} {caps : Rights}
    (h : Sound k) (hacc : loginAccount name a3 k.auth = some (auth, user, caps)) : Sound { k with auth } := by
  refine ⟨h.1, ?_⟩
  rcases loginAccount_cases hacc with ⟨-, rfl, -⟩ | ⟨-, t, l, r, hl, hr, -⟩
  · exact h.2
  · intro u hu
    change u ∈ auth.tickets at hu
    have hissuer := h.2
    unfold IssuedByAdmin at hissuer
    rw [hl] at hissuer
    rw [hr] at hu
    simp only [List.mem_append, List.mem_cons] at hissuer hu
    rcases hu with hu | rfl | hu
    · exact hissuer u (Or.inl hu)
    · exact hissuer t (Or.inr (Or.inl rfl))
    · exact hissuer u (Or.inr (Or.inr hu))

theorem Sound.logIn {k : Kernel} {auth : Auth} (h : Sound { k with auth }) (cur : Nat) (user : UserRef)
    (caps : Rights) :
    Sound (logIn cur auth user caps k) := by
  refine ⟨?_, h.2⟩
  exact PidsBelow.setProc (k := { k with synallagma := consentAll k.synallagma, auth := loginSetUser auth (some user) })
    h.1 cur fun _ => rfl

theorem Sound.syscall {s : System} (h : Sound s.kernel) (m : Machine) (cur : Nat) (env : Env) (nr a1 a2 a3 a4 : U64) :
    Sound (syscallDispatch m env cur nr a1 a2 a3 a4 s.kernel).state := by
  rcases syscallDispatch_cases m env cur nr a1 a2 a3 a4 s.kernel with hs | hs
  · rw [hs]
    exact h
  rw [hs]
  by_cases hlogin : nr = 21
  · subst hlogin
    change Sound (sysSessionLogin env cur a1 a2 a3 s.kernel).state
    rcases sysSessionLogin_cases env cur a1 a2 a3 s.kernel with hk | ⟨name, auth, user, caps, -, hacc, hk⟩
    · rw [hk]
      exact h
    · rcases hk with ⟨-, hk⟩ | ⟨-, hk⟩ <;> rw [hk]
      · exact h.tickets hacc
      · exact (h.tickets hacc).logIn cur user caps
  · exact (dispatchNr_sameRights m env cur a1 a2 a3 a4 h hlogin).2

theorem Runs.live {p : Process} (h : Runs p) : Live p := ⟨h.1, h.2.2⟩

theorem or_eq_left {r s : Rights} (h : Within r s) : s ||| r = s := by
  refine BitVec.eq_of_getLsbD_eq fun i _ => ?_
  have hi := (within_iff r s).mp h i
  rw [BitVec.getLsbD_or]
  cases hr : r.getLsbD i
  · exact Bool.or_false _
  · rw [hi hr]
    rfl

theorem noElevation_login {s t : System} {cur : Nat} {env : Env} {a1 a2 a3 a4 : U64} (h : Sound s.kernel)
    (hpw : PasswordVerified s (.syscall cur env 21 a1 a2 a3 a4))
    (ht : t.kernel = (sysSessionLogin env cur a1 a2 a3 s.kernel).state) :
    NoElevation s (.syscall cur env 21 a1 a2 a3 a4) t := by
  intro i hruns hadmin
  rw [ht]
  rcases sysSessionLogin_cases env cur a1 a2 a3 s.kernel with hk | ⟨name, auth, user, caps, hname, hacc, hk⟩
  · rw [hk]
    exact Or.inl rfl
  rcases hk with ⟨-, hk⟩ | ⟨h2, hk⟩
  · rw [hk]
    exact Or.inl rfl
  rw [hk]
  rcases proc_setProc
    { s.kernel with synallagma := consentAll s.kernel.synallagma, auth := loginSetUser auth (some user) }
    cur (fun p => { p with rights := p.rights ||| caps, login := some caps }) i with hproc | ⟨rfl, hproc⟩
  · exact Or.inl (congrArg Process.rights hproc)
  have hrights := congrArg Process.rights hproc
  rcases loginAccount_cases hacc with ⟨h3, -, u, hu, hactive, huname, hucaps⟩ |
    ⟨-, ticket, l, r, hl, hr, hused, htname, htok, htcaps⟩
  · subst h3
    rcases hpw rfl h2 rfl hadmin name hname _ hacc with hwithin | hverified
    · left
      refine hrights.trans ?_
      exact or_eq_left hwithin
    · right
      exact ⟨env, a1, a2, 0, a4, name, caps, rfl, hname, hrights, Or.inr ⟨u, hu, hactive, huname, hucaps, hverified⟩⟩
  · right
    have hissuer := h.2 ticket (by rw [hl]; exact List.mem_append_right _ List.mem_cons_self)
    exact ⟨env, a1, a2, a3, a4, name, caps, rfl, hname, hrights,
      Or.inl ⟨ticket, l, r, hl, hr, hused, htname, htok, htcaps, hissuer⟩⟩

theorem noElevation_syscall {m : Machine} {s : System} {cur : Nat} {env : Env} {nr a1 a2 a3 a4 : U64}
    (h : Sound s.kernel) (hpw : PasswordVerified s (.syscall cur env nr a1 a2 a3 a4)) :
    NoElevation s (.syscall cur env nr a1 a2 a3 a4) (apply m s (.syscall cur env nr a1 a2 a3 a4)) := by
  rcases syscallDispatch_cases m env cur nr a1 a2 a3 a4 s.kernel with hs | hs
  · intro i _ _
    exact Or.inl (congrArg (fun k => (Kernel.proc k i).rights) hs)
  by_cases hlogin : nr = 21
  · subst hlogin
    exact noElevation_login h hpw hs
  · intro i hruns _
    have hsame := (dispatchNr_sameRights m env cur a1 a2 a3 a4 h hlogin).1 i hruns.live
    exact Or.inl ((congrArg (fun k => (Kernel.proc k i).rights) hs).trans hsame)

/-- What `init` changes in the process that it just started, it changes in no other. -/
theorem KeepsRights.updateNew {k₀ k : Kernel} (h : KeepsRights k₀ k) (hbelow : PidsBelow k₀) (f : Process → Process) :
    KeepsRights k₀ { k with procs := updatePid k₀.nextPid f k.procs } := by
  intro i hlive
  rcases proc_updatePid k k₀.nextPid f i with hi | ⟨hpid, -⟩
  · rw [hi]
    exact h i hlive
  · have hlt := hbelow.proc hlive
    rw [h.pid hlive] at hpid
    omega

theorem keepsRights_start {m : Machine} {name : CStr} {load : Load} {k k' : Kernel} {pid : Nat} (h : Sound k)
    (hstart : execEmbeddedArgs m initSlot name load k = (k', some pid)) (f : Process → Process)
    (hf : ∀ p, (f p).pid = p.pid) :
    KeepsRights k { k' with procs := updatePid pid f k'.procs } ∧
      Sound { k' with procs := updatePid pid f k'.procs } := by
  have hkept : Kept k k' := by
    have := Kept.embedded ⟨Keeps.refl k, h⟩ m initSlot name load
    rwa [hstart] at this
  have hpid : pid = k.nextPid := embedded_pid m initSlot name load k pid (by rw [hstart]; rfl)
  subst hpid
  exact ⟨hkept.1.updateNew h.1 f, hkept.2.1.updatePid _ hf, hkept.2.2⟩

theorem keepsRights_init (m : Machine) (load : Load) {s : System} (h : Sound s.kernel) :
    KeepsRights s.kernel (initStep m load s).kernel ∧ Sound (initStep m load s).kernel := by
  have hsame : KeepsRights s.kernel s.kernel ∧ Sound s.kernel := ⟨Keeps.refl s.kernel, h⟩
  have hkept : ∀ name, Kept s.kernel (execEmbeddedArgs m initSlot name load s.kernel).1 := fun name =>
    Kept.embedded hsame m initSlot name load
  unfold initStep
  split
  · split
    · exact hsame
    rename_i name kormi _
    split
    · have hk := hkept name
      cases hstart : execEmbeddedArgs m initSlot name load s.kernel with
      | mk k pid =>
        rw [hstart] at hk
        cases pid with
        | none => exact hk
        | some pid =>
          change KeepsRights s.kernel { k with procs := updatePid pid _ (updatePid pid _ k.procs) } ∧ Sound _
          unfold startSession capGrant
          dsimp only
          rw [updatePid_updatePid (g := fun p => { p with rights := p.rights ||| kormiRights }) fun _ => ⟨rfl, rfl⟩]
          exact keepsRights_start h hstart _ fun _ => rfl
    · exact hsame
  · have hk := hkept spoudazo
    cases hstart : execEmbeddedArgs m initSlot spoudazo load s.kernel with
    | mk k pid =>
      rw [hstart] at hk
      cases pid with
      | none => exact hk
      | some pid => exact keepsRights_start h hstart _ fun _ => rfl
  · split
    · exact ⟨Keeps.gc _, h.1.gc, h.2⟩
    · exact hsame
  · exact hsame

/-! ## Runs -/

theorem sound_boot (nodes : Nodes) (synallagma : Synallagma) : Sound (boot nodes synallagma).kernel := by
  constructor
  · intro p hp
    rcases List.mem_cons.mp hp with rfl | hp
    · exact Nat.lt_succ_self 1
    · rw [List.eq_of_mem_replicate hp]
      exact Nat.zero_lt_succ 1
  · rintro t ⟨⟩

theorem Sound.step {m : Machine} {s t : System} {o : Op} (h : Sound s.kernel) (hstep : Step m s o t) :
    Sound t.kernel := by
  obtain ⟨-, rfl⟩ := hstep
  cases o with
  | syscall cur env nr a1 a2 a3 a4 => exact h.syscall m cur env nr a1 a2 a3 a4
  | init load => exact (keepsRights_init m load h).2
  | gc => exact ⟨h.1.gc, h.2⟩

theorem noElevation_step {m : Machine} {s t : System} {o : Op} (h : Sound s.kernel)
    (hstep : Guarded PasswordVerified (Step m) s o t) : NoElevation s o t := by
  obtain ⟨hpw, -, rfl⟩ := hstep
  cases o with
  | syscall cur env nr a1 a2 a3 a4 => exact noElevation_syscall h hpw
  | init load => exact fun i hruns _ => Or.inl ((keepsRights_init m load h).1.rights hruns.live)
  | gc => exact fun i hruns _ => Or.inl (KeepsRights.rights (Keeps.gc s.kernel) hruns.live)

/-- Where a login without a ticket follows a verified password, nobody's rights are raised without credentials. -/
theorem no_elevation (m : Machine) (nodes : Nodes) (synallagma : Synallagma) {ops : List Op} {o : Op} {s t : System}
    (h : Run (Guarded PasswordVerified (Step m)) (boot nodes synallagma) ops s)
    (hstep : Guarded PasswordVerified (Step m) s o t) : NoElevation s o t := by
  have hinv : ∀ (s : System) (o : Op) (t : System), Sound s.kernel → Step m s o t → Sound t.kernel :=
    fun _ _ _ hs hstep => hs.step hstep
  exact noElevation_step (Run.invariant hinv h.unguard (sound_boot nodes synallagma)) hstep

theorem no_elevation_ticket :
    NoElevation (firstLogin.dropLast.foldl (apply smallMachine) (boot [] synallagmaInit))
      (.syscall 2 (callEnv [(nameAddr, bob)] 0) 21 nameAddr 1 7 0)
      (firstLogin.foldl (apply smallMachine) (boot [] synallagmaInit)) :=
  no_elevation smallMachine [] synallagmaInit (Run.of_admits_guarded (by decide +kernel))
    ⟨by decide +kernel, by decide +kernel, rfl⟩

def eveEnv : Env := callEnv [(nameAddr, ascii "eve"), (nameAddr + 0x100, ascii "pass")] 0

/-- 'spoudazo' creates the first account of the kernel's store, which nobody has used. -/
def firstAccount : List Op :=
  [.init (.loaded [region]), .init (.loaded [region]), .init .rejected, .init (.loaded [region]),
    .syscall 2 eveEnv 18 nameAddr (nameAddr + 0x100) 0 0]

/-- It logs in as that account without a password, and holds `CAP_ALL`. -/
theorem no_elevation_unverified :
    ¬ ∀ (m : Machine) (nodes : Nodes) (synallagma : Synallagma) (ops : List Op) (o : Op) (s t : System),
      Run (Step m) (boot nodes synallagma) ops s → Step m s o t → NoElevation s o t := by
  intro h
  have hlogin := h smallMachine [] synallagmaInit firstAccount (.syscall 2 eveEnv 21 nameAddr 1 0 0) _ _
    (Run.of_admits (by decide +kernel)) ⟨by decide +kernel, rfl⟩ 2 (by decide +kernel) (by decide +kernel)
  have htickets : (firstAccount.foldl (apply smallMachine) (boot [] synallagmaInit)).kernel.auth.tickets = [] := by
    decide +kernel
  have hverified : (firstAccount.foldl (apply smallMachine) (boot [] synallagmaInit)).kernel.verified = [] := by
    decide +kernel
  rcases hlogin with hsame | ⟨env, a1, a2, a3, a4, name, caps, -, -, -, ⟨t, l, r, hl, -⟩ | ⟨u, -, -, -, -, hmem⟩⟩
  · exact absurd hsame (by decide +kernel)
  · rw [htickets] at hl
    exact absurd hl.symm (by simp)
  · rw [hverified] at hmem
    cases hmem

end Siathos.Session
