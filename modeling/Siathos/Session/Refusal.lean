import Siathos.Nomos.Tickets
import Siathos.Session.Credentials

/-!
# Refused logins

A `SYS_SESSION_LOGIN` that returns 0 should leave the session as it was. It does, unless a user who
refuses the contracts has a ticket: the ticket is spent first.
-/

open Lib Lib.Call Siathos.Nomos Siathos.Fs Siathos.Ipc Siathos.Syscall

namespace Siathos.Session

def sessionLogin : U64 := 21

/-- The current user, as `login_result_user` shows him. -/
def userView (a : Auth) : Option (CStr × Rights × Bool) :=
  (loginResultUser a).map fun u => (u.name, u.caps, u.isAdmin)

structure SameSession (cur : Nat) (k k' : Kernel) : Prop where
  user : userView k'.auth = userView k.auth
  rights : (k'.proc cur).rights = (k.proc cur).rights
  consent : k'.synallagma = k.synallagma
  tickets : consumable k'.auth = consumable k.auth

theorem SameSession.refl (cur : Nat) (k : Kernel) : SameSession cur k k := ⟨rfl, rfl, rfl, rfl⟩

/-- A login that returns 0 changes nothing. -/
def RefusedKeeps (m : Machine) (env : Env) (cur : Nat) (a1 a2 a3 a4 : U64) (k : Kernel) : Prop :=
  Outcome.result (syscallDispatch m env cur sessionLogin a1 a2 a3 a4 k) = 0 →
    SameSession cur k (syscallDispatch m env cur sessionLogin a1 a2 a3 a4 k).state

/-- The user refuses the contracts, with the token of a ticket that he could have used. -/
def SpendsRefused (env : Env) (cur : Nat) (a1 a2 a3 : U64) (k : Kernel) : Prop :=
  May (k.proc cur) capSyscall ∧ a2 = 0 ∧ a3 ≠ 0 ∧
    ∃ name, strArg env k cur a1 authNameMax = some name ∧ (authTicketMatch k.auth name a3).isSome

/-! ## What the call returns -/

theorem sysSessionLogin_result (env : Env) (cur : Nat) (a1 a2 a3 : U64) (k : Kernel) :
    Outcome.result (sysSessionLogin env cur a1 a2 a3 k) =
      match (strArg env k cur a1 authNameMax).map (loginAccount · a3 k.auth) with
      | none => err
      | some none => 0
      | some (some _) => if a2 = 0 then 0 else 1 := by
  unfold sysSessionLogin Outcome.result
  cases hname : strArg env k cur a1 authNameMax with
  | none => rw [(userStr_bind_none hname _).2, Option.map_none]
  | some name =>
    rw [(userStr_bind_some hname _).2.1, read_bind, Option.map_some]
    cases hacc : loginAccount name a3 k.auth with
    | none => rfl
    | some r =>
      obtain ⟨auth, user, caps⟩ := r
      simp only [change_bind]
      by_cases h2 : a2 = 0
      · rw [demand_bind_false (decide_eq_false (not_not_intro h2)), if_pos h2]
      · rw [demand_bind_true (decide_eq_true h2), if_neg h2]
        rfl

theorem consumable_spent {name : CStr} {tok : U64} {a b : Auth} {t : AuthTicket}
    (h : authTicketMatch a name tok = some t) (hb : b.tickets = useTicket name tok a.tickets) :
    (consumable b).length + 1 = (consumable a).length := by
  obtain ⟨l, r, hl, hr, hunused, -⟩ := useTicket_split h
  unfold consumable
  rw [hb, hr, hl]
  simp [hunused]
  omega

theorem loginAccount_ticket {name : CStr} {a3 : U64} {a : Auth} (h3 : a3 ≠ 0) :
    loginAccount name a3 a =
      (authTicketConsume a name a3).map fun a => (a, .synth, a.synthUser.caps) := by
  unfold loginAccount
  rw [if_pos h3]

theorem loginAccount_stored {name : CStr} {a auth : Auth} {user : UserRef} {caps : Rights}
    (h : loginAccount name 0 a = some (auth, user, caps)) : auth = a := by
  unfold loginAccount at h
  rw [if_neg (not_not_intro rfl), Option.bind_eq_some_iff] at h
  obtain ⟨i, -, h⟩ := h
  obtain ⟨u, -, h⟩ := Option.map_eq_some_iff.mp h
  exact (congrArg Prod.fst h).symm

/-- A refused login keeps the session exactly when it spends no ticket. -/
theorem refused_keeps_iff (m : Machine) (env : Env) (cur : Nat) (a1 a2 a3 a4 : U64) (k : Kernel) :
    RefusedKeeps m env cur a1 a2 a3 a4 k ↔ ¬ SpendsRefused env cur a1 a2 a3 k := by
  unfold RefusedKeeps SpendsRefused syscallDispatch
  by_cases hmay : May (k.proc cur) capSyscall
  case neg =>
    rw [syscallCap_bind_not hmay]
    exact iff_of_true (fun _ => SameSession.refl cur k) fun h => hmay h.1
  rw [syscallCap_bind_may hmay]
  change (Outcome.result (sysSessionLogin env cur a1 a2 a3 k) = 0 →
    SameSession cur k (sysSessionLogin env cur a1 a2 a3 k).state) ↔ _
  rw [sysSessionLogin_result, sysSessionLogin_state]
  cases hname : strArg env k cur a1 authNameMax with
  | none =>
    refine iff_of_true (fun _ => SameSession.refl cur k) ?_
    rintro ⟨-, -, -, name, hsome, -⟩
    simp at hsome
  | some name =>
    simp only [Option.map_some, Option.bind_some, Option.some.injEq, exists_eq_left']
    cases hacc : loginAccount name a3 k.auth with
    | none =>
      -- no account: nothing is done, and there is no ticket either
      refine iff_of_true (fun _ => SameSession.refl cur k) ?_
      rintro ⟨-, -, h3, hticket⟩
      rw [loginAccount_ticket h3, Option.map_eq_none_iff, authTicketConsume,
        Option.map_eq_none_iff] at hacc
      simp [hacc] at hticket
    | some r =>
      obtain ⟨auth, user, caps⟩ := r
      by_cases h2 : a2 = 0
      case neg =>
        simp only [if_neg h2]
        exact iff_of_true (fun h => absurd h (by decide)) fun h => h2 h.2.1
      simp only [if_pos h2]
      by_cases h3 : a3 = 0
      · subst h3
        rw [loginAccount_stored hacc]
        exact iff_of_true (fun _ => SameSession.refl cur k) fun h => h.2.2.1 rfl
      · rw [loginAccount_ticket h3] at hacc
        obtain ⟨b, hb, hr⟩ := Option.map_eq_some_iff.mp hacc
        have hauth : b = auth := congrArg Prod.fst hr
        subst hauth
        obtain ⟨t, ht, hspent⟩ := Option.map_eq_some_iff.mp hb
        have hmatch : (authTicketMatch k.auth name a3).isSome := by rw [ht]; rfl
        refine iff_of_false (fun hsame => ?_) (not_not_intro ⟨hmay, h2, h3, hmatch⟩)
        have hless := consumable_spent ht (b := b) (by rw [← hspent])
        have hsame' : consumable b = consumable k.auth := (hsame trivial).tickets
        rw [hsame'] at hless
        omega

/-- 'authd' and 'spoudazo' start and 'bob' logs in with a ticket. Then 'authd' issues one for
'eve', with every right. -/
def secondTicket : List Op :=
  firstLogin ++ [.syscall 1 (callEnv [(nameAddr, ascii "eve")] 9) 36 nameAddr capAll 0 0]

/-- 'eve' refuses the contracts, and the session of 'bob' is hers. -/
theorem refused_login_takes_session :
    ¬ ∀ (m : Machine) (nodes : Nodes) (synallagma : Synallagma) (ops : List Op) (s : System),
      Run (Step m) (boot nodes synallagma) ops s →
        ∀ (env : Env) (cur : Nat) (a1 a2 a3 a4 : U64), Runs (s.kernel.proc cur) →
          RefusedKeeps m env cur a1 a2 a3 a4 s.kernel := by
  intro h
  have hrefused := h smallMachine [] synallagmaInit secondTicket _
    (Run.of_admits (by decide +kernel)) (callEnv [(nameAddr, ascii "eve")] 0) 2 nameAddr 0 9 0
    (by decide +kernel) (by decide +kernel)
  exact absurd hrefused.user (by decide +kernel)

end Siathos.Session
