import Siathos.Syscall.Rules

/-!
# The interrupt flag in system calls (`auth.c`, `syscall.c`)

Each call with what it does to the interrupt flag. `auth_hash_password` turns interrupts off and
then on. The calls that leave the processor to another process do so with `sched_yield`,
`proc_waitpid` and `proc_exit`.
-/

open Lib Lib.Call Siathos.Nomos Siathos.Syscall

namespace Siathos.Gate

/-- What a call does that changes the interrupt flag, or gives the processor away. -/
inductive IrqOp
  /-- `disable_interrupts`. -/
  | disable
  /-- `enable_interrupts`. -/
  | enable
  /-- The end of `sched_switch`: `if(if_was) enable_interrupts();`. -/
  | restore (ifWas : Bool)
  /-- `sched_yield`. -/
  | yield
  /-- The loop of `proc_waitpid`, which calls `sched_block`. -/
  | wait (pid : Nat)
  /-- `proc_exit`. -/
  | exit
  deriving DecidableEq, Repr

/-- A system call that leaves the trace of its interrupt flag. -/
abbrev IrqM := Call Kernel IrqOp U64

/-! ## auth.c -/

/-- `auth_hash_password`. -/
def authHashPasswordIrqs : List IrqOp := [.disable, .enable]

/-- `auth_create_user`. -/
def authCreateUserIrqs (a : Auth) (name : CStr) : List IrqOp :=
  if a.accounts.length ≥ authUserMax then []
  else if a.accounts.any (fun u => u.name = name) then []
  else authHashPasswordIrqs

/-- `auth_verify`. -/
def authVerifyIrqs (a : Auth) (name : CStr) : List IrqOp :=
  match (authFind a name).bind (a.accounts[·]?) with
  | none => []
  | some u => if u.active then authHashPasswordIrqs else []

section

variable (m : Machine)

/-- `auth_change_password`. -/
def authChangePasswordIrqs (a : Auth) (name oldpw : CStr) : List IrqOp :=
  match authFind a name with
  | none => []
  | some _ =>
    authVerifyIrqs a name ++ if authVerify m.pbkdf2 a name oldpw then authHashPasswordIrqs else []

/-- `auth_change_password_admin`. -/
def authChangePasswordAdminIrqs (a : Auth) (name : CStr) : List IrqOp :=
  match authFind a name with
  | none => []
  | some _ => authHashPasswordIrqs

/-! ## syscall.c -/

variable (env : Env) (cur : Nat)

def irqExit (a1 : U64) : IrqM U64 := do
  Call.touch [.exit]
  silent (sysExit cur a1)

/-- A process of ring 3 goes on. -/
def irqYield : IrqM U64 := do
  let k ← Call.read
  Call.when ((k.proc cur).isUser = false) (Call.touch [.yield])
  silent (sysYield cur)

def irqAuthCreate (a1 a2 : U64) : IrqM U64 := do
  let k ← Call.read
  Call.demand (k.auth.accounts.length = 0) 0
  let name ← silent (userStr env cur a1 authNameMax)
  let pass ← silent (userStr env cur a2 authNameMax)
  Call.demand (name.length ≥ 3 && pass.length ≥ 4) 0
  let k ← Call.read
  Call.touch (authCreateUserIrqs k.auth name)
  silent (authResult (authCreateUser m.pbkdf2 · name pass capAll true env.salt))

def irqAuthVerify (a1 a2 : U64) : IrqM U64 := do
  let name ← silent (userStr env cur a1 authNameMax)
  let pass ← silent (userStr env cur a2 authNameMax)
  let k ← Call.read
  Call.touch (authVerifyIrqs k.auth name)
  if authVerify m.pbkdf2 k.auth name pass then do
    Call.change fun k => { k with verified := ((k.proc cur).session, name) :: k.verified }
    pure 1
  else pure 0

/-- `reboot` and `poweroff` stop the machine with interrupts off. -/
def irqConsole (a1 : U64) : IrqM U64 := do
  Call.when (a1 = 1 ∨ a1 = 2) (Call.touch [.disable])
  pure 0

def irqWaitpid (a1 : U64) : IrqM U64 := do
  Call.demand (a1 ≠ 0) err
  let k ← Call.read
  match procGet k (u32 a1) with
  | none => Call.stop err
  | some kid => do
    Call.demand (kid.parent = (k.proc cur).pid) err
    Call.touch [.wait (u32 a1)]
    silent (sysWaitpid cur a1)

def irqAuthChangepw (a1 a2 a3 : U64) : IrqM U64 := do
  let name ← silent (userStr env cur a1 authNameMax)
  let oldp ← silent (userStr env cur a2 authNameMax)
  let newp ← silent (userStr env cur a3 authNameMax)
  Call.demand (newp.length ≥ 4) 0
  let k ← Call.read
  match authFind k.auth name with
  | none => pure 0
  | some i =>
    if k.auth.currentUser = some (.account i) then do
      Call.touch (authChangePasswordIrqs m k.auth name oldp)
      silent (authResult (authChangePassword m.pbkdf2 · name oldp newp env.salt))
    else do
      Call.demand ((k.proc cur).rights = capAll || (k.proc cur).rights &&& capUserAdmin ≠ 0) 0
      Call.touch (authChangePasswordAdminIrqs k.auth name)
      silent (authResult (authChangePasswordAdmin m.pbkdf2 · name newp env.salt))

def irqAuthCreateUser (a1 a2 : U64) : IrqM U64 := do
  silent (syscallCap cur capUserAdmin)
  let name ← silent (userStr env cur a1 authNameMax)
  let pass ← silent (userStr env cur a2 authNameMax)
  Call.demand (name.length ≥ 3 && pass.length ≥ 4) 0
  let k ← Call.read
  Call.demand (authFind k.auth name).isNone 0
  Call.touch (authCreateUserIrqs k.auth name)
  silent (authResult (authCreateUser m.pbkdf2 · name pass userRights false env.salt))

def irqAuthHash (a1 a2 a3 : U64) : IrqM U64 := do
  silent (syscallCap cur capUserAdmin)
  let _pw ← silent (userStr env cur a1 64)
  let _salt ← silent (userStr env cur a2 33)
  Call.demand (a3 ≠ 0) err
  silent (checkPtr cur a3 65)
  Call.touch authHashPasswordIrqs
  pure 0

/-- All other calls leave the flag alone, and the processor too. -/
def irqDispatchNr (nr a1 a2 a3 a4 : U64) : IrqM U64 :=
  match nr.toNat with
  | 0 => irqExit cur a1
  | 6 => irqYield cur
  | 18 => irqAuthCreate m env cur a1 a2
  | 19 => irqAuthVerify m env cur a1 a2
  | 22 => irqConsole a1
  | 24 => irqWaitpid cur a1
  | 29 => irqAuthChangepw m env cur a1 a2 a3
  | 30 => irqAuthCreateUser m env cur a1 a2
  | 37 => irqAuthHash env cur a1 a2 a3
  | _ => silent (dispatchNr m env cur nr a1 a2 a3 a4)

/-- `syscall_dispatch`, with its interrupt flag. -/
def irqDispatch (nr a1 a2 a3 a4 : U64) : IrqM U64 := do
  silent (syscallCap cur capSyscall)
  irqDispatchNr m env cur nr a1 a2 a3 a4

end

/-! ## The calls themselves -/

section

variable {α β : Type} {τ : Type}

theorem silent_read : (silent (Call.read : Call Kernel τ U64 Kernel) : IrqM Kernel) = Call.read := rfl

theorem silent_pure (a : α) : (silent (pure a : Call Kernel τ U64 α) : IrqM α) = pure a := rfl

theorem silent_demand (c : Bool) (e : U64) :
    (silent (Call.demand c e : Call Kernel τ U64 Unit) : IrqM Unit) = Call.demand c e := by
  cases c <;> rfl

theorem silent_touch (t : List τ) :
    (silent (Call.touch t : Call Kernel τ U64 Unit) : IrqM Unit) = pure () := rfl

theorem silent_when_touch (c : Prop) [Decidable c] (t : List IrqOp) :
    (silent (Call.when c (Call.touch t : IrqM Unit)) : IrqM Unit) = pure () := by
  unfold Call.when
  split <;> rfl

theorem silent_change (f : Kernel → Kernel) :
    (silent (Call.change f : Call Kernel τ U64 Unit) : IrqM Unit) = Call.change f := rfl

theorem pure_bind (a : α) (f : α → IrqM β) : (pure a >>= f) = f a := rfl

theorem read_bind_const (c : IrqM α) : (Call.read >>= fun _ => c) = c := rfl

theorem bind_unit (c : IrqM Unit) : (c >>= fun _ => pure ()) = c := by
  funext s
  cases h : (c s).val with
  | error e => rw [bind_of_error h, ← h]
  | ok a =>
    rw [bind_of_ok h]
    simp only [pure_apply, List.append_nil]
    rw [← h]

theorem silent_ite (c : Prop) [Decidable c] (x y : Call Kernel τ U64 α) :
    (silent (if c then x else y) : IrqM α) = if c then silent x else silent y := by
  split <;> rfl

end

section

variable (m : Machine) (env : Env) (cur : Nat)

theorem irqExit_silent (a1 : U64) : (silent (irqExit cur a1) : IrqM U64) = silent (sysExit cur a1) := by
  unfold irqExit
  simp only [silent_bind, silent_touch, pure_bind, silent_silent]

theorem irqYield_silent : (silent (irqYield cur) : IrqM U64) = silent (sysYield cur) := by
  unfold irqYield
  simp only [silent_bind, silent_read, silent_when_touch, pure_bind, silent_silent, read_bind_const]

theorem irqAuthCreate_silent (a1 a2 : U64) :
    (silent (irqAuthCreate m env cur a1 a2) : IrqM U64) = silent (sysAuthCreate m env cur a1 a2) := by
  unfold irqAuthCreate sysAuthCreate
  simp only [silent_bind, silent_read, silent_demand, silent_touch, pure_bind, silent_silent, read_bind_const]

theorem irqAuthVerify_silent (a1 a2 : U64) :
    (silent (irqAuthVerify m env cur a1 a2) : IrqM U64) = silent (sysAuthVerify m env cur a1 a2) := by
  unfold irqAuthVerify sysAuthVerify
  simp only [silent_bind, silent_read, silent_touch, pure_bind, silent_silent, silent_ite, silent_change,
    silent_pure]

theorem irqConsole_silent (a1 : U64) : (silent (irqConsole a1) : IrqM U64) = pure 0 := by
  unfold irqConsole
  simp only [silent_bind, silent_when_touch, pure_bind, silent_pure]

theorem irqWaitpid_silent (a1 : U64) : (silent (irqWaitpid cur a1) : IrqM U64) = silent (sysWaitpid cur a1) := by
  funext k
  unfold irqWaitpid silent
  by_cases h1 : a1 = 0
  · subst h1
    rfl
  rw [demand_bind_true (decide_eq_true h1), read_bind]
  cases hkid : procGet k (u32 a1) with
  | none =>
    unfold sysWaitpid
    rw [demand_bind_true (decide_eq_true h1), read_bind]
    simp only [hkid]
    rfl
  | some kid =>
    simp only
    by_cases hparent : kid.parent = (k.proc cur).pid
    · rw [demand_bind_true (decide_eq_true hparent)]
      rfl
    · rw [demand_bind_false (decide_eq_false hparent)]
      unfold sysWaitpid
      rw [demand_bind_true (decide_eq_true h1), read_bind]
      simp only [hkid]
      rw [demand_bind_false (decide_eq_false hparent)]

theorem irqAuthChangepw_silent (a1 a2 a3 : U64) :
    (silent (irqAuthChangepw m env cur a1 a2 a3) : IrqM U64) = silent (sysAuthChangepw m env cur a1 a2 a3) := by
  unfold irqAuthChangepw sysAuthChangepw
  simp only [silent_bind, silent_read, silent_demand, silent_silent]
  congr! 9 with name oldp newp
  funext k
  cases authFind k.auth name with
  | none => rfl
  | some i => simp only [silent_ite, silent_bind, silent_touch, silent_demand, pure_bind, silent_silent]

theorem irqAuthCreateUser_silent (a1 a2 : U64) :
    (silent (irqAuthCreateUser m env cur a1 a2) : IrqM U64) = silent (sysAuthCreateUser m env cur a1 a2) := by
  unfold irqAuthCreateUser sysAuthCreateUser
  simp only [silent_bind, silent_read, silent_demand, silent_touch, pure_bind, silent_silent]

theorem irqAuthHash_silent (a1 a2 a3 : U64) :
    (silent (irqAuthHash env cur a1 a2 a3) : IrqM U64) = silent (sysAuthHash env cur a1 a2 a3) := by
  unfold irqAuthHash sysAuthHash copyOut
  simp only [silent_bind, silent_demand, silent_touch, pure_bind, silent_silent, silent_pure, bind_unit]
  rfl

/-- Apart from the trace, these are the calls of `syscall_dispatch`. -/
theorem irqDispatch_silent (nr a1 a2 a3 a4 : U64) :
    (silent (irqDispatch m env cur nr a1 a2 a3 a4) : IrqM U64) =
      silent (syscallDispatch m env cur nr a1 a2 a3 a4) := by
  unfold irqDispatch syscallDispatch
  simp only [silent_bind, silent_silent]
  congr
  funext _
  unfold irqDispatchNr
  split
  · next hnr => simp only [dispatchNr, hnr, irqExit_silent]
  · next hnr => simp only [dispatchNr, hnr, irqYield_silent]
  · next hnr => simp only [dispatchNr, hnr, irqAuthCreate_silent]
  · next hnr => simp only [dispatchNr, hnr, irqAuthVerify_silent]
  · next hnr => simp only [dispatchNr, hnr, irqConsole_silent, silent_pure]
  · next hnr => simp only [dispatchNr, hnr, irqWaitpid_silent]
  · next hnr => simp only [dispatchNr, hnr, irqAuthChangepw_silent]
  · next hnr => simp only [dispatchNr, hnr, irqAuthCreateUser_silent]
  · next hnr => simp only [dispatchNr, hnr, irqAuthHash_silent]
  · rw [silent_silent]

end

/-! ## Which calls turn interrupts on -/

/-- Nothing in the list turns interrupts on. -/
def Quiet (l : List IrqOp) : Prop := .enable ∉ l ∧ .restore true ∉ l

instance (l : List IrqOp) : Decidable (Quiet l) := inferInstanceAs (Decidable (_ ∧ _))

/-- The arguments of the call `nr`, and what it finds, lead it to `auth_hash_password`. -/
def HashArgs (env : Env) (cur : Nat) (nr : Nat) (a1 a2 a3 : U64) (k : Kernel) : Prop :=
  match nr with
  | 18 =>
    k.auth.accounts.length = 0 ∧
      ∃ name ∈ strArg env k cur a1 authNameMax, ∃ pass ∈ strArg env k cur a2 authNameMax,
        3 ≤ name.length ∧ 4 ≤ pass.length
  | 19 =>
    ∃ name ∈ strArg env k cur a1 authNameMax, (strArg env k cur a2 authNameMax).isSome ∧
      (authFind k.auth name).isSome
  | 29 =>
    ∃ name ∈ strArg env k cur a1 authNameMax, (strArg env k cur a2 authNameMax).isSome ∧
      ∃ newp ∈ strArg env k cur a3 authNameMax, 4 ≤ newp.length ∧
        ∃ i ∈ authFind k.auth name,
          k.auth.currentUser = some (.account i) ∨ May (k.proc cur) capUserAdmin
  | 30 =>
    May (k.proc cur) capUserAdmin ∧
      ∃ name ∈ strArg env k cur a1 authNameMax, ∃ pass ∈ strArg env k cur a2 authNameMax,
        (3 ≤ name.length ∧ 4 ≤ pass.length) ∧ k.auth.accounts.length < authUserMax ∧
          ∀ u ∈ k.auth.accounts, u.name ≠ name
  | 37 =>
    May (k.proc cur) capUserAdmin ∧ (strArg env k cur a1 64).isSome ∧ (strArg env k cur a2 33).isSome ∧
      a3 ≠ 0 ∧ userPtrOk (k.proc cur) a3 65 = true
  | _ => False

def ReachesHash (env : Env) (cur : Nat) (nr a1 a2 a3 : U64) (k : Kernel) : Prop :=
  May (k.proc cur) capSyscall ∧ HashArgs env cur nr.toNat a1 a2 a3 k

/-- The call starts with `auth_hash_password` where the condition holds, and else is quiet. -/
def HashesIff (c : Prop) (t : List IrqOp) : Prop :=
  (c → ∃ rest, t = authHashPasswordIrqs ++ rest) ∧ (¬ c → Quiet t)

section

variable {α : Type} {c : Prop} {t : List IrqOp}

theorem HashesIff.not (hc : ¬ c) (ht : Quiet t) : HashesIff c t := ⟨fun h => absurd h hc, fun _ => ht⟩

theorem HashesIff.none (hc : ¬ c) : HashesIff c [] := HashesIff.not hc (by decide)

theorem HashesIff.hash (hc : c) (rest : List IrqOp) : HashesIff c (authHashPasswordIrqs ++ rest) :=
  ⟨fun _ => ⟨rest, rfl⟩, fun h => absurd hc h⟩

variable (env : Env) (cur : Nat) (k : Kernel)

theorem demand_trace (c : Bool) (e : U64) (f : Unit → IrqM α) :
    ((Call.demand c e >>= f) k).trace = if c then (f () k).trace else [] := by
  cases c with
  | true => rw [demand_bind_true rfl, if_pos rfl]
  | false => rw [demand_bind_false rfl, if_neg Bool.false_ne_true]

theorem syscallCap_trace (need : Rights) (f : Unit → IrqM α) :
    ((silent (syscallCap cur need) >>= f) k).trace =
      if May (k.proc cur) need then (f () k).trace else [] := by
  have hrun := syscallCap_run cur need k
  split at hrun
  · next h => rw [silent_bind_ok (congrArg Outcome.val hrun), hrun, if_pos h]
  · next h => rw [silent_bind_error (congrArg Outcome.val hrun), if_neg h]

theorem checkPtr_trace (addr len : U64) (f : Unit → IrqM α) :
    ((silent (checkPtr cur addr len) >>= f) k).trace =
      if userPtrOk (k.proc cur) addr len = true then (f () k).trace else [] := by
  have hrun : checkPtr cur addr len k =
      ⟨k, [], if userPtrOk (k.proc cur) addr len = true then .ok () else .error err⟩ := by
    unfold checkPtr
    rw [read_bind]
    cases userPtrOk (k.proc cur) addr len <;> rfl
  split
  · next h =>
    rw [if_pos h] at hrun
    rw [silent_bind_ok (congrArg Outcome.val hrun), hrun]
  · next h =>
    rw [if_neg h] at hrun
    rw [silent_bind_error (congrArg Outcome.val hrun)]

theorem userStr_trace (src : U64) (n : Nat) (f : CStr → IrqM α) :
    ((silent (userStr env cur src n) >>= f) k).trace =
      (strArg env k cur src n).elim [] fun s => (f s k).trace := by
  cases h : strArg env k cur src n with
  | none => rw [silent_bind_error (userStr_run_none h).2, Option.elim_none]
  | some s => rw [silent_bind_ok (userStr_run_some h).2, (userStr_run_some h).1, Option.elim_some]

end

theorem authFind_some {a : Auth} {name : CStr} {i : Nat} (h : authFind a name = some i) :
    ∃ u, a.accounts[i]? = some u ∧ u.active = true ∧ u.name = name := by
  obtain ⟨hlt, hfound, -⟩ := List.findIdx?_eq_some_iff_getElem.mp h
  rw [Bool.and_eq_true, decide_eq_true_eq] at hfound
  exact ⟨a.accounts[i], List.getElem?_eq_getElem hlt, hfound⟩

theorem authVerifyIrqs_eq (a : Auth) (name : CStr) :
    authVerifyIrqs a name = if (authFind a name).isSome then authHashPasswordIrqs else [] := by
  unfold authVerifyIrqs
  cases h : authFind a name with
  | none => rfl
  | some i =>
    obtain ⟨u, hu, hactive, -⟩ := authFind_some h
    rw [Option.bind_some, hu]
    simp only [hactive, if_true, Option.isSome_some]

theorem authCreateUserIrqs_eq (a : Auth) (name : CStr) :
    authCreateUserIrqs a name =
      if a.accounts.length < authUserMax ∧ ∀ u ∈ a.accounts, u.name ≠ name then authHashPasswordIrqs
      else [] := by
  unfold authCreateUserIrqs
  by_cases hfull : a.accounts.length ≥ authUserMax
  · rw [if_pos hfull, if_neg fun h => absurd h.1 (Nat.not_lt.mpr hfull)]
  rw [if_neg hfull]
  by_cases htaken : a.accounts.any (fun u => u.name = name) = true
  · rw [if_pos htaken, if_neg]
    rintro ⟨-, hfree⟩
    obtain ⟨u, hu, hname⟩ := List.any_eq_true.mp htaken
    exact hfree u hu (of_decide_eq_true hname)
  · rw [if_neg htaken, if_pos]
    refine ⟨Nat.not_le.mp hfull, fun u hu hname => htaken ?_⟩
    exact List.any_eq_true.mpr ⟨u, hu, decide_eq_true hname⟩

section

variable (m : Machine) (env : Env) (cur : Nat) (k : Kernel)

theorem irqAuthCreate_hashes (a1 a2 : U64) :
    HashesIff (k.auth.accounts.length = 0 ∧
      ∃ name ∈ strArg env k cur a1 authNameMax, ∃ pass ∈ strArg env k cur a2 authNameMax,
        3 ≤ name.length ∧ 4 ≤ pass.length) (irqAuthCreate m env cur a1 a2 k).trace := by
  unfold irqAuthCreate
  rw [read_bind, demand_trace, userStr_trace]
  split
  case isFalse hacc => exact HashesIff.none fun h => hacc (decide_eq_true h.1)
  next hacc =>
  have hempty := of_decide_eq_true hacc
  cases hname : strArg env k cur a1 authNameMax with
  | none => exact HashesIff.none (by simp)
  | some name =>
    rw [Option.elim_some, userStr_trace]
    cases hpass : strArg env k cur a2 authNameMax with
    | none => exact HashesIff.none (by simp)
    | some pass =>
      rw [Option.elim_some, demand_trace]
      split
      case isFalse hlen =>
        apply HashesIff.none
        rintro ⟨-, name, ⟨⟩, pass, ⟨⟩, hlong⟩
        exact hlen (by simpa using hlong)
      next hlen =>
      rw [read_bind, touch_bind, authCreateUserIrqs_eq, if_pos]
      · apply HashesIff.hash
        simpa [hempty] using hlen
      · rw [List.length_eq_zero_iff] at hempty
        rw [hempty]
        exact ⟨by decide, by simp⟩

theorem irqAuthVerify_hashes (a1 a2 : U64) :
    HashesIff (∃ name ∈ strArg env k cur a1 authNameMax, (strArg env k cur a2 authNameMax).isSome ∧
      (authFind k.auth name).isSome) (irqAuthVerify m env cur a1 a2 k).trace := by
  unfold irqAuthVerify
  rw [userStr_trace]
  cases hname : strArg env k cur a1 authNameMax with
  | none => exact HashesIff.none (by simp)
  | some name =>
    rw [Option.elim_some, userStr_trace]
    cases hpass : strArg env k cur a2 authNameMax with
    | none => exact HashesIff.none (by simp)
    | some pass =>
      have hrest : ∀ (b : Bool) (f : Kernel → Kernel),
          ((if b then Call.change f >>= fun _ => pure 1 else pure 0 : IrqM U64) k).trace = [] := by
        intro b f
        cases b <;> rfl
      rw [Option.elim_some, read_bind, touch_bind, authVerifyIrqs_eq]
      dsimp only
      rw [hrest]
      split
      · next hfound => exact HashesIff.hash ⟨name, rfl, rfl, hfound⟩ []
      · next hfound =>
        apply HashesIff.none
        rintro ⟨name, ⟨⟩, -, hsome⟩
        exact hfound hsome

theorem irqAuthChangepw_hashes (a1 a2 a3 : U64) :
    HashesIff (∃ name ∈ strArg env k cur a1 authNameMax, (strArg env k cur a2 authNameMax).isSome ∧
      ∃ newp ∈ strArg env k cur a3 authNameMax, 4 ≤ newp.length ∧
        ∃ i ∈ authFind k.auth name,
          k.auth.currentUser = some (.account i) ∨ May (k.proc cur) capUserAdmin)
      (irqAuthChangepw m env cur a1 a2 a3 k).trace := by
  unfold irqAuthChangepw
  rw [userStr_trace]
  cases hname : strArg env k cur a1 authNameMax with
  | none => exact HashesIff.none (by simp)
  | some name =>
    rw [Option.elim_some, userStr_trace]
    cases hold : strArg env k cur a2 authNameMax with
    | none => exact HashesIff.none (by simp)
    | some oldp =>
      rw [Option.elim_some, userStr_trace]
      cases hnew : strArg env k cur a3 authNameMax with
      | none => exact HashesIff.none (by simp)
      | some newp =>
        rw [Option.elim_some, demand_trace]
        split
        case isFalse hlen =>
          apply HashesIff.none
          rintro ⟨name, ⟨⟩, -, newp, ⟨⟩, hlong, -⟩
          exact hlen (decide_eq_true hlong)
        next hlen =>
        have hlong := of_decide_eq_true hlen
        rw [read_bind]
        cases hfind : authFind k.auth name with
        | none =>
          apply HashesIff.none
          rintro ⟨name, ⟨⟩, -, newp, ⟨⟩, -, i, hi, -⟩
          rw [hfind] at hi
          exact absurd hi (by simp)
        | some i =>
          dsimp only
          split
          · next hself =>
            rw [touch_bind, authChangePasswordIrqs, hfind]
            dsimp only
            rw [authVerifyIrqs_eq, hfind, if_pos Option.isSome_some, List.append_assoc]
            exact HashesIff.hash ⟨name, rfl, rfl, newp, rfl, hlong, i, hfind, Or.inl hself⟩ _
          · next hother =>
            rw [demand_trace]
            have hmay : ((decide ((k.proc cur).rights = capAll) ||
                decide ((k.proc cur).rights &&& capUserAdmin ≠ 0)) = true) ↔ May (k.proc cur) capUserAdmin := by
              simp [May]
            split
            · next hadmin =>
              rw [touch_bind, authChangePasswordAdminIrqs, hfind]
              exact HashesIff.hash ⟨name, rfl, rfl, newp, rfl, hlong, i, hfind, Or.inr (hmay.mp hadmin)⟩ _
            · next hadmin =>
              apply HashesIff.none
              rintro ⟨name, ⟨⟩, -, newp, ⟨⟩, -, j, hj, hself | hok⟩
              · rw [hfind] at hj
                obtain rfl := Option.some.inj hj
                exact hother hself
              · exact hadmin (hmay.mpr hok)

theorem irqAuthCreateUser_hashes (a1 a2 : U64) :
    HashesIff (May (k.proc cur) capUserAdmin ∧
      ∃ name ∈ strArg env k cur a1 authNameMax, ∃ pass ∈ strArg env k cur a2 authNameMax,
        (3 ≤ name.length ∧ 4 ≤ pass.length) ∧ k.auth.accounts.length < authUserMax ∧
          ∀ u ∈ k.auth.accounts, u.name ≠ name) (irqAuthCreateUser m env cur a1 a2 k).trace := by
  unfold irqAuthCreateUser
  rw [syscallCap_trace]
  split
  case isFalse hmay => exact HashesIff.none fun h => hmay h.1
  next hmay =>
  rw [userStr_trace]
  cases hname : strArg env k cur a1 authNameMax with
  | none => exact HashesIff.none (by simp)
  | some name =>
    rw [Option.elim_some, userStr_trace]
    cases hpass : strArg env k cur a2 authNameMax with
    | none => exact HashesIff.none (by simp)
    | some pass =>
      rw [Option.elim_some, demand_trace]
      split
      case isFalse hlen =>
        apply HashesIff.none
        rintro ⟨-, name, ⟨⟩, pass, ⟨⟩, hlong, -⟩
        exact hlen (by simpa using hlong)
      next hlen =>
      rw [read_bind, demand_trace]
      split
      · next hnone =>
        rw [touch_bind, authCreateUserIrqs_eq]
        split
        · next hfits =>
          exact HashesIff.hash ⟨hmay, name, rfl, pass, rfl, by simpa using hlen, hfits⟩ _
        · next hfits =>
          apply HashesIff.none
          rintro ⟨-, name, ⟨⟩, pass, -, -, hok⟩
          exact hfits hok
      · next hsome =>
        -- an account that is found has the name
        apply HashesIff.none
        rintro ⟨-, name, ⟨⟩, pass, -, -, -, hfree⟩
        rw [Option.isNone_iff_eq_none, ← Ne, Option.ne_none_iff_exists'] at hsome
        obtain ⟨i, hi⟩ := hsome
        obtain ⟨u, hu, -, hname⟩ := authFind_some hi
        exact hfree u (List.mem_of_getElem? hu) hname

theorem irqAuthHash_hashes (a1 a2 a3 : U64) :
    HashesIff (May (k.proc cur) capUserAdmin ∧ (strArg env k cur a1 64).isSome ∧
      (strArg env k cur a2 33).isSome ∧ a3 ≠ 0 ∧ userPtrOk (k.proc cur) a3 65 = true)
      (irqAuthHash env cur a1 a2 a3 k).trace := by
  unfold irqAuthHash
  rw [syscallCap_trace]
  split
  case isFalse hmay => exact HashesIff.none fun h => hmay h.1
  next hmay =>
  rw [userStr_trace]
  cases hpw : strArg env k cur a1 64 with
  | none => exact HashesIff.none (by simp)
  | some pw =>
    rw [Option.elim_some, userStr_trace]
    cases hsalt : strArg env k cur a2 33 with
    | none => exact HashesIff.none (by simp)
    | some salt =>
      rw [Option.elim_some, demand_trace]
      split
      case isFalse h3 => exact HashesIff.none fun h => h3 (decide_eq_true h.2.2.2.1)
      next h3 =>
      rw [checkPtr_trace]
      split
      · next hptr =>
        exact HashesIff.hash ⟨hmay, rfl, rfl, of_decide_eq_true h3, hptr⟩ _
      · next hptr => exact HashesIff.none fun h => hptr h.2.2.2.2

theorem irqWaitpid_quiet (a1 : U64) : Quiet (irqWaitpid cur a1 k).trace := by
  unfold irqWaitpid
  rw [demand_trace]
  split
  case isFalse => decide
  rw [read_bind]
  cases procGet k (u32 a1) with
  | none => exact (by decide : Quiet [])
  | some kid =>
    dsimp only
    rw [demand_trace]
    split
    · show Quiet [.wait (u32 a1)]
      simp [Quiet]
    · decide

theorem irqDispatchNr_hashes (nr a1 a2 a3 a4 : U64) :
    HashesIff (HashArgs env cur nr.toNat a1 a2 a3 k) (irqDispatchNr m env cur nr a1 a2 a3 a4 k).trace := by
  generalize hc : irqDispatchNr m env cur nr a1 a2 a3 a4 = c
  unfold irqDispatchNr at hc
  split at hc
  · next hnr =>
    subst hc
    rw [hnr]
    exact HashesIff.not id (by decide : Quiet [.exit])
  · next hnr =>
    subst hc
    rw [hnr]
    refine HashesIff.not id ?_
    unfold irqYield
    rw [read_bind, when_touch_trace]
    split
    · exact (by decide : Quiet [.yield])
    · exact (by decide : Quiet [])
  · next hnr =>
    subst hc
    rw [hnr]
    exact irqAuthCreate_hashes m env cur k a1 a2
  · next hnr =>
    subst hc
    rw [hnr]
    exact irqAuthVerify_hashes m env cur k a1 a2
  · next hnr =>
    subst hc
    rw [hnr]
    refine HashesIff.not id ?_
    unfold irqConsole
    rw [when_touch_trace]
    split
    · exact (by decide : Quiet [.disable])
    · exact (by decide : Quiet [])
  · next hnr =>
    subst hc
    rw [hnr]
    exact HashesIff.not id (irqWaitpid_quiet cur k a1)
  · next hnr =>
    subst hc
    rw [hnr]
    exact irqAuthChangepw_hashes m env cur k a1 a2 a3
  · next hnr =>
    subst hc
    rw [hnr]
    exact irqAuthCreateUser_hashes m env cur k a1 a2
  · next hnr =>
    subst hc
    rw [hnr]
    exact irqAuthHash_hashes env cur k a1 a2 a3
  · subst hc
    refine HashesIff.none ?_
    unfold HashArgs
    split
    all_goals first | exact id | contradiction

/-- A call turns interrupts on exactly where it reaches `auth_hash_password`, and then first of all. -/
theorem irqDispatch_hashes (nr a1 a2 a3 a4 : U64) :
    HashesIff (ReachesHash env cur nr a1 a2 a3 k) (irqDispatch m env cur nr a1 a2 a3 a4 k).trace := by
  unfold irqDispatch ReachesHash
  rw [syscallCap_trace]
  split
  · next hmay =>
    rw [and_iff_right hmay]
    exact irqDispatchNr_hashes m env cur k nr a1 a2 a3 a4
  · next hmay => exact HashesIff.none fun h => hmay h.1

end

end Siathos.Gate
