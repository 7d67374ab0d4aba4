import Siathos.Session.Sovereign

/-!
# Consent and sessions (`login.c`, `synallagma.c`)

Logins in ring 0 and by `SYS_SESSION_LOGIN`, logouts and file calls in any order. The bits of
`consented` belong to the contracts, not to who accepted them.
-/

open Lib Siathos.Nomos Siathos.Fs Siathos.Syscall

namespace Siathos.Session.Consent

/-- Where `login_main` stands: between two logins, or at a contract that it shows to an account. -/
inductive Prompt
  | closed
  | asking (account i : Nat)
  deriving DecidableEq, Repr

/-- `accepted` and `ended` are ghost state: which contracts a user has accepted since his latest login,
and whether the session has been left. -/
structure Sys where
  kernel : Kernel
  prompt : Prompt
  accepted : List (CStr × Nat)
  ended : Bool

/-- Nobody is logged in, and nothing is accepted. -/
def boot (k : Kernel) : Sys where
  kernel :=
    { k with
      auth := loginSetUser k.auth none
      synallagma := ⟨k.synallagma.contracts, List.replicate maxContracts false⟩ }
  prompt := .closed
  accepted := []
  ended := false

def accountName (a : Auth) (i : Nat) : CStr := ((a.accounts[i]?).map (·.name)).getD []

/-- A login forgets what its user accepted before. -/
def forget (name : CStr) (accepted : List (CStr × Nat)) : List (CStr × Nat) :=
  accepted.filter fun x => x.1 ≠ name

/-- The contract in the slot is active and its bit is set. -/
def inForce (s : Synallagma) (i : Nat) : Bool := (s.contracts[i]?).any (·.ativo) && s.consented.getD i false

def noneInForce (s : Synallagma) : Bool := (List.range s.contracts.length).all fun i => !inForce s i

inductive Op
  /-- A turn of the loop of `login_main`. -/
  | enter (name pass : CStr)
  /-- The next contract of `consent_prompt_contracts`, and the answer where it is asked for. -/
  | answer (yes : Bool)
  | sessionLogin (cur : Nat) (env : Env) (a1 a2 a3 : U64)
  | logout
  | file (cur : Nat) (env : Env) (nr a1 a2 a3 a4 : U64)

def enter (m : Machine) (name pass : CStr) (s : Sys) : Sys :=
  match authFind s.kernel.auth name with
  | none => s
  | some i =>
    if authVerify m.pbkdf2 s.kernel.auth name pass then
      { kernel := { s.kernel with auth := loginSetUser s.kernel.auth (some (.account i)) }
        prompt := .asking i 0
        accepted := forget name s.accepted
        ended := false }
    else s

def answer (yes : Bool) (s : Sys) : Sys :=
  match s.prompt with
  | .closed => s
  | .asking account i =>
    match s.kernel.synallagma.contracts[i]? with
    | none => { s with prompt := .closed }
    | some c =>
      if !c.ativo || s.kernel.synallagma.consented.getD i false then
        { s with prompt := .asking account (i + 1) }
      else if yes then
        { s with
          kernel := { s.kernel with synallagma := consentGrant s.kernel.synallagma i }
          prompt := .asking account (i + 1)
          accepted := (accountName s.kernel.auth account, i) :: s.accepted }
      else
        { s with
          kernel := { s.kernel with auth := loginSetUser s.kernel.auth none }
          prompt := .closed }

/-- The store and the user of a `SYS_SESSION_LOGIN` that finds one. -/
def loginUser (env : Env) (cur : Nat) (a1 a3 : U64) (k : Kernel) : Option (Auth × AuthUser) :=
  (strArg env k cur a1 authNameMax).bind fun name => (loginAccount name a3 k.auth).bind fun r =>
    (loginResultUser (loginSetUser r.1 (some r.2.1))).map fun u => (r.1, u)

def activeSlots (s : Synallagma) : List Nat :=
  (List.range s.contracts.length).filter fun i => (s.contracts[i]?).any (·.ativo)

/-- Ghost state: with `a2` a login accepts every active contract, without it none. -/
def noteLogin (env : Env) (cur : Nat) (a1 a2 a3 : U64) (s : Sys) : Sys :=
  match loginUser env cur a1 a3 s.kernel with
  | none => s
  | some (_, u) =>
    if a2 ≠ 0 then
      { s with
        accepted := (activeSlots s.kernel.synallagma).map (u.name, ·) ++ forget u.name s.accepted
        ended := false }
    else { s with accepted := forget u.name s.accepted }

def apply (m : Machine) (s : Sys) : Op → Sys
  | .enter name pass => enter m name pass s
  | .answer yes => answer yes s
  | .sessionLogin cur env a1 a2 a3 =>
    { noteLogin env cur a1 a2 a3 s with kernel := (sysSessionLogin env cur a1 a2 a3 s.kernel).state }
  | .logout => { s with ended := true }
  | .file cur env nr a1 a2 a3 a4 =>
    { s with kernel := (syscallDispatch m env cur nr a1 a2 a3 a4 s.kernel).state }

/-- `login_main` asks one thing at a time, and nobody logs out in front of its prompt. -/
def Allowed (s : Sys) : Op → Prop
  | .enter _ _ | .logout => s.prompt = .closed
  | .answer _ => s.prompt ≠ .closed
  | .sessionLogin _ _ _ _ _ => True
  | .file _ _ nr _ _ _ _ => nr.toNat ∈ fsCalls

instance (s : Sys) (o : Op) : Decidable (Allowed s o) := by
  cases o <;> dsimp only [Allowed] <;> infer_instance

abbrev Step (m : Machine) := Exec Allowed (apply m)

/-- The prompt waits for an answer. -/
def asked (s : Sys) : Bool :=
  match s.prompt with
  | .closed => false
  | .asking _ i =>
    (s.kernel.synallagma.contracts[i]?).any fun c => c.ativo && !s.kernel.synallagma.consented.getD i false

/-- A login in ring 0, a refusal and a logout find no consent in force. A login without `a2` is not that
of the user whose session it is. -/
def Fresh (m : Machine) (s : Sys) : Op → Prop
  | .enter name pass => authVerify m.pbkdf2 s.kernel.auth name pass = true → noneInForce s.kernel.synallagma = true
  | .answer yes => asked s = true → yes = true ∨ noneInForce s.kernel.synallagma = true
  | .sessionLogin cur env a1 a2 a3 =>
    a2 = 0 → ∀ r ∈ loginUser env cur a1 a3 s.kernel,
      noneInForce s.kernel.synallagma = true ∨ ∀ u ∈ loginResultUser r.1, u.name ≠ r.2.name
  | .logout => noneInForce s.kernel.synallagma = true
  | .file _ _ _ _ _ _ _ => True

/-- Where the check grants a guarded path, the user of the session has accepted its contract since his
latest login. -/
def OwnConsent (s : Sys) : Prop :=
  ∀ (rights need : Rights) (q : CStr) (i : Nat) (c : Contract), MostSpecific s.kernel.synallagma q i c →
    vfsCheckCap ⟨s.kernel.auth, s.kernel.synallagma, rights⟩ q need = true →
      s.ended = false ∧ ∃ u, loginResultUser s.kernel.auth = some u ∧ (u.name, i) ∈ s.accepted

/-! ## Consent bits -/

theorem inForce_of_none {s : Synallagma} (h : noneInForce s = true) (i : Nat) : ¬ inForce s i = true := by
  intro hi
  simp only [noneInForce, List.all_eq_true, List.mem_range] at h
  by_cases hlt : i < s.contracts.length
  · have := h i hlt
    simp [hi] at this
  · simp [inForce, List.getElem?_eq_none (Nat.not_lt.mp hlt)] at hi

theorem inForce_consentGrant {s : Synallagma} {i j : Nat} (h : inForce (consentGrant s j) i = true) :
    inForce s i = true ∨ i = j := by
  by_cases hij : i = j
  · exact Or.inr hij
  · left
    simpa [inForce, consentGrant, List.getD_eq_getElem?_getD, List.getElem?_set, Ne.symm hij] using h

/-- The bit that `consent_grant` sets lies inside the array. -/
theorem inForce_consentGrant_self {s : Synallagma} {i : Nat} (h : inForce (consentGrant s i) i = true) :
    i < s.consented.length := by
  by_contra hlt
  have hnone : (s.consented.set i true)[i]? = none := by simpa using Nat.not_lt.mp hlt
  simp [inForce, consentGrant, List.getD_eq_getElem?_getD, hnone] at h

theorem inForce_granted {s : Synallagma} {i : Nat} (hactive : (s.contracts[i]?).any (·.ativo) = true)
    (hlt : i < s.consented.length) : inForce (consentGrant s i) i = true := by
  simp [inForce, consentGrant, hactive, List.getD_eq_getElem?_getD, hlt]

theorem inForce_mono {s : Synallagma} {i : Nat} (j : Nat) (h : inForce s i = true) :
    inForce (consentGrant s j) i = true := by
  simp only [inForce, consentGrant, Bool.and_eq_true, List.getD_eq_getElem?_getD, List.getElem?_set] at h ⊢
  refine ⟨h.1, ?_⟩
  split
  · split
    · rfl
    · simp_all
  · exact h.2

/-- All contracts that may be consented to are. -/
def AllInForce (s : Synallagma) : Prop :=
  ∀ i, i < s.consented.length → (s.contracts[i]?).any (·.ativo) = true → inForce s i = true

theorem AllInForce.grant {s : Synallagma} (h : AllInForce s) (j : Nat) : AllInForce (consentGrant s j) := by
  intro i hi hactive
  have hlen : (consentGrant s j).consented.length = s.consented.length := List.length_set
  exact inForce_mono j (h i (hlen ▸ hi) hactive)

/-- The loop of `consentAll`, over some of the slots. -/
theorem consentAll_spec (s : Synallagma) (l : List Nat) (t : Synallagma)
    (ht : l.foldl (fun s i => if (s.contracts[i]?).any (·.ativo) then consentGrant s i else s) s = t) :
    t.contracts = s.contracts ∧ t.consented.length = s.consented.length ∧
      (∀ i ∈ l, i < s.consented.length → (s.contracts[i]?).any (·.ativo) = true → inForce t i = true) := by
  induction l using List.reverseRecOn generalizing t with
  | nil =>
    subst ht
    simp
  | append_singleton l j ih =>
    obtain ⟨hcontracts, hlen, hforce⟩ := ih _ rfl
    rw [List.foldl_append, List.foldl_cons, List.foldl_nil, hcontracts] at ht
    split at ht
    case isTrue hactive =>
      subst ht
      refine ⟨hcontracts, (List.length_set).trans hlen, fun i hi hlt ha => ?_⟩
      rcases List.mem_append.mp hi with hi | hi
      · exact inForce_mono j (hforce i hi hlt ha)
      · obtain rfl := List.mem_singleton.mp hi
        exact inForce_granted (by rwa [hcontracts]) (by rwa [hlen])
    case isFalse hactive =>
      subst ht
      refine ⟨hcontracts, hlen, fun i hi hlt ha => ?_⟩
      rcases List.mem_append.mp hi with hi | hi
      · exact hforce i hi hlt ha
      · obtain rfl := List.mem_singleton.mp hi
        exact absurd ha hactive

theorem consentAll_contracts (s : Synallagma) : (consentAll s).contracts = s.contracts :=
  (consentAll_spec s (List.range s.contracts.length) _ rfl).1

theorem allInForce_consentAll (s : Synallagma) : AllInForce (consentAll s) := by
  obtain ⟨hcontracts, hlen, hforce⟩ := consentAll_spec s (List.range s.contracts.length) (consentAll s) rfl
  intro i hi hactive
  rw [hcontracts] at hactive
  refine hforce i (List.mem_range.mpr ?_) (hlen ▸ hi) hactive
  by_contra hlt
  simp [List.getElem?_eq_none (Nat.not_lt.mp hlt)] at hactive

theorem mem_activeSlots {s : Synallagma} {i : Nat} (h : (s.contracts[i]?).any (·.ativo) = true) :
    i ∈ activeSlots s := by
  refine List.mem_filter.mpr ⟨List.mem_range.mpr ?_, h⟩
  by_contra hlt
  simp [List.getElem?_eq_none (Nat.not_lt.mp hlt)] at h

theorem mem_forget {name : CStr} {accepted : List (CStr × Nat)} {x : CStr × Nat} (h : x ∈ accepted)
    (hne : x.1 ≠ name) : x ∈ forget name accepted :=
  List.mem_filter.mpr ⟨h, by simpa using hne⟩

/-! ## The invariant -/

structure Inv (s : Sys) : Prop where
  own : ∀ i, inForce s.kernel.synallagma i = true →
    s.ended = false ∧ ∃ u, loginResultUser s.kernel.auth = some u ∧ (u.name, i) ∈ s.accepted
  prompt : ∀ account i, s.prompt = .asking account i → s.ended = false ∧
    (∃ u, s.kernel.auth.accounts[account]? = some u) ∧
    (s.kernel.auth.currentUser = some (.account account) ∨ AllInForce s.kernel.synallagma)

theorem inv_boot (k : Kernel) : Inv (boot k) where
  own i hi := by
    simp only [inForce, boot, Bool.and_eq_true, List.getD_eq_getElem?_getD, List.getElem?_replicate] at hi
    split at hi
    · cases hi.2
    · cases hi.2
  prompt account i h := by cases h

theorem Inv.enter {m : Machine} {s : Sys} {name pass : CStr} (h : Inv s)
    (hfresh : Fresh m s (.enter name pass)) : Inv (enter m name pass s) := by
  unfold Consent.enter
  cases hfind : authFind s.kernel.auth name with
  | none => exact h
  | some i =>
    dsimp only
    split
    case isFalse => exact h
    case isTrue hverify =>
      refine ⟨fun j hj => absurd hj (inForce_of_none (hfresh hverify) j), ?_⟩
      rintro _ _ ⟨⟩
      refine ⟨rfl, ?_, Or.inl rfl⟩
      unfold authFind at hfind
      obtain ⟨hlt, -⟩ := List.findIdx?_eq_some_iff_getElem.mp hfind
      exact ⟨_, List.getElem?_eq_getElem hlt⟩

theorem Inv.answer {m : Machine} {s : Sys} {yes : Bool} (h : Inv s) (hfresh : Fresh m s (.answer yes)) :
    Inv (answer yes s) := by
  unfold Consent.answer
  split
  case h_1 => exact h
  case h_2 account i hprompt =>
    obtain ⟨hended, ⟨u, hu⟩, hcurrent⟩ := h.prompt account i hprompt
    split
    case h_1 => exact ⟨h.own, by rintro _ _ ⟨⟩⟩
    case h_2 c hc =>
      split
      case isTrue =>
        refine ⟨h.own, ?_⟩
        rintro _ _ ⟨⟩
        exact ⟨hended, ⟨u, hu⟩, hcurrent⟩
      case isFalse hask =>
        have hbit : s.kernel.synallagma.consented.getD i false = false := by simp_all
        have hactive : (s.kernel.synallagma.contracts[i]?).any (·.ativo) = true := by simp_all
        split
        case isTrue =>
          refine ⟨fun j hj => ?_, ?_⟩
          · rcases inForce_consentGrant hj with hj' | rfl
            · obtain ⟨hended, v, hv, hacc⟩ := h.own j hj'
              exact ⟨hended, v, hv, List.mem_cons_of_mem _ hacc⟩
            · refine ⟨hended, u, ?_, ?_⟩
              · rcases hcurrent with hcurrent | hall
                · simp [loginResultUser, hcurrent, hu]
                · have hforce := hall j (inForce_consentGrant_self hj) hactive
                  simp only [inForce, Bool.and_eq_true] at hforce
                  rw [hbit] at hforce
                  cases hforce.2
              · simp [accountName, hu]
          · rintro _ _ ⟨⟩
            exact ⟨hended, ⟨u, hu⟩, hcurrent.imp_right fun hall => hall.grant i⟩
        case isFalse hno =>
          have hasked : asked s = true := by
            unfold asked
            rw [hprompt]
            simp_all
          have hnone := (hfresh hasked).resolve_left hno
          exact ⟨fun j hj => absurd hj (inForce_of_none hnone j), by rintro _ _ ⟨⟩⟩

theorem loginAccount_store {name : CStr} {a3 : U64} {a auth : Auth} {user : UserRef} {caps : Rights}
    (h : loginAccount name a3 a = some (auth, user, caps)) :
    auth.accounts = a.accounts ∧ auth.currentUser = a.currentUser ∧
      ∃ u, loginResultUser (loginSetUser auth (some user)) = some u ∧
        (loginResultUser auth = loginResultUser a ∨ loginResultUser auth = some u) := by
  unfold loginAccount at h
  split at h
  case isTrue =>
    obtain ⟨auth', hconsume, heq⟩ := Option.map_eq_some_iff.mp h
    obtain ⟨rfl, rfl, -⟩ : auth' = auth ∧ UserRef.synth = user ∧ _ := by simpa using heq
    unfold authTicketConsume at hconsume
    obtain ⟨t, -, rfl⟩ := Option.map_eq_some_iff.mp hconsume
    refine ⟨rfl, rfl, _, rfl, ?_⟩
    unfold loginResultUser
    dsimp only
    cases a.currentUser with
    | none => exact Or.inl rfl
    | some r => cases r with
      | account i => exact Or.inl rfl
      | synth => exact Or.inr rfl
  case isFalse =>
    obtain ⟨i, -, hi⟩ := Option.bind_eq_some_iff.mp h
    obtain ⟨u, hu, heq⟩ := Option.map_eq_some_iff.mp hi
    obtain ⟨rfl, rfl, -⟩ : a = auth ∧ UserRef.account i = user ∧ _ := by simpa using heq
    exact ⟨rfl, rfl, u, hu, Or.inl rfl⟩

theorem Inv.sessionLogin {m : Machine} {s : Sys} {cur : Nat} {env : Env} {a1 a2 a3 : U64} (h : Inv s)
    (hfresh : Fresh m s (.sessionLogin cur env a1 a2 a3)) :
    Inv (Consent.apply m s (.sessionLogin cur env a1 a2 a3)) := by
  unfold Fresh loginUser at hfresh
  change Inv { noteLogin env cur a1 a2 a3 s with kernel := (sysSessionLogin env cur a1 a2 a3 s.kernel).state }
  unfold noteLogin loginUser
  rw [sysSessionLogin_state]
  cases hname : strArg env s.kernel cur a1 authNameMax with
  | none => exact ⟨h.own, h.prompt⟩
  | some name =>
    simp only [hname, Option.bind_some] at hfresh ⊢
    cases hacc : loginAccount name a3 s.kernel.auth with
    | none => exact ⟨h.own, h.prompt⟩
    | some r =>
      obtain ⟨auth, user, caps⟩ := r
      obtain ⟨haccounts, hcurrent, u, hu, hsame⟩ := loginAccount_store hacc
      simp only [hacc, Option.bind_some, hu, Option.map_some] at hfresh ⊢
      by_cases h2 : a2 = 0
      · simp only [h2, ne_eq, not_true_eq_false, if_false, if_true]
        constructor
        · intro i hi
          obtain ⟨hended, v, hv, hmem⟩ := h.own i hi
          have hother := (hfresh h2 (auth, u) rfl).resolve_left fun hnone => inForce_of_none hnone i hi
          rcases hsame with hsame | hsame
          · rw [hsame] at hother
            exact ⟨hended, v, hsame.trans hv, mem_forget hmem (hother v hv)⟩
          · exact absurd rfl (hother u hsame)
        · intro account i hprompt
          obtain ⟨hended, haccount, hrest⟩ := h.prompt account i hprompt
          exact ⟨hended, by rwa [haccounts], by rwa [hcurrent]⟩
      · simp only [h2, ne_eq, not_false_eq_true, if_true, if_false]
        constructor
        · intro i hi
          refine ⟨rfl, u, hu, List.mem_append_left _ (List.mem_map.mpr ⟨i, mem_activeSlots ?_, rfl⟩)⟩
          have hactive : ((consentAll s.kernel.synallagma).contracts[i]?).any (·.ativo) = true := by
            simp only [inForce, Bool.and_eq_true] at hi
            exact hi.1
          rwa [consentAll_contracts] at hactive
        · intro account i hprompt
          obtain ⟨-, haccount, -⟩ := h.prompt account i hprompt
          refine ⟨rfl, ?_, Or.inr (allInForce_consentAll s.kernel.synallagma)⟩
          change ∃ v, auth.accounts[account]? = some v
          rwa [haccounts]

theorem Inv.step {m : Machine} {s t : Sys} {o : Op} (h : Inv s) (hstep : Guarded (Fresh m) (Step m) s o t) :
    Inv t := by
  obtain ⟨hfresh, hallowed, rfl⟩ := hstep
  cases o with
  | enter name pass => exact h.enter hfresh
  | answer yes => exact h.answer hfresh
  | sessionLogin cur env a1 a2 a3 => exact h.sessionLogin hfresh
  | logout =>
    refine ⟨fun i hi => absurd hi (inForce_of_none hfresh i), fun account i hprompt => ?_⟩
    cases hallowed.symm.trans hprompt
  | file cur env nr a1 a2 a3 a4 =>
    obtain ⟨nodes, hnodes⟩ := fileCall_state m env cur s.kernel hallowed a1 a2 a3 a4
    change Inv { s with kernel := (syscallDispatch m env cur nr a1 a2 a3 a4 s.kernel).state }
    rw [hnodes]
    exact ⟨h.own, h.prompt⟩

theorem check_consented {p : Policy} {q : CStr} {need : Rights} (h : vfsCheckCap p q need = true) :
    ∀ c ∈ synallagmaContractFor p.synallagma q, synallagmaConsented p.synallagma c.caminho = true := by
  intro c hc
  unfold vfsCheckCap at h
  rw [show synallagmaContractFor p.synallagma q = some c from hc] at h
  by_contra hnot
  simp [hnot] at h

theorem Inv.ownConsent {s : Sys} (h : Inv s) : OwnConsent s := by
  intro rights need q i c hc hcheck
  apply h.own i
  have hbit := check_consented hcheck c (mostSpecific_iff.mpr ⟨i, hc⟩)
  have hactive : c.ativo = true := by
    have hg := hc.guards
    simp only [Contract.guards, Bool.and_eq_true] at hg
    exact hg.1.1.1
  rw [hc.consented] at hbit
  unfold inForce
  rw [hc.slot, hbit]
  simp [hactive]

/-- Where sessions begin without a consent in force, access under a contract needs the user's own. -/
theorem own_consent (m : Machine) (k : Kernel) {ops : List Op} {s : Sys}
    (h : Run (Guarded (Fresh m) (Step m)) (boot k) ops s) : OwnConsent s := by
  have hinv : ∀ (s : Sys) (o : Op) (t : Sys), Inv s → Guarded (Fresh m) (Step m) s o t → Inv t :=
    fun _ _ _ hs hstep => hs.step hstep
  exact (Run.invariant hinv h (inv_boot k)).ownConsent

instance (m : Machine) (s : Sys) (o : Op) : Decidable (Fresh m s o) := by
  cases o <;> dsimp only [Fresh] <;> infer_instance

def ana : CStr := ascii "ana"

/-- 'ana' and 'bia' have accounts, and a contract guards `/idios`. -/
def twoUsers : Kernel :=
  { (Session.boot [] ⟨[⟨[], ascii "/idios", true, true, false, true, true, true, 0⟩], []⟩).kernel with
    auth :=
      { authInit with
        accounts := [ana, ascii "bia"].map fun name =>
          ⟨name, authHashPassword smallMachine.pbkdf2 name [], [], userRights, true, false⟩ } }

/-- 'ana' logs in and accepts the contract. -/
def anaAccepts : List Op := [.enter ana ana, .answer true, .answer true]

theorem own_consent_first : OwnConsent (anaAccepts.foldl (apply smallMachine) (boot twoUsers)) :=
  own_consent smallMachine twoUsers (Run.of_admits_guarded (by decide +kernel))

/-- She leaves, and 'bia' logs in, who is asked nothing. -/
def biaFollows : List Op :=
  anaAccepts ++ [.logout, .enter (ascii "bia") (ascii "bia"), .answer false, .answer false]

theorem consent_inherited :
    ¬ ∀ (m : Machine) (k : Kernel) (ops : List Op) (s : Sys), Run (Step m) (boot k) ops s → OwnConsent s := by
  intro h
  have hown := h smallMachine twoUsers biaFollows _ (Run.of_admits (by decide +kernel))
  obtain ⟨c, hc⟩ := Option.isSome_iff_exists.mp
    (show (synallagmaContractFor ((biaFollows.foldl (apply smallMachine) (boot twoUsers)).kernel.synallagma)
      (ascii "/idios")).isSome = true by decide +kernel)
  obtain ⟨i, hi⟩ := mostSpecific_iff.mp hc
  obtain ⟨-, u, hu, hmem⟩ := hown 0 capFsRead (ascii "/idios") i c hi (by decide +kernel)
  have hbia : ((loginResultUser (biaFollows.foldl (apply smallMachine) (boot twoUsers)).kernel.auth).all
      fun u => (biaFollows.foldl (apply smallMachine) (boot twoUsers)).accepted.all (·.1 ≠ u.name)) = true := by
    decide +kernel
  rw [hu] at hbia
  simp only [Option.all_some, List.all_eq_true, decide_eq_true_eq] at hbia
  exact hbia _ hmem rfl

end Siathos.Session.Consent
