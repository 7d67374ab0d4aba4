import Siathos.Authd.Founding
import Siathos.Spud.Readline

/-!
# The login (`spoudazo.c`)

The program asks for an administrator where there are no accounts, then for a name and a password, and hands over to the
shell. What it asks of others are operations here, and it may get any result.
-/

open Lib Siathos.Ipc Siathos.Authd

namespace Siathos.Spoudazo

/-- What the program waits for. -/
inductive Op
  | authCount
  | readline (max : Nat) (echo mask : Bool)
  | authCreate (user pass : CStr)
  | authLogin (user pass : CStr)
  | contractList
  | sessionLogin (user : CStr) (accepted : Nat) (tok : BitVec 64)
  | execWait (path : CStr) (args : List CStr)
  | exit (code : Nat)
  deriving DecidableEq

/-- `SYS_CONTRACT_LIST` gives a text, or fails. -/
def Op.Result : Op → Type
  | .authCount => Int
  | .readline _ _ _ => CStr
  | .authCreate _ _ => Int
  | .authLogin _ _ => Int × BitVec 64
  | .contractList => Option CStr
  | .sessionLogin _ _ _ => Int
  | .execWait _ _ => Int
  | .exit _ => Empty

/-- Where the program stands, with the locals that it still needs. -/
inductive Stage
  | start
  | adminName
  | adminPass (user : CStr)
  | adminConfirm (user pass : CStr)
  | creating (user pass : CStr)
  | name
  | password (user : CStr)
  | checking (user pass : CStr)
  | listing (user : CStr) (tok : BitVec 64)
  | asking (user : CStr) (tok : BitVec 64)
  | entering (user : CStr) (tok : BitVec 64)
  | shell (user : CStr)
  | ended
  deriving DecidableEq

def praxiaPath : CStr := ascii "/praxis/praxia"

def Stage.op : Stage → Op
  | .start => .authCount
  | .adminName => .readline 32 true false
  | .adminPass _ => .readline 32 false true
  | .adminConfirm _ _ => .readline 32 false true
  | .creating user pass => .authCreate user pass
  | .name => .readline 32 true false
  | .password _ => .readline 32 false true
  | .checking user pass => .authLogin user pass
  | .listing _ _ => .contractList
  | .asking _ _ => .readline 8 true false
  | .entering user tok => .sessionLogin user 1 tok
  | .shell user => .execWait praxiaPath [user]
  | .ended => .exit 0

/-- The dash of the headings. -/
def dash : CStr := [0xE2, 0x80, 0x94]

def askAdmin : CStr := ascii "Novo admin (nome): "

def askUser : CStr := ascii "\nusuario: "

/-- The heading of `bootstrap`. -/
def firstAccess : CStr :=
  ascii "=== Siath OS " ++ dash ++ ascii " Primeiro acesso ===\nNenhum usuario encontrado. Crie o administrador.\n"

def loginHeading : CStr :=
  ascii "=== Siath OS " ++ dash ++ ascii " Login (contrato voluntario) ===\nMade with love by Thais (op3n/op3ny)\n"

def notAccepted : CStr := ascii "Acesso negado: contrato(s) nao aceito(s).\n"

/-- The answer is taken for a yes. -/
def Yes (ans : CStr) : Prop :=
  ans.head? = some 0x53 ∨ ans.head? = some 0x73 ∨ ans.head? = some 0x59 ∨ ans.head? = some 0x79

instance (ans : CStr) : Decidable (Yes ans) := inferInstanceAs (Decidable (_ ∨ _))

/-- What is written when the result is there, and what comes next. -/
def next : (s : Stage) → s.op.Result → CStr × Stage
  | .start, (count : Int) =>
    if count = 0 then (firstAccess ++ askAdmin, .adminName) else (loginHeading ++ askUser, .name)
  | .adminName, (user : CStr) =>
    if user.length < 3 then (ascii "\nnome muito curto.\n" ++ askAdmin, .adminName)
    else (ascii "\nSenha: ", .adminPass user)
  | .adminPass user, (pass : CStr) => (ascii "\nConfirme senha: ", .adminConfirm user pass)
  | .adminConfirm user pass, (pass2 : CStr) =>
    if pass ≠ pass2 then (ascii "\nsenhas nao conferem.\n" ++ askAdmin, .adminName)
    else if pass.length < 4 then (ascii "\nsenha muito curta (min 4).\n" ++ askAdmin, .adminName)
    else (ascii "\n", .creating user pass)
  | .creating _ _, (r : Int) =>
    if r = 1 then (ascii "Administrador criado. Faca login.\n" ++ loginHeading ++ askUser, .name)
    else (ascii "falha ao criar.\n" ++ askAdmin, .adminName)
  | .name, (user : CStr) => (ascii "\nsenha: ", .password user)
  | .password user, (pass : CStr) => (ascii "\n", .checking user pass)
  | .checking user _, (r : Int × BitVec 64) =>
    if r.1 ≠ 1 then (ascii "senha incorreta. Contrato recusado.\n" ++ askUser, .name) else ([], .listing user r.2)
  | .listing user tok, (r : Option CStr) =>
    match r with
    | none => (notAccepted ++ askUser, .name)
    | some [] => ([], .entering user tok)
    | some list =>
      (ascii "\nContratos regem o acesso a algumas pastas.\n" ++ list ++ ascii "Deseja prosseguir (S/N)? ",
      .asking user tok)
  | .asking user tok, (ans : CStr) =>
    if Yes ans then (ascii "\n", .entering user tok) else (ascii "\n" ++ notAccepted ++ askUser, .name)
  | .entering user _, (r : Int) =>
    if r ≠ 1 then (ascii "Acesso negado.\n" ++ askUser, .name)
    else (ascii "\nBem-vindo, " ++ user ++ ascii "\n", .shell user)
  | .shell _, (code : Int) =>
    if code < 0 then (ascii "praxia indisponivel (SYS_EXEC falhou).\n", .ended)
    else if code = 0 then (ascii "sessao encerrada.\n", .ended)
    else ([], .ended)

/-! ## Runs -/

/-- An operation with its result. -/
abbrev Event := (o : Op) × o.Result

/-- The program gets a result. -/
def Does (s : Stage) (e : Event) (t : Stage) : Prop := ∃ r : s.op.Result, e = ⟨s.op, r⟩ ∧ (next s r).2 = t

def lineRead (max : Nat) (echo mask : Bool) (s : CStr) : Event := ⟨.readline max echo mask, s⟩

/-- The contracts were accepted: there are none, or the answer was yes. -/
inductive Agreed : List Event → Prop
  | none : Agreed [⟨.contractList, some []⟩]
  | said {list ans : CStr} (hlist : list ≠ []) (hans : Yes ans) :
      Agreed [⟨.contractList, some list⟩, lineRead 8 true false ans]

/-- The events that end with a login of the user. -/
def Checked (user : CStr) (tok : BitVec 64) (es : List Event) : Prop :=
  ∃ before pass, es = before ++
    [lineRead 32 true false user, lineRead 32 false true pass, ⟨.authLogin user pass, ((1 : Int), tok)⟩]

/-- The events that end with the administrator's name and the same password twice. -/
def Confirmed (user pass : CStr) (es : List Event) : Prop :=
  3 ≤ user.length ∧ 4 ≤ pass.length ∧
    ∃ before, es = before ++ [lineRead 32 true false user, lineRead 32 false true pass, lineRead 32 false true pass]

/-- What has happened where the program stands. -/
def Recorded (es : List Event) : Stage → Prop
  | .adminPass user => 3 ≤ user.length ∧ ∃ before, es = before ++ [lineRead 32 true false user]
  | .adminConfirm user pass =>
    3 ≤ user.length ∧ ∃ before, es = before ++ [lineRead 32 true false user, lineRead 32 false true pass]
  | .creating user pass => Confirmed user pass es
  | .password user => ∃ before, es = before ++ [lineRead 32 true false user]
  | .checking user pass => ∃ before, es = before ++ [lineRead 32 true false user, lineRead 32 false true pass]
  | .listing user tok => Checked user tok es
  | .asking user tok => ∃ before list, list ≠ [] ∧ Checked user tok before ∧ es = before ++ [⟨.contractList, some list⟩]
  | .entering user tok => ∃ before agreed, Agreed agreed ∧ Checked user tok before ∧ es = before ++ agreed
  | .shell user => ∃ before agreed tok, Agreed agreed ∧ Checked user tok before ∧
      es = before ++ agreed ++ [⟨.sessionLogin user 1 tok, (1 : Int)⟩]
  | _ => True

theorem Recorded.does {es : List Event} {s t : Stage} {e : Event} (h : Recorded es s) (hdoes : Does s e t) :
    Recorded (es ++ [e]) t := by
  obtain ⟨r, rfl, rfl⟩ := hdoes
  cases s with
  | start =>
    dsimp only [next]
    split
    · trivial
    · trivial
  | adminName =>
    dsimp only [next]
    split
    · trivial
    · next hlen => exact ⟨Nat.le_of_not_lt hlen, es, rfl⟩
  | adminPass user =>
    obtain ⟨hlen, before, rfl⟩ := h
    exact ⟨hlen, before, List.append_assoc _ _ _⟩
  | adminConfirm user pass =>
    obtain ⟨hlen, before, rfl⟩ := h
    dsimp only [next]
    split
    · trivial
    · next hsame =>
      split
      · trivial
      · next hpass =>
        obtain rfl : pass = r := not_not.mp hsame
        exact ⟨hlen, Nat.le_of_not_lt hpass, before, List.append_assoc _ _ _⟩
  | creating user pass =>
    dsimp only [next]
    split
    · trivial
    · trivial
  | name => exact ⟨es, rfl⟩
  | password user =>
    obtain ⟨before, rfl⟩ := h
    exact ⟨before, List.append_assoc _ _ _⟩
  | checking user pass =>
    obtain ⟨before, rfl⟩ := h
    obtain ⟨ok, tok⟩ := r
    dsimp only [next]
    split
    · trivial
    · next hok =>
      obtain rfl : ok = 1 := not_not.mp hok
      exact ⟨before, pass, List.append_assoc _ _ _⟩
  | listing user tok =>
    match r with
    | none => trivial
    | some [] => exact ⟨es, _, .none, h, rfl⟩
    | some (c :: cs) => exact ⟨es, c :: cs, List.cons_ne_nil c cs, h, rfl⟩
  | asking user tok =>
    obtain ⟨before, list, hlist, hchecked, rfl⟩ := h
    dsimp only [next]
    split
    · next hyes => exact ⟨before, _, .said hlist hyes, hchecked, List.append_assoc _ _ _⟩
    · trivial
  | entering user tok =>
    obtain ⟨before, agreed, hagreed, hchecked, rfl⟩ := h
    dsimp only [next]
    split
    · trivial
    · next hok =>
      obtain rfl : r = (1 : Int) := not_not.mp hok
      exact ⟨before, agreed, tok, hagreed, hchecked, rfl⟩
  | shell user =>
    dsimp only [next]
    split
    · trivial
    · split
      · trivial
      · trivial
  | ended => exact r.elim

theorem recorded {es before : List Event} {s t : Stage} (h : Recorded before s) (hrun : Run Does s es t) :
    Recorded (before ++ es) t := by
  induction hrun generalizing before with
  | nil => rwa [List.append_nil]
  | cons hstep _ ih =>
    have hrest := ih (h.does hstep)
    rwa [List.append_assoc] at hrest

/-- The shell starts only for a user whom service, contracts and kernel have let in under the name just typed. -/
theorem spoudazo_admits {es : List Event} {t : Stage} (hrun : Run Does .start es t) :
    (∀ path args, t.op = .execWait path args → ∃ user, path = praxiaPath ∧ args = [user] ∧
      ∃ before agreed tok, Agreed agreed ∧ Checked user tok before ∧
        es = before ++ agreed ++ [⟨.sessionLogin user 1 tok, (1 : Int)⟩]) ∧
    (∀ user pass, t.op = .authCreate user pass → Confirmed user pass es) := by
  have hstart : Recorded [] .start := trivial
  have hrec := recorded hstart hrun
  rw [List.nil_append] at hrec
  constructor
  · intro path args hop
    cases t with
    | shell user =>
      obtain ⟨hpath, hargs⟩ := Op.execWait.inj hop
      exact ⟨user, hpath.symm, hargs.symm, hrec⟩
    | start | adminName | adminPass | adminConfirm | creating | name | password | checking | listing | asking
    | entering | ended =>
      cases hop
  · intro user pass hop
    cases t with
    | creating user' pass' =>
      obtain ⟨rfl, rfl⟩ := Op.authCreate.inj hop
      exact hrec
    | start | adminName | adminPass | adminConfirm | name | password | checking | listing | asking | entering | shell
    | ended =>
      cases hop

/-- A user logs in where there are no contracts. -/
def oneLogin : List Event :=
  [⟨.authCount, (1 : Int)⟩, lineRead 32 true false (ascii "thais"), lineRead 32 false true (ascii "senha"),
    ⟨.authLogin (ascii "thais") (ascii "senha"), ((1 : Int), (7 : BitVec 64))⟩, ⟨.contractList, some ([] : CStr)⟩,
    ⟨.sessionLogin (ascii "thais") 1 7, (1 : Int)⟩]

theorem spoudazo_admits_thais : Run Does .start oneLogin (.shell (ascii "thais")) ∧
    ∃ before agreed tok, Agreed agreed ∧ Checked (ascii "thais") tok before ∧
      oneLogin = before ++ agreed ++ [⟨.sessionLogin (ascii "thais") 1 tok, (1 : Int)⟩] := by
  have hrun : Run Does .start oneLogin (.shell (ascii "thais")) :=
    .cons ⟨(1 : Int), rfl, rfl⟩ (.cons ⟨ascii "thais", rfl, rfl⟩ (.cons ⟨ascii "senha", rfl, rfl⟩
      (.cons ⟨((1 : Int), (7 : BitVec 64)), rfl, rfl⟩
        (.cons ⟨some ([] : CStr), rfl, rfl⟩ (.single ⟨(1 : Int), rfl, rfl⟩)))))
  obtain ⟨user, -, hargs, hadmitted⟩ := (spoudazo_admits hrun).1 _ _ rfl
  obtain rfl : ascii "thais" = user := List.singleton_inj.mp hargs
  exact ⟨hrun, hadmitted⟩

/-! ## With the account service -/

/-- The login and the service. -/
structure Booted where
  stage : Stage
  serving : Serving Accounts

inductive Label
  /-- Another client asks the service. -/
  | client (m : Call Env)
  /-- The login asks the service and gets the reply. -/
  | rpc (env : Env) (pid : Nat)
  /-- The login gets another result. -/
  | result (e : Event)

/-- What is sent to the service. -/
def request (env : Env) (pid : Nat) : Op → Option (Call Env)
  | .authCount => some ⟨env, pid, ipcTypeAuthCount, []⟩
  | .authCreate user pass => some ⟨env, pid, ipcTypeAuthCreate, accountRequest user pass⟩
  | .authLogin user pass => some ⟨env, pid, ipcTypeAuthLogin, accountRequest user pass⟩
  | _ => none

/-- What the library makes of the reply. -/
def Reads (reply : List UInt8) : (o : Op) → o.Result → Prop
  | .authCount, (r : Int) => r = spudAuthCount (some reply) 0
  | .authCreate _ _, (r : Int) => r = spudAuthFlag (some reply) 0
  | .authLogin _ _, (r : Int × BitVec 64) => r = spudAuthLogin (some reply) 0
  | _, _ => False

/-- What the keyboard and the kernel may give. -/
def MayGive : (o : Op) → o.Result → Prop
  | .readline max _ _, (s : CStr) => s.length < max ∧ ∀ c ∈ s, Spud.Printable c
  | .authCount, _ | .authCreate _ _, _ | .authLogin _ _, _ => False
  | _, _ => True

/-- The request, if it is one to found the store, was made by `spud_auth_create` of a name of up to 35 bytes. -/
def ShortNamed (m : Call Env) : Prop :=
  m.type = ipcTypeAuthCreate → ∃ name pass, NulFree name ∧ name.length ≤ 35 ∧ m.payload = accountRequest name pass

inductive Goes : Booted → Label → Booted → Prop
  | client {b : Booted} {m : Call Env} (h : ShortNamed m) :
      Goes b (.client m) ⟨b.stage, (serve authdHandler b.serving m).1⟩
  | rpc {b : Booted} {env : Env} {pid : Nat} {m : Call Env} {r : b.stage.op.Result}
      (hm : request env pid b.stage.op = some m) (hr : Reads (serve authdHandler b.serving m).2 b.stage.op r) :
      Goes b (.rpc env pid) ⟨(next b.stage r).2, (serve authdHandler b.serving m).1⟩
  | result {b : Booted} {r : b.stage.op.Result} (hr : MayGive b.stage.op r) :
      Goes b (.result ⟨b.stage.op, r⟩) ⟨(next b.stage r).2, b.serving⟩

/-- A name that was typed. -/
structure TypedName (user : CStr) : Prop where
  short : user.length < 32
  nulFree : NulFree user

/-- The program is still in `bootstrap`, or has not started. -/
def InBootstrap : Stage → Prop
  | .start | .adminName => True
  | .adminPass user | .adminConfirm user _ | .creating user _ => TypedName user
  | _ => False

structure Unfounded (b : Booted) : Prop where
  stage : InBootstrap b.stage
  service : b.serving.service = authdInit

theorem ShortNamed.not_founds {m : Call Env} (h : ShortNamed m) : ¬Founds m := by
  intro hfounds
  obtain ⟨name, pass, hname, hshort, hpayload⟩ := h hfounds.type
  have hlong := ((founds_iff hfounds.type hname hpayload).mp hfounds).1
  omega

section

variable {serving : Serving Accounts} (hs : serving.service = authdInit) (env : Env) (pid : Nat)
include hs

theorem count_zero : spudAuthCount (some (serve authdHandler serving ⟨env, pid, ipcTypeAuthCount, []⟩).2) 0 = 0 := by
  have hreply : (serve authdHandler serving ⟨env, pid, ipcTypeAuthCount, []⟩).2 = decimal 0 := by
    rw [(serve_eq _ _ _).2, hs]
    exact Writer.copied_writes _ _
  rw [hreply]
  exact spudAuthCount_decimal (by decide) 0

theorem create_refused {user : CStr} (huser : TypedName user) (pass : CStr) :
    spudAuthFlag (some (serve authdHandler serving
      ⟨env, pid, ipcTypeAuthCreate, accountRequest user pass⟩).2) 0 = 0 := by
  have hshort := huser.short
  have hfields : authFields (svcRequest (accountRequest user pass)) = ⟨user.take 31, [], []⟩ := by
    have hall : user.take (128 - 1) = user := List.take_of_length_le (by omega)
    rw [accountRequest, request_pack (by decide) huser.nulFree, hall, authFields_eq,
      List.drop_eq_nil_of_le (by omega), List.drop_eq_nil_of_le (by omega)]
    rfl
  have hanswer : answerOf authdHandler serving.service ⟨env, pid, ipcTypeAuthCreate, accountRequest user pass⟩ =
      flagged (handleCreate env authdInit ⟨user.take 31, [], []⟩) := by
    rw [hs, ← hfields]
    rfl
  have hrefused : handleCreate env authdInit ⟨user.take 31, [], []⟩ = (authdInit, false) := by
    unfold handleCreate
    have hnone : ¬authdInit.accts.length ≠ 0 := fun h => h rfl
    rw [if_neg hnone, if_pos (.inr (Nat.zero_lt_succ 3))]
  rw [(serve_eq _ _ _).2, hanswer, hrefused, flagged, Writer.flag_writes]
  rfl

end

theorem Unfounded.goes {b b' : Booted} {l : Label} (h : Unfounded b) (hgoes : Goes b l b') : Unfounded b' := by
  obtain ⟨stage, serving⟩ := b
  obtain ⟨hstage, hservice⟩ := h
  cases hgoes with
  | client hshort => exact ⟨hstage, (serve_init hservice _).1 hshort.not_founds⟩
  | rpc hm hr =>
    cases stage with
    | start =>
      obtain rfl := Option.some.inj hm
      obtain rfl := hr.trans (count_zero hservice _ _)
      exact ⟨trivial, (serve_init hservice _).1 fun hfounds => nomatch hfounds.type⟩
    | creating user pass =>
      obtain rfl := Option.some.inj hm
      obtain rfl := hr.trans (create_refused hservice _ _ hstage pass)
      refine ⟨trivial, (serve_init hservice _).1 (ShortNamed.not_founds fun _ => ?_)⟩
      have hshort := hstage.short
      exact ⟨user, pass, hstage.nulFree, by omega, rfl⟩
    | adminName | adminPass | adminConfirm | password | name | checking | listing | asking | entering | shell | ended =>
      first | exact hstage.elim | cases hm
  | result hr =>
    refine ⟨?_, hservice⟩
    cases stage with
    | adminName =>
      obtain ⟨hshort, hprint⟩ := hr
      dsimp only [next]
      split
      · trivial
      · exact ⟨hshort, fun c hc hnul => absurd (hprint c hc) (by rw [hnul]; decide)⟩
    | adminPass user => exact hstage
    | adminConfirm user pass =>
      dsimp only [next]
      split
      · trivial
      · split
        · trivial
        · exact hstage
    | start | creating => exact hr.elim
    | name | password | checking | listing | asking | entering | shell | ended => exact hstage.elim

/-- The service never gets the administrator's password, so that nobody ever logs in. -/
theorem nobody_logs_in (req resp : Buf) {ls : List Label} {b : Booted}
    (hrun : Run Goes ⟨.start, ⟨authdInit, req, resp⟩⟩ ls b) :
    b.serving.service = authdInit ∧ (∀ user pass, b.stage.op ≠ .authLogin user pass) ∧
      (∀ user accepted tok, b.stage.op ≠ .sessionLogin user accepted tok) ∧
      ∀ path args, b.stage.op ≠ .execWait path args := by
  have hinv : Unfounded b := hrun.invariant (fun _ _ _ h hgoes => h.goes hgoes) ⟨trivial, rfl⟩
  obtain ⟨hstage, hservice⟩ := hinv
  obtain ⟨stage, serving⟩ := b
  refine ⟨hservice, ?_⟩
  cases stage with
  | start | adminName | adminPass | adminConfirm | creating => exact ⟨nofun, nofun, nofun⟩
  | name | password | checking | listing | asking | entering | shell | ended => exact hstage.elim

theorem nobody_logs_in_thais : ∃ ls b, Run Goes ⟨.start, ⟨authdInit, fun _ => 0, fun _ => 0⟩⟩ ls b ∧
    b.stage = .adminName ∧ b.serving.service = authdInit := by
  have htyped : TypedName (ascii "thais") := ⟨by decide, by unfold NulFree; decide +kernel⟩
  have hname : ∀ c ∈ ascii "thais", Spud.Printable c := by decide +kernel
  have hpass : ∀ c ∈ ascii "senha", Spud.Printable c := by decide +kernel
  let s₀ : Serving Accounts := ⟨authdInit, fun _ => 0, fun _ => 0⟩
  let s₁ := (serve authdHandler s₀ ⟨plainEnv, 7, ipcTypeAuthCount, []⟩).1
  let asked : Call Env := ⟨plainEnv, 7, ipcTypeAuthCreate, accountRequest (ascii "thais") (ascii "senha")⟩
  have hinit : s₁.service = authdInit := (serve_init rfl _).1 fun hfounds => nomatch hfounds.type
  have hcount : Goes ⟨.start, s₀⟩ (.rpc plainEnv 7) ⟨.adminName, s₁⟩ :=
    @Goes.rpc ⟨.start, s₀⟩ plainEnv 7 _ (0 : Int) rfl (count_zero rfl plainEnv 7).symm
  have huser : Goes ⟨.adminName, s₁⟩ (.result (lineRead 32 true false (ascii "thais")))
    ⟨.adminPass (ascii "thais"), s₁⟩ :=
    @Goes.result ⟨.adminName, s₁⟩ (ascii "thais") ⟨by decide, hname⟩
  have hfirst : Goes ⟨.adminPass (ascii "thais"), s₁⟩ (.result (lineRead 32 false true (ascii "senha")))
      ⟨.adminConfirm (ascii "thais") (ascii "senha"), s₁⟩ :=
    @Goes.result ⟨.adminPass (ascii "thais"), s₁⟩ (ascii "senha") ⟨by decide, hpass⟩
  have hsecond : Goes ⟨.adminConfirm (ascii "thais") (ascii "senha"), s₁⟩
    (.result (lineRead 32 false true (ascii "senha")))
      ⟨.creating (ascii "thais") (ascii "senha"), s₁⟩ :=
    @Goes.result ⟨.adminConfirm (ascii "thais") (ascii "senha"), s₁⟩ (ascii "senha") ⟨by decide, hpass⟩
  have hrefused : Goes ⟨.creating (ascii "thais") (ascii "senha"), s₁⟩ (.rpc plainEnv 7)
      ⟨.adminName, (serve authdHandler s₁ asked).1⟩ :=
    @Goes.rpc ⟨.creating (ascii "thais") (ascii "senha"), s₁⟩ plainEnv 7 asked (0 : Int) rfl
      (create_refused hinit plainEnv 7 htyped (ascii "senha")).symm
  have hrun := Run.cons hcount (.cons huser (.cons hfirst (.cons hsecond (.single hrefused))))
  exact ⟨_, _, hrun, rfl, (nobody_logs_in _ _ hrun).1⟩

end Siathos.Spoudazo
