import Siathos.Lib.CStr

/-!
# Accounts and tickets (`auth.c`)

`pbkdf2` stands for `pbkdf2_hmac_sha256` with its fixed iterations and length. Salts and tokens are
whatever the generators of the kernel produce.
-/

open Lib

namespace Siathos.Nomos

abbrev Rights := BitVec 64

def capFbDraw : Rights := 1
def capAisthesis : Rights := 2
def capNomosWrite : Rights := 8
def capIdiosWrite : Rights := 32
def capFsRead : Rights := 64
def capFsWrite : Rights := 128
def capUserAdmin : Rights := 256
def capExec : Rights := 512
def capIpc : Rights := 1024
def capSyscall : Rights := 2048
def capDevIo : Rights := 4096
def capAll : Rights := 0xFFFFFFFFFFFFFFFF

/-- No right of the first is missing in the second. -/
def Within (r s : Rights) : Prop := r &&& ~~~ s = 0

instance (r s : Rights) : Decidable (Within r s) := inferInstanceAs (Decidable (_ = _))

def authUserMax : Nat := 16
def authNameMax : Nat := 32
def authTicketMax : Nat := 16

/-- `auth_user_t`. -/
structure AuthUser where
  name : CStr
  hash : CStr
  salt : CStr
  caps : Rights
  active : Bool
  isAdmin : Bool
  deriving DecidableEq, Repr

/-- `auth_ticket_t`. `issuer` is ghost state: the rights of the process that had it issued. -/
structure AuthTicket where
  name : CStr
  caps : Rights
  tok : BitVec 64
  used : Bool
  issuer : Rights
  deriving DecidableEq, Repr

/-- What `current_user` points to. -/
inductive UserRef
  | account (i : Nat)
  | synth
  deriving DecidableEq, Repr

structure Auth where
  accounts : List AuthUser
  currentUser : Option UserRef
  tickets : List AuthTicket
  synthUser : AuthUser
  deriving DecidableEq, Repr

def authInit : Auth := ⟨[], none, [], ⟨[], [], [], 0, false, false⟩⟩

/-! ## Accounts -/

/-- The digit that `hex_to_bytes` reads. -/
def hexValue (c : UInt8) : UInt8 :=
  if 0x30 ≤ c ∧ c ≤ 0x39 then c - 0x30
  else if 0x61 ≤ c ∧ c ≤ 0x66 then c - 0x61 + 10
  else if 0x41 ≤ c ∧ c ≤ 0x46 then c - 0x41 + 10
  else 0

def hexToBytes : CStr → List UInt8
  | hi :: lo :: rest => (hexValue hi <<< 4 ||| hexValue lo) :: hexToBytes rest
  | _ => []

section

variable (pbkdf2 : List UInt8 → List UInt8 → List UInt8)

def authHashPassword (password salt : CStr) : CStr :=
  (pbkdf2 (password.take 63) ((hexToBytes salt).take 16)).flatMap hexByte

/-- `auth_create_user`. Nothing where it returns false. -/
def authCreateUser (a : Auth) (name password : CStr) (caps : Rights) (admin : Bool) (salt : CStr) :
    Option Auth :=
  if a.accounts.length ≥ authUserMax then none
  else if a.accounts.any (fun u => u.name = name) then none
  else some { a with
    accounts := a.accounts ++ [⟨cut authNameMax name, authHashPassword pbkdf2 password salt, salt, caps,
      true, admin⟩] }

/-- `auth_find`: the index of the account. -/
def authFind (a : Auth) (name : CStr) : Option Nat :=
  a.accounts.findIdx? fun u => u.active && decide (u.name = name)

def authVerify (a : Auth) (name password : CStr) : Bool :=
  match (authFind a name).bind (a.accounts[·]?) with
  | none => false
  | some u => u.active && decide (authHashPassword pbkdf2 password u.salt = u.hash)

/-- Gives the account a new password. -/
def setPassword (a : Auth) (i : Nat) (newpw salt : CStr) : Auth :=
  { a with
    accounts := a.accounts.modify i fun u =>
      { u with salt, hash := authHashPassword pbkdf2 newpw salt } }

def authChangePassword (a : Auth) (name oldpw newpw salt : CStr) : Option Auth :=
  match authFind a name with
  | none => none
  | some i => if authVerify pbkdf2 a name oldpw then some (setPassword pbkdf2 a i newpw salt) else none

def authChangePasswordAdmin (a : Auth) (name newpw salt : CStr) : Option Auth :=
  (authFind a name).map fun i => setPassword pbkdf2 a i newpw salt

end

def authUserDelete (a : Auth) (name : CStr) : Option Auth :=
  (authFind a name).map fun i =>
    { a with accounts := a.accounts.modify i fun u => { u with active := false } }

/-- The lines of `auth_list_text`, as long as they fit. -/
def appendLines (max : Nat) (used : CStr) : List CStr → CStr
  | [] => used
  | l :: ls => appendLines max (if used.length + l.length < max then used ++ l else used) ls

def authListText (a : Auth) (max : Nat) : CStr :=
  if a.accounts = [] then appendLines max [] [ascii "(nenhum usuario)\n"]
  else appendLines max [] ((a.accounts.filter (·.active)).map fun u =>
    (ascii "  " ++ u.name ++ ascii (if u.isAdmin then " (soberano)" else " (voluntario)") ++
      ascii " caps=" ++ hexadecimal u.caps.toNat ++ ascii "\n").take 95)

/-- `login_result_user`. -/
def loginResultUser (a : Auth) : Option AuthUser :=
  match a.currentUser with
  | none => none
  | some (.account i) => a.accounts[i]?
  | some .synth => some a.synthUser

def loginSetUser (a : Auth) (u : Option UserRef) : Auth := { a with currentUser := u }

/-! ## Tickets -/

/-- `auth_ticket_issue`, where `auth_ticket_token` gives `tok`. -/
def authTicketIssue (a : Auth) (name : CStr) (caps : Rights) (tok : BitVec 64) (issuer : Rights) :
    Option Auth :=
  if name = [] then none
  else if a.tickets.length ≥ authTicketMax then none
  else
    let old := a.tickets.map fun t => if !t.used && decide (t.name = name) then { t with used := true } else t
    some { a with tickets := old ++ [⟨cut authNameMax name, caps, tok, false, issuer⟩] }

/-- The ticket that `auth_ticket_consume` takes. -/
def authTicketMatch (a : Auth) (name : CStr) (tok : BitVec 64) : Option AuthTicket :=
  a.tickets.find? fun t => !t.used && decide (t.name = name) && decide (t.tok = tok)

/-- Marks the first ticket that matches. -/
def useTicket (name : CStr) (tok : BitVec 64) : List AuthTicket → List AuthTicket
  | [] => []
  | t :: rest =>
    if !t.used && decide (t.name = name) && decide (t.tok = tok) then { t with used := true } :: rest
    else t :: useTicket name tok rest

/-- `auth_ticket_consume`. The account it returns is `synth_user`. -/
def authTicketConsume (a : Auth) (name : CStr) (tok : BitVec 64) : Option Auth :=
  (authTicketMatch a name tok).map fun t =>
    { a with
      tickets := useTicket name tok a.tickets
      synthUser := ⟨cut authNameMax name, [], [], t.caps, true, decide (t.caps = capAll)⟩ }

end Siathos.Nomos
