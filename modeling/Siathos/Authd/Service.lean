import Siathos.Ipc.Serve
import Siathos.Nomos.Auth

/-!
# The account service (`authd.c`)

'authd' keeps the accounts and the policy. The kernel hashes passwords for it and issues tickets.
-/

open Lib Siathos.Nomos Siathos.Ipc

namespace Siathos.Authd

def authMax : Nat := 16
def authName : Nat := 32
def authPass : Nat := 64

def capUserDefault : Rights := capFbDraw ||| capAisthesis ||| capFsRead ||| capIdiosWrite

/-- `acct_t`. -/
structure Acct where
  name : CStr
  hash : CStr
  salt : CStr
  caps : Rights
  active : Bool
  isAdmin : Bool
  deriving DecidableEq, Repr

/-- `accts[0..acct_n)` and `admin_authed`. -/
structure Accounts where
  accts : List Acct
  adminAuthed : Bool
  deriving DecidableEq, Repr

def authdInit : Accounts := ⟨[], false⟩

/-- What a request meets: the results of `gen_salt` and of `SYS_AUTH_HASH`, by the number of the call, and of
`SYS_AUTH_TICKET_ISSUE`. The hash is empty where the call fails. -/
structure Env where
  salt : Nat → CStr
  hash : Nat → CStr → CStr → CStr
  ticket : CStr → Rights → Option (BitVec 64)

/-! ## The store -/

/-- The index of the account. -/
def find (s : Accounts) (name : CStr) : Option Nat := s.accts.findIdx? fun u => u.active && decide (u.name = name)

def isAdmin (s : Accounts) (i : Nat) : Bool := (s.accts[i]?).any (·.isAdmin)

section

variable (env : Env)

/-- `authd_hash`: 63 bytes of the password count. -/
def authdHash (call : Nat) (password salt : CStr) : CStr := env.hash call (password.take 63) salt

/-- Nothing where it returns a null pointer. -/
def create (s : Accounts) (name password : CStr) (caps : Rights) (admin : Bool) : Option Accounts :=
  if s.accts.length ≥ authMax then none
  else if (find s name).isSome then none
  else
    let salt := env.salt 0
    let hash := authdHash env 0 password salt
    if hash = [] then none
    else some { s with accts := s.accts ++ [⟨cut authName name, hash, salt, caps, true, admin⟩] }

def verify (s : Accounts) (name password : CStr) : Bool :=
  match (find s name).bind (s.accts[·]?) with
  | none => false
  | some u =>
    let test := authdHash env 0 password u.salt
    decide (test ≠ []) && decide (test = u.hash)

/-- A new salt and hash. The old password is gone also where the hash fails. -/
def setPassword (salting hashing : Nat) (s : Accounts) (i : Nat) (newpw : CStr) : Accounts × Bool :=
  let salt := env.salt salting
  let hash := authdHash env hashing newpw salt
  ({ s with accts := s.accts.modify i fun u => { u with salt, hash } }, decide (hash ≠ []))

def changePassword (s : Accounts) (name oldpw newpw : CStr) : Accounts × Bool :=
  if newpw.length < 4 then (s, false)
  else match find s name with
    | none => (s, false)
    | some i => if verify env s name oldpw then setPassword env 0 1 s i newpw else (s, false)

end

/-! ## Requests -/

/-- The copy of a field into an array of `n` bytes, and where `p` stands after `if(*p) p++`. -/
def field (n : Nat) (p : CStr) : CStr × CStr := (p.take (n - 1), (p.drop (n - 1)).drop 1)

structure Fields where
  f1 : CStr
  f2 : CStr
  f3 : CStr
  deriving DecidableEq, Repr

/-- The fields of a request. The pointer never passes the NUL. -/
def authFields (req : CStr) : Fields :=
  let (f1, p) := field authName req
  let (f2, p) := field authPass p
  let (f3, _) := field authPass p
  ⟨f1, f2, f3⟩

def ipcTypePing : Nat := 1
def ipcTypeAuthCount : Nat := 20
def ipcTypeAuthCreate : Nat := 21
def ipcTypeAuthLogin : Nat := 22
def ipcTypeAuthList : Nat := 23
def ipcTypeAuthDelete : Nat := 24
def ipcTypeAuthChangepw : Nat := 25
def ipcTypeAuthCreateUser : Nat := 26

/-! ## Replies -/

/-- A line of `IPC_TYPE_AUTH_LIST`, in its array of 96 bytes. -/
def acctLine (u : Acct) : CStr :=
  (ascii "  " ++ u.name ++ ascii (if u.isAdmin then " (soberano)\n" else " (voluntario)\n")).take 95

def putLine (o : Out) (line : CStr) : Out := if o.used + line.length < respMax then o.pushes line else o

def listReply (s : Accounts) : Writer :=
  if s.accts = [] then .ncpy respMax (ascii "(nenhum usuario)\n") 17
  else .build fun o => ((s.accts.filter (·.active)).map acctLine).foldl putLine o

/-- `dec_str`. -/
def countReply (s : Accounts) : Writer := .copied (decimal s.accts.length)

/-- The 16 digits of a ticket. -/
def tokenHex (tok : BitVec 64) : CStr :=
  (List.range 16).map fun i => ((ascii "0123456789abcdef").getD ((tok >>> (60 - i * 4)).toNat % 16) 0)

/-! ## The handler -/

section

variable (env : Env)

/-- The bootstrap: only the first account, with all rights. -/
def handleCreate (s : Accounts) (f : Fields) : Accounts × Bool :=
  if s.accts.length ≠ 0 then (s, false)
  else if f.f1.length < 3 ∨ f.f2.length < 4 then (s, false)
  else match create env s f.f1 f.f2 capAll true with
    | some s => (s, true)
    | none => (s, false)

def handleLogin (s : Accounts) (f : Fields) : Accounts × Writer :=
  if verify env s f.f1 f.f2 then
    match (find s f.f1).bind (s.accts[·]?) with
    | none => (s, .ncpy respMax (ascii "0") 1)
    | some u =>
      match (env.ticket u.name u.caps).filter (· ≠ 0) with
      | some tok => ({ s with adminAuthed := s.adminAuthed || u.isAdmin }, .ncpy respMax (tokenHex tok) 16)
      | none => (s, .ncpy respMax (ascii "0") 1)
  else (s, .ncpy respMax (ascii "0") 1)

def handleDelete (s : Accounts) (f : Fields) : Accounts × Bool :=
  match find s f.f1 with
  | none => (s, false)
  | some i =>
    if isAdmin s i || !s.adminAuthed then (s, false)
    else ({ s with accts := s.accts.modify i fun u => { u with active := false } }, true)

/-- The current password first, and then the administrator's way. -/
def handleChangepw (s : Accounts) (f : Fields) : Accounts × Bool :=
  if f.f3.length < 4 then (s, false)
  else match changePassword env s f.f1 f.f2 f.f3 with
    | (s, true) => (s, true)
    | (s, false) =>
      match find s f.f1 with
      | none => (s, false)
      | some i => if s.adminAuthed then setPassword env 1 2 s i f.f3 else (s, false)

def handleCreateUser (s : Accounts) (f : Fields) : Accounts × Bool :=
  if !s.adminAuthed then (s, false)
  else if f.f1.length < 3 ∨ f.f2.length < 4 then (s, false)
  else match create env s f.f1 f.f2 capUserDefault false with
    | some s => (s, true)
    | none => (s, false)

def flagged (r : Accounts × Bool) : Accounts × Writer := (r.1, .flag r.2)

/-- `authd_handler`. It does not look at the sender. -/
def authdHandler (env : Env) (s : Accounts) (_sender type : Nat) (req : CStr) : Accounts × Writer :=
  let f := authFields req
  if type = ipcTypePing then (s, .ncpy respMax (ascii "pong") 4)
  else if type = ipcTypeAuthCount then (s, countReply s)
  else if type = ipcTypeAuthList then (s, listReply s)
  else if type = ipcTypeAuthCreate then flagged (handleCreate env s f)
  else if type = ipcTypeAuthLogin then handleLogin env s f
  else if type = ipcTypeAuthDelete then flagged (handleDelete s f)
  else if type = ipcTypeAuthChangepw then flagged (handleChangepw env s f)
  else if type = ipcTypeAuthCreateUser then flagged (handleCreateUser env s f)
  else (s, .ncpy respMax (ascii "?") 1)

end

end Siathos.Authd
