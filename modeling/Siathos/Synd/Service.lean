import Siathos.Fsd.Service
import Siathos.Ipc.Serve
import Siathos.Lib.Find

/-!
# The contract service (`synd.c`)

'synd' keeps a copy of the contracts, with a consent of its own for each. It asks nothing of the kernel
after its seed.
-/

open Lib Siathos.Ipc

namespace Siathos.Synd

def syndMax : Nat := 16
def syndPath : Nat := 44

/-- `synd_ct_t`. -/
structure SyndCt where
  caminho : CStr
  nome : CStr
  leitura : Bool
  escrita : Bool
  execucao : Bool
  voluntario : Bool
  revogavel : Bool
  ativo : Bool
  consentido : Bool
  deriving DecidableEq, Repr

/-- `synd_ct[0..synd_ct_n)` and the trail, which is kept as `fsd` keeps its own. -/
structure Contracts where
  cts : List SyndCt
  trail : List Fsd.AuditEntry
  deriving DecidableEq, Repr

/-- `synd_aud_push`. -/
def audited (s : Contracts) (op : Char) (sender : Nat) (path : CStr) : Contracts :=
  { s with trail := Fsd.auditPush s.trail (UInt8.ofNat op.toNat) sender path }

/-- `synd_find`. -/
def syndFind (s : Contracts) (path : CStr) : Option Nat := s.cts.findIdx? fun c => c.caminho = path

/-- The contract that `synd_find` gives. -/
def syndGet (s : Contracts) (path : CStr) : Option SyndCt := (syndFind s path).bind (s.cts[·]?)

def setConsent (s : Contracts) (i : Nat) (b : Bool) : Contracts :=
  { s with cts := s.cts.modify i fun c => { c with consentido := b } }

/-! ## Replies -/

def mark (b : Bool) (c : Char) : UInt8 := if b then UInt8.ofNat c.toNat else 0x2D

def digit (b : Bool) : UInt8 := if b then 0x31 else 0x30

/-- A line of `IPC_TYPE_SYN_LIST`. -/
def listLine (o : Out) (c : SyndCt) : Out :=
  ((o.pushes (ascii "  ")).str respMax c.nome).pushes
    [0x20, mark c.leitura 'r', mark c.escrita 'w', 0x20, mark c.voluntario 'v', mark c.ativo 'a', 0x20,
      digit c.consentido, 0x0A]

/-- `spud_strstr` finds the filter in the name or in the path. -/
def matching (filtro : CStr) (c : SyndCt) : Bool :=
  filtro.isEmpty || (strstr filtro c.nome).isSome || (strstr filtro c.caminho).isSome

def putContract (filtro : CStr) (o : Out) (c : SyndCt) : Out :=
  if o.used + 1 < respMax then if matching filtro c then listLine o c else o else o

def listReply (s : Contracts) (filtro : CStr) : Writer := .build fun o => s.cts.foldl (putContract filtro) o

/-- The fields of a contract, from the start of the buffer on. -/
def readLine (c : SyndCt) (o : Out) : Out :=
  ((o.pushes (ascii "  ")).str respMax c.nome).pushes
    [0x20, mark c.leitura 'r', mark c.escrita 'w', 0x20, mark c.execucao 'x', mark c.voluntario 'v',
      mark c.revogavel 'g', 0x20, mark c.ativo 'a', digit c.consentido]

/-- `resp[used+1] = 0; return used+1`: the byte at `used` belongs to the reply, and nothing was written there. -/
def readReply (c : SyndCt) : Writer := fun b =>
  let o := readLine c ⟨b, 0⟩
  (Function.update o.buf (o.used + 1) 0, o.used + 1)

def putEntry (o : Out) (e : Fsd.AuditEntry) : Out :=
  if o.used + 2 + Fsd.auditPath < respMax then
    ((o.pushes [if e.op = 0 then 0x20 else e.op, 0x20]).str respMax e.path).push 0x0A
  else o

/-- The latest entry first. -/
def auditReply (s : Contracts) : Writer := .build fun o => s.trail.reverse.foldl putEntry o

/-! ## The handler -/

def ipcTypePing : Nat := 1
def ipcTypeSynList : Nat := 30
def ipcTypeSynRead : Nat := 31
def ipcTypeSynConsent : Nat := 32
def ipcTypeSynRevoke : Nat := 33
def ipcTypeSynAudit : Nat := 34

def handleRead (s : Contracts) (sender : Nat) (req : CStr) : Contracts × Writer :=
  match syndGet s req with
  | none => (s, .ncpy respMax (ascii "0") 1)
  | some c => (audited s 'r' sender req, readReply c)

/-- `IPC_TYPE_SYN_CONSENT` and `IPC_TYPE_SYN_REVOKE`. -/
def handleConsent (s : Contracts) (op : Char) (b : Bool) (sender : Nat) (req : CStr) : Contracts × Writer :=
  match syndFind s req with
  | none => (s, .ncpy respMax (ascii "0") 1)
  | some i => (setConsent (audited s op sender req) i b, .ncpy respMax (ascii "1") 1)

/-- `synd_handler`. -/
def syndHandler (_ : Unit) (s : Contracts) (sender type : Nat) (req : CStr) : Contracts × Writer :=
  if type = ipcTypePing then (s, .ncpy respMax (ascii "pong") 4)
  else if type = ipcTypeSynList then
    let filtro := cut 48 req
    (audited s 'l' sender filtro, listReply s filtro)
  else if type = ipcTypeSynRead then handleRead s sender req
  else if type = ipcTypeSynConsent then handleConsent s 'c' true sender req
  else if type = ipcTypeSynRevoke then handleConsent s 'r' false sender req
  else if type = ipcTypeSynAudit then (s, auditReply s)
  else (s, .ncpy respMax (ascii "?") 1)

end Siathos.Synd
