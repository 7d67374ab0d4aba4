import Siathos.Ipc.Mailbox
import Siathos.Ipc.Svc
import Siathos.Lib.Run

/-!
# Clients and services (`spud.h`, `SYS_READ`)

A client calls `spud_*_rpc` and polls the keyboard by `SYS_READ`. A service runs `spud_svc_serve`.
All of them share the mailboxes and the registry.
-/

open Lib

namespace Siathos.Ipc

/-- Where a client stands in an rpc. -/
inductive Client
  | idle
  | found (svc type : Nat) (payload : List UInt8) (outMax : Nat)
  | waiting (svc type id outMax tries : Nat)
  deriving DecidableEq, Repr

/-- The request that a service works on. -/
structure Request where
  sender : Nat
  type : Nat
  id : Nat
  deriving DecidableEq, Repr

/-- What clients got. -/
inductive Event
  /-- An rpc for the request `id` returned `value`, from the message `reply`. -/
  | rpcValue (client svc type id : Nat) (reply : Message) (value : List UInt8)
  /-- `SYS_READ` took the message out of the mailbox, with `kbd` registered. -/
  | keyPopped (client kbd : Nat) (m : Message)
  /-- `SYS_READ` returned a character, from a message or from the ports. -/
  | keyChar (client : Nat) (source : Option (Nat × Message)) (c : UInt8)
  deriving DecidableEq, Repr

/-- `serves` tells the services from the clients. `nextId` and `log` are ghost state. -/
structure Sys where
  mailboxes : Mailboxes
  svcTable : SvcTable
  alive : Nat → Bool
  canIpc : Nat → Bool
  serves : Nat → Bool
  client : Nat → Client
  hand : Nat → Option Request
  nextId : Nat
  log : List Event

def ipcTypeKbdGet : Nat := 10

/-- The name 'kbd'. -/
def kbdName : List UInt8 := [0x6B, 0x62, 0x64]

/-- The tries of `spud_ipc_recv_retry`. -/
def recvTries : Nat := 50000

/-! ## The client -/

/-- `spud_*_rpc` up to the answer of the registry. -/
def rpcFind (s : Sys) (c : Nat) (name : List UInt8) (type : Nat) (payload : List UInt8)
    (outMax : Nat) : Sys :=
  let (t, svc) := svcQuery s.alive s.svcTable name
  let s := { s with svcTable := t }
  match svc with
  | none => s
  | some svc =>
    if svc = 0 then s
    else { s with client := Function.update s.client c (.found svc type payload outMax) }

/-- `spud_ipc_send` of the rpc. -/
def rpcSend (s : Sys) (c : Nat) : Sys :=
  match s.client c with
  | .found svc type payload outMax =>
    match doSend s.mailboxes (s.canIpc c) c svc type payload s.nextId with
    | none => { s with client := Function.update s.client c .idle }
    | some mailboxes =>
      { s with
        mailboxes
        client := Function.update s.client c (.waiting svc type s.nextId outMax 0)
        nextId := s.nextId + 1 }
  | _ => s

/-- One try of `spud_ipc_recv_retry`, and the end of the rpc when it is the last one. -/
def rpcRecv (s : Sys) (c : Nat) : Sys :=
  match s.client c with
  | .waiting svc type id outMax tries =>
    let (mailboxes, got) := ipcTryReceive s.mailboxes (s.canIpc c) c
    let s := { s with mailboxes }
    match got with
    | none =>
      let next := if tries + 1 < recvTries then .waiting svc type id outMax (tries + 1) else .idle
      { s with client := Function.update s.client c next }
    | some m =>
      let s := { s with client := Function.update s.client c .idle }
      if m.type ≠ type ∨ m.sender ≠ svc then s
      else { s with
        log := .rpcValue c svc type id m (m.payload.take (outMax - 1)) :: s.log }
  | _ => s

/-- The end of `SYS_READ`. A null character is none, and a bad buffer makes the call fail. -/
def keyResult (s : Sys) (c : Nat) (source : Option (Nat × Message)) (ch : UInt8) (bufOk : Bool) :
    Sys :=
  if ch = 0 ∨ bufOk = false then s else { s with log := .keyChar c source ch :: s.log }

/-- `SYS_READ`. `port` is the key that waits at the ports of the keyboard. -/
def sysRead (s : Sys) (c : Nat) (port : Option UInt8) (bufOk : Bool) : Sys :=
  let (t, kbd) := svcQuery s.alive s.svcTable kbdName
  let s := { s with svcTable := t }
  match kbd with
  | none => keyResult s c none (port.getD 0) bufOk
  | some k =>
    if k = 0 then keyResult s c none (port.getD 0) bufOk
    else
      match doSend s.mailboxes (s.canIpc c) c k ipcTypeKbdGet [0x67] s.nextId with
      | none => s
      | some mailboxes =>
        let (mailboxes, got) := ipcTryReceive mailboxes (s.canIpc c) c
        let s := { s with mailboxes, nextId := s.nextId + 1 }
        match got with
        | none => s
        | some m =>
          keyResult { s with log := .keyPopped c k m :: s.log } c (some (k, m))
            ((m.payload.take 8).headD 0) bufOk

/-! ## The service -/

/-- `spud_ipc_recv` of `spud_svc_serve`. -/
def svcTake (s : Sys) (p : Nat) : Sys :=
  let (mailboxes, got) := ipcTryReceive s.mailboxes (s.canIpc p) p
  { s with
    mailboxes
    hand := Function.update s.hand p (got.map fun m => ⟨m.sender, m.type, m.id⟩) }

/-- The handler, and `spud_ipc_reply` unless it refused. -/
def svcAnswer (s : Sys) (p : Nat) (resp : Option (List UInt8)) : Sys :=
  match s.hand p, resp with
  | some r, some resp =>
    let s := { s with hand := Function.update s.hand p none }
    match doSend s.mailboxes (s.canIpc p) p r.sender r.type resp r.id with
    | none => s
    | some mailboxes => { s with mailboxes }
  | _, _ => { s with hand := Function.update s.hand p none }

/-! ## Steps -/

inductive Op
  | spawn (p : Nat)
  | exit (p : Nat)
  | register (p : Nat) (name : List UInt8)
  | find (c : Nat) (name : List UInt8) (type : Nat) (payload : List UInt8) (outMax : Nat)
  | send (c : Nat)
  | recv (c : Nat)
  | read (c : Nat) (port : Option UInt8) (bufOk : Bool)
  | take (p : Nat)
  | answer (p : Nat) (resp : Option (List UInt8))
  deriving DecidableEq, Repr

def apply (s : Sys) : Op → Sys
  | .spawn p => { s with alive := Function.update s.alive p true }
  | .exit p =>
    { s with
      alive := Function.update s.alive p false
      client := Function.update s.client p .idle
      hand := Function.update s.hand p none }
  | .register p name => { s with svcTable := (svcRegister s.svcTable name p).getD s.svcTable }
  | .find c name type payload outMax => rpcFind s c name type payload outMax
  | .send c => rpcSend s c
  | .recv c => rpcRecv s c
  | .read c port bufOk => sysRead s c port bufOk
  | .take p => svcTake s p
  | .answer p resp => svcAnswer s p resp

/-- A process does one thing after the other, as a client or as a service. -/
def Allowed (s : Sys) : Op → Prop
  | .spawn p => p ≠ 0 ∧ s.alive p = false
  | .exit p => s.alive p = true
  | .register p _ => p ≠ 0 ∧ s.alive p = true ∧ s.serves p = true
  | .find c _ _ _ _ => c ≠ 0 ∧ s.alive c = true ∧ s.serves c = false ∧ s.client c = .idle
  | .send c => c ≠ 0 ∧ s.alive c = true ∧ s.serves c = false
  | .recv c => c ≠ 0 ∧ s.alive c = true ∧ s.serves c = false
  | .read c _ _ => c ≠ 0 ∧ s.alive c = true ∧ s.serves c = false ∧ s.client c = .idle
  | .take p => p ≠ 0 ∧ s.alive p = true ∧ s.serves p = true ∧ s.hand p = none
  | .answer p _ => p ≠ 0 ∧ s.alive p = true ∧ s.serves p = true

instance (s : Sys) (o : Op) : Decidable (Allowed s o) := by
  cases o <;> unfold Allowed <;> infer_instance

abbrev Step := Exec Allowed apply

def boot (serves canIpc : Nat → Bool) : Sys where
  mailboxes := ipcInit
  svcTable := svcInit
  alive := fun _ => false
  canIpc := canIpc
  serves := serves
  client := fun _ => .idle
  hand := fun _ => none
  nextId := 0
  log := []

/-! ## What a client is owed -/

/-- The reply that an rpc returns is to its own request, and keys come from 'kbd' only. -/
def Event.Correlated : Event → Prop
  | .rpcValue _ svc type id reply value =>
    reply.sender = svc ∧ reply.type = type ∧ reply.id = id ∧ ∃ n, value = reply.payload.take n
  | .keyPopped _ kbd m => m.sender = kbd ∧ m.type = ipcTypeKbdGet
  | .keyChar _ source c =>
    ∃ kbd m, source = some (kbd, m) ∧ m.sender = kbd ∧ m.type = ipcTypeKbdGet ∧ m.payload.head? = some c

/-- No message of this type between the client and the service is on its way. -/
def NoneOutstanding (s : Sys) (c svc type : Nat) : Prop :=
  (∀ m ∈ queueOf s.mailboxes c, m.sender = svc → m.type ≠ type) ∧
  (∀ m ∈ queueOf s.mailboxes svc, m.sender = c → m.type ≠ type) ∧
  (∀ r ∈ s.hand svc, r.sender = c → r.type ≠ type)

/-- The next message of the client is of no use to the rpc. -/
def Doomed (s : Sys) (c svc type : Nat) : Prop :=
  ∃ m, (queueOf s.mailboxes c).head? = some m ∧ ¬ (m.sender = svc ∧ m.type = type)

/-- An rpc is sent when no earlier request of its kind is on its way, or when it must fail anyway.
`SYS_READ` finds a message of 'kbd' or none first in the mailbox, and no key at the ports. -/
def Orderly (s : Sys) : Op → Prop
  | .send c =>
    match s.client c with
    | .found svc type _ _ => NoneOutstanding s c svc type ∨ Doomed s c svc type
    | _ => True
  | .read c port bufOk =>
    match (svcQuery s.alive s.svcTable kbdName).2.filter (· ≠ 0) with
    | some k => s.canIpc c = true → (mailboxFor s.mailboxes k).isSome = true →
        ∀ m ∈ (queueOf s.mailboxes c).head?, m.sender = k ∧ m.type = ipcTypeKbdGet
    | none => port.getD 0 = 0 ∨ bufOk = false
  | _ => True

end Siathos.Ipc
