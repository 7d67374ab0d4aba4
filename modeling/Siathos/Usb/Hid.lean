import Mathlib.Data.List.Forall2
import Siathos.Usb.Events

/-!
# Reading the keyboard's reports (`xhci.c`)

`xhci_kbd_read_hid` and the controller that completes its TDs. A call that polls and the controller
take their steps in any order.
-/

open Lib

namespace Siathos.Usb

def evtTransfer : BitVec 32 := 32

def codeSuccess : BitVec 32 := 1
def codeTrbError : BitVec 32 := 5
def codeShortPacket : BitVec 32 := 13

/-- `EV_CODE`. -/
def Trb.code (t : Trb) : BitVec 32 := (t.dw2 >>> 24) &&& 0xff

/-- `EV_LEN`: for a transfer event, the bytes that were not transferred. -/
def Trb.len (t : Trb) : BitVec 32 := t.dw2 &&& 0xffffff

/-- The addresses of `ep1_ring`, of `ep1_buf` and of the kernel. -/
structure Place where
  ring : BitVec 64
  buf : BitVec 64
  kernelPhys : BitVec 64
  deriving DecidableEq, Repr

def Place.trb (m : Place) (idx : Nat) : BitVec 64 := m.ring + BitVec.ofNat 64 (idx * 16)

/-- A transfer event for a TRB of the EP1 ring. -/
def Ours (m : Place) (e : Trb) : Prop := e.type = evtTransfer ∧ ∃ i, i < 15 ∧ e.pointer = m.trb i

instance (m : Place) (e : Trb) : Decidable (Ours m e) := inferInstanceAs (Decidable (_ ∧ _))

/-- What the controller does with a TD: the bytes that it transfers, and the event. -/
structure Report where
  event : Trb
  bytes : List (BitVec 8)
  deriving DecidableEq, Repr

/-- A call that is over: its `max`, what it returned and what it copied to its buffer. -/
structure Answer where
  max : BitVec 32
  ret : Int
  out : List (BitVec 8)
  deriving DecidableEq, Repr

/-- The driver and the controller. `sub` is nothing where `ep1_sub_idx` is -1, and `polling` is the
loop counter and the `max` of the call under way. `reports` and `answers` are histories. -/
structure Hid where
  kbd : Bool
  ep1 : World
  ep1Buf : List (BitVec 8)
  sub : Option Nat
  subTrb : BitVec 64
  polling : Option (Nat × BitVec 32)
  events : EventRing
  outstanding : List (BitVec 64)
  reports : List Report
  answers : List Answer

def Hid.init (m : Place) (kbd : Bool) : Hid where
  kbd := kbd
  ep1 := ringInit m.ring
  ep1Buf := List.replicate 8 0
  sub := none
  subTrb := 0
  polling := none
  events := EventRing.empty
  outstanding := []
  reports := []
  answers := []

namespace Hid

variable (m : Place)

def answer (s : Hid) (max : BitVec 32) (ret : Int) (out : List (BitVec 8)) : Hid :=
  { s with polling := none, answers := s.answers ++ [⟨max, ret, out⟩] }

/-- A new TD, up to its doorbell. -/
def submit (s : Hid) : Hid :=
  let ep1 := { s.ep1 with pending := (Call.readHid m.buf).requests m.kernelPhys }
  { s with
    ep1 := ep1.fill.publish.advance
    ep1Buf := List.replicate 8 0
    sub := some s.ep1.idx
    subTrb := m.trb s.ep1.idx
    outstanding := s.outstanding ++ [m.trb s.ep1.idx] }

/-- `xhci_kbd_read_hid` up to its loop. `buf` is whether the caller gives a buffer. -/
def call (s : Hid) (buf : Bool) (max : BitVec 32) : Hid :=
  if !s.kbd || !buf then s.answer max (-1) []
  else if s.sub = none then (s.submit m).answer max (-1) []
  else { s with polling := some (0, max) }

/-- The end of the call, with the event of its TD. -/
def reply (s : Hid) (ev : Trb) (max : BitVec 32) : Hid :=
  if ev.code ≠ codeSuccess then s.answer max (if ev.code = codeTrbError then -2 else -3) []
  else
    let len := min ev.len.toNat max.toNat
    s.answer max len (s.ep1Buf.take len)

/-- One turn of the loop. -/
def poll (s : Hid) : Hid :=
  match s.polling with
  | none => s
  | some (i, max) =>
    if i ≥ 256 then s.answer max (-1) []
    else match s.events.next with
      | none => s.answer max (-1) []
      | some ev =>
        let s := { s with events := s.events.take }
        if ev.type ≠ evtTransfer then { s with polling := some (i + 1, max) }
        else if ev.pointer ≠ s.subTrb then { s with polling := some (i + 1, max) }
        else { s with sub := none }.reply ev max

/-- The controller completes a TD. -/
def complete (s : Hid) (r : Report) : Hid :=
  { s with
    ep1Buf := r.bytes ++ s.ep1Buf.drop r.bytes.length
    outstanding := s.outstanding.erase r.event.pointer
    events := s.events.post r.event
    reports := s.reports ++ [r] }

/-- A call whose loop nothing disturbs. -/
def finish (s : Hid) (max : BitVec 32) : Hid := poll^[257] (s.call m true max)

end Hid

inductive HidOp
  | call (buf : Bool) (max : BitVec 32)
  | poll
  | complete (r : Report)
  | post (e : Trb)
  deriving DecidableEq, Repr

/-- The length field of a transfer event is the residual of the 8 bytes. The other events are for
other rings. -/
def HidAllowed (m : Place) (s : Hid) : HidOp → Prop
  | .call _ _ => s.polling = none
  | .poll => s.polling ≠ none
  | .complete r => r.event.pointer ∈ s.outstanding ∧ r.event.type = evtTransfer ∧
      r.event.cycle = s.events.pcs ∧ s.events.unread.length < 16 ∧ r.bytes.length ≤ 8 ∧
      r.event.len.toNat = 8 - r.bytes.length
  | .post e => ¬Ours m e ∧ e.cycle = s.events.pcs ∧ s.events.unread.length < 16

instance (m : Place) (s : Hid) : ∀ o, Decidable (HidAllowed m s o)
  | .call _ _ => inferInstanceAs (Decidable (_ = _))
  | .poll => inferInstanceAs (Decidable (_ ≠ _))
  | .complete _ => inferInstanceAs (Decidable (_ ∧ _ ∧ _ ∧ _ ∧ _ ∧ _))
  | .post _ => inferInstanceAs (Decidable (_ ∧ _ ∧ _))

def hidApply (m : Place) (s : Hid) : HidOp → Hid
  | .call buf max => s.call m buf max
  | .poll => s.poll
  | .complete r => s.complete r
  | .post e => { s with events := s.events.post e }

def HidStep (m : Place) : Hid → HidOp → Hid → Prop := Exec (HidAllowed m) (hidApply m)

/-! ## What the calls are for -/

/-- A packet of fewer than 8 bytes completes with the code Short Packet. -/
def Trb.Successful (e : Trb) : Prop := e.code = codeSuccess ∨ e.code = codeShortPacket

instance (e : Trb) : Decidable e.Successful := inferInstanceAs (Decidable (_ ∨ _))

/-- The call returns the report, as far as its `max` goes. -/
def Right (r : Report) (a : Answer) : Prop :=
  a.ret = min r.bytes.length a.max.toNat ∧ a.out = r.bytes.take a.max.toNat

instance (r : Report) (a : Answer) : Decidable (Right r a) := inferInstanceAs (Decidable (_ ∧ _))

/-- Each successful report is the answer of one call, and no other call has an answer. -/
def Settled (reports : List Report) (answers : List Answer) : Prop :=
  List.Forall₂ Right (reports.filter (·.event.Successful)) (answers.filter (0 ≤ ·.ret))

instance (reports : List Report) (answers : List Answer) : Decidable (Settled reports answers) :=
  inferInstanceAs (Decidable (List.Forall₂ _ _ _))

/-- At most one TD is outstanding. The successful reports are returned, but for one that the next
undisturbed call reads. Behind it a call submits a TD again. -/
structure Hid.Faithful (m : Place) (s : Hid) : Prop where
  one : s.outstanding.length ≤ 1
  settled : ∃ done waiting, s.reports = done ++ waiting ∧ Settled done s.answers ∧
    waiting.length ≤ 1 ∧ (s.sub = none → waiting = [])
  reads : s.kbd = true → s.polling = none → s.outstanding = [] → s.sub ≠ none →
    ∀ max, (s.finish m max).sub = none
  submits : s.kbd = true → s.polling = none → s.sub = none → ∀ max, (s.finish m max).outstanding.length = 1

end Siathos.Usb
