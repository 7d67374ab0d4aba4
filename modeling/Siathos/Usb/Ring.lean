import Mathlib.Data.BitVec
import Mathlib.Logic.Function.Basic
import Siathos.Lib.Run

/-!
# The producer rings of the xHCI driver (`xhci.c`)

One ring of 16 TRBs with a Link TRB in the last, the calls that write TRBs to it, and the
controller that reads them. The command ring, the EP0 ring and the EP1 ring share `ring_init` and
`advance`.
-/

open Lib

namespace Siathos.Usb

/-! ## TRBs -/

structure Trb where
  dw0 : BitVec 32
  dw1 : BitVec 32
  dw2 : BitVec 32
  dw3 : BitVec 32
  deriving DecidableEq, Repr

namespace Trb

def cycle (t : Trb) : Bool := t.dw3.getLsbD 0

def type (t : Trb) : BitVec 32 := (t.dw3 >>> 10) &&& 0x3f

/-- The bit TC of a Link TRB. -/
def toggle (t : Trb) : Bool := t.dw3.getLsbD 1

def pointer (t : Trb) : BitVec 64 := t.dw1 ++ t.dw0

end Trb

def trbNormal : BitVec 32 := 1
def trbSetup : BitVec 32 := 2
def trbData : BitVec 32 := 3
def trbStatus : BitVec 32 := 4
def trbLink : BitVec 32 := 6

def trbIoc : BitVec 32 := 0x20
def trbIdt : BitVec 32 := 0x40
def trbIchn : BitVec 32 := 0x10
def trbDirIn : BitVec 32 := 0x10000
def trbTc : BitVec 32 := 2

/-- A cycle state as the low bit of a word. -/
def bitOf (ccs : Bool) : BitVec 32 := if ccs then 1 else 0

def low (addr : BitVec 64) : BitVec 32 := addr.setWidth 32
def high (addr : BitVec 64) : BitVec 32 := (addr >>> 32).setWidth 32

def linkControl (ccs : Bool) : BitVec 32 := (trbLink <<< 10) ||| trbTc ||| bitOf ccs

/-! ## What the calls write -/

/-- The command types of `cmd_run`. -/
inductive Command
  | enableSlot
  | addressDevice
  | configureEndpoint
  deriving DecidableEq, Repr

def Command.type : Command → BitVec 32
  | enableSlot => 9
  | addressDevice => 11
  | configureEndpoint => 12

inductive Request
  | command (ptr : BitVec 64) (dw2 slotid : BitVec 32) (type : Command)
  | setup (bmr breq : BitVec 8) (wv wi wl : BitVec 16)
  | data (pa : BitVec 64) (wl : BitVec 16) (dirin : Bool)
  | status (dirin : Bool)
  | normal (pa : BitVec 64)
  deriving DecidableEq, Repr

/-- The TRB of a request, under the producer's cycle state. -/
def Request.trb (r : Request) (ccs : Bool) : Trb :=
  match r with
  | command ptr dw2 slotid type =>
    ⟨low ptr, high ptr, dw2, (type.type <<< 10) ||| ((slotid &&& 0xff) <<< 24) ||| bitOf ccs⟩
  | setup bmr breq wv wi wl =>
    ⟨bmr.setWidth 32 ||| (breq.setWidth 32 <<< 8) ||| (wv.setWidth 32 <<< 16),
      wi.setWidth 32 ||| (wl.setWidth 32 <<< 16), 8, (trbSetup <<< 10) ||| trbIdt ||| bitOf ccs⟩
  | data pa wl dirin =>
    ⟨low pa, high pa, wl.setWidth 32,
      (trbData <<< 10) ||| trbIchn ||| (if dirin then trbDirIn else 0) ||| bitOf ccs⟩
  | status dirin =>
    ⟨0, 0, 0, (trbStatus <<< 10) ||| trbIoc ||| (if dirin then 0 else trbDirIn) ||| bitOf ccs⟩
  | normal pa => ⟨low pa, high pa, 8, (trbNormal <<< 10) ||| trbIoc ||| bitOf ccs⟩

/-- The kernel's part of the address space is shifted, the rest is mapped to itself. -/
def vaToPhys (kernelPhys v : BitVec 64) : BitVec 64 :=
  if v.toNat ≥ 0xffffffff80000000 then v - 0xffffffff80000000 + kernelPhys else v

inductive Producer
  | command
  | ep0
  | ep1
  deriving DecidableEq, Repr

inductive Call
  | cmdRun (ptr : BitVec 64) (dw2 slotid : BitVec 32) (type : Command)
  | ep0Setup (bmr breq : BitVec 8) (wv wi wl : BitVec 16) (data : BitVec 64) (dirin : Bool)
  | readHid (ep1Buf : BitVec 64)
  deriving DecidableEq, Repr

/-- The ring that a call writes to. -/
def Call.producer : Call → Producer
  | cmdRun .. => .command
  | ep0Setup .. => .ep0
  | readHid _ => .ep1

def Call.requests (kernelPhys : BitVec 64) : Call → List Request
  | cmdRun ptr dw2 slotid type => [.command ptr dw2 slotid type]
  | ep0Setup bmr breq wv wi wl data dirin =>
    .setup bmr breq wv wi wl ::
      if data ≠ 0 ∧ wl ≠ 0 then [.data (vaToPhys kernelPhys data) wl dirin, .status dirin]
      else [.status dirin]
  | readHid ep1Buf => [.normal (vaToPhys kernelPhys ep1Buf)]

/-! ## The ring and its two sides -/

/-- Where the producer is with a TRB: it writes the first three words, then the word with the cycle
bit, and then calls `advance`. -/
inductive Phase
  | idle
  | filled
  | written
  deriving DecidableEq, Repr

/-- A ring, its producer and its consumer. `pending` is what the call under way has yet to write.
`enqueued` and `processed` are histories. -/
structure World where
  ring : Nat → Trb
  idx : Nat
  ccs : Bool
  pending : List Request
  phase : Phase
  deq : Nat
  dcs : Bool
  enqueued : List Trb
  processed : List Trb

/-- `ring_init`, and the controller told to start at the first TRB with the cycle state 1. -/
def ringInit (base : BitVec 64) : World where
  ring i := if i = 15 then ⟨low base, high base, 0, linkControl true⟩ else ⟨0, 0, 0, 0⟩
  idx := 0
  ccs := true
  pending := []
  phase := .idle
  deq := 0
  dcs := true
  enqueued := []
  processed := []

namespace World

/-- The first three words of the next TRB. -/
def fill (s : World) : World :=
  match s.pending with
  | r :: _ =>
    { s with
      ring := Function.update s.ring s.idx { r.trb s.ccs with dw3 := (s.ring s.idx).dw3 }
      phase := .filled }
  | [] => s

/-- The last word of the next TRB. -/
def publish (s : World) : World :=
  match s.pending with
  | r :: rest =>
    { s with
      ring := Function.update s.ring s.idx { s.ring s.idx with dw3 := (r.trb s.ccs).dw3 }
      pending := rest
      phase := .written
      enqueued := s.enqueued ++ [r.trb s.ccs] }
  | [] => s

def advance (s : World) : World :=
  if s.idx + 1 ≥ 15 then
    { s with
      ring := Function.update s.ring 15 { s.ring 15 with dw3 := linkControl !s.ccs }
      idx := 0
      ccs := !s.ccs
      phase := .idle }
  else { s with idx := s.idx + 1, phase := .idle }

/-- The controller at its dequeue pointer. -/
def consume (base : BitVec 64) (s : World) : World :=
  let t := s.ring s.deq
  if t.cycle ≠ s.dcs then s
  else if t.type = trbLink then
    { s with deq := ((t.pointer - base) / 16).toNat, dcs := s.dcs ^^ t.toggle }
  else { s with deq := s.deq + 1, processed := s.processed ++ [t] }

end World

inductive Op
  | call (c : Call)
  | fill
  | publish
  | advance
  | consume
  deriving DecidableEq, Repr

/-- The producer writes a TRB only while the consumer lags by less than the ring's 15 TRBs. -/
def Allowed (p : Producer) (s : World) : Op → Prop
  | .call c => c.producer = p ∧ s.pending = [] ∧ s.phase = .idle
  | .fill => s.pending ≠ [] ∧ s.phase = .idle ∧ s.enqueued.length < s.processed.length + 15
  | .publish => s.phase = .filled
  | .advance => s.phase = .written
  | .consume => True

instance (p : Producer) (s : World) : ∀ o, Decidable (Allowed p s o)
  | .call _ => inferInstanceAs (Decidable (_ ∧ _ ∧ _))
  | .fill => inferInstanceAs (Decidable (_ ∧ _ ∧ _))
  | .publish => inferInstanceAs (Decidable (_ = _))
  | .advance => inferInstanceAs (Decidable (_ = _))
  | .consume => isTrue trivial

def apply (base kernelPhys : BitVec 64) (s : World) : Op → World
  | .call c => { s with pending := c.requests kernelPhys }
  | .fill => s.fill
  | .publish => s.publish
  | .advance => s.advance
  | .consume => s.consume base

def Step (p : Producer) (base kernelPhys : BitVec 64) : World → Op → World → Prop :=
  Exec (Allowed p) (apply base kernelPhys)

/-! ## What a ring is for -/

/-- The consumer can go on to the last TRB enqueued, with no more from the producer. -/
def Completes (base : BitVec 64) (s : World) : Prop :=
  ∃ n, ((World.consume base)^[n] s).processed = s.enqueued

/-- The consumer has processed the TRBs enqueued in their order, each once and no others, and the
rest are not lost. -/
def Faithful (base : BitVec 64) (s : World) : Prop :=
  s.processed <+: s.enqueued ∧ Completes base s

end Siathos.Usb
