import Siathos.Ipc.Mailbox
import Siathos.Lib.Run

/-!
# Processes that exchange messages

Any process sends to any number and receives from its own mailbox, in any order. Processes come and
go, and no number is used twice.
-/

open Lib

namespace Siathos.Ipc.Post

/-- `do_send`, behind `ipc_send` and `ipc_reply`: the table it leaves, and its result. -/
def ipcSend (mbs : Mailboxes) (canIpc : Bool) (sender dst type : Nat) (data : List UInt8) : Mailboxes × Int :=
  match doSend mbs canIpc sender dst type data 0 with
  | some mbs => (mbs, 0)
  | none => (mbs, if canIpc then -2 else -1)

/-- What a receive hands to its caller. -/
structure Receipt where
  sender : Nat
  type : Nat
  payload : List UInt8
  deriving DecidableEq, Repr

/-- `ipc_try_receive`. `ipc_receive` does the same in each turn of its loop, and blocks on -3. -/
def ipcReceive (mbs : Mailboxes) (canIpc : Bool) (me max : Nat) : Mailboxes × Except Int Receipt :=
  match ipcTryReceive mbs canIpc me with
  | (mbs', some m) => (mbs', .ok ⟨m.sender, m.type, m.payload.take max⟩)
  | (mbs', none) =>
    (mbs', .error (if !canIpc then -1 else if (mailboxFor mbs me).isNone then -2 else -3))

/-- `sent` and `got` are ghost state: the messages of the sends that returned 0, by target, and what
each process received, with the size of its buffer. -/
structure Sys where
  mailboxes : Mailboxes
  live : List Nat
  nextPid : Nat
  sent : Nat → List Message
  got : Nat → List (Receipt × Nat)

def boot : Sys where
  mailboxes := ipcInit
  live := [1]
  nextPid := 2
  sent := fun _ => []
  got := fun _ => []

inductive Op
  | send (sender dst type : Nat) (canIpc : Bool) (data : List UInt8)
  | receive (me max : Nat) (canIpc : Bool)
  | create
  | exit (pid : Nat)

def send (s : Sys) (sender dst type : Nat) (canIpc : Bool) (data : List UInt8) : Sys :=
  match ipcSend s.mailboxes canIpc sender dst type data with
  | (mailboxes, 0) => { s with
      mailboxes
      sent := Function.update s.sent dst
        (s.sent dst ++ [⟨sender, dst, type, data.take ipcMsgMax, 0⟩]) }
  | (mailboxes, _) => { s with mailboxes }

def receive (s : Sys) (me max : Nat) (canIpc : Bool) : Sys :=
  match ipcReceive s.mailboxes canIpc me max with
  | (mailboxes, .ok r) => { s with mailboxes, got := Function.update s.got me (s.got me ++ [(r, max)]) }
  | (mailboxes, .error _) => { s with mailboxes }

def apply (s : Sys) : Op → Sys
  | .send sender dst type canIpc data => send s sender dst type canIpc data
  | .receive me max canIpc => receive s me max canIpc
  | .create => { s with live := s.nextPid :: s.live, nextPid := s.nextPid + 1 }
  | .exit pid => { s with live := s.live.erase pid }

/-- `MAX_PROCS`. -/
def maxProcs : Nat := 64

def Allowed (s : Sys) : Op → Prop
  | .send sender _ _ _ _ => sender ∈ s.live
  | .receive me _ _ => me ∈ s.live
  | .create => s.live.length < maxProcs
  | .exit pid => pid ∈ s.live

instance (s : Sys) (o : Op) : Decidable (Allowed s o) := by
  cases o <;> dsimp only [Allowed] <;> infer_instance

abbrev Step := Exec Allowed apply

/-! ## What a step does -/

/-- A call takes a mailbox for the process, which has none. -/
def Claims (mbs : Mailboxes) (pid : Nat) : Prop := pid ≠ 0 ∧ ∀ mb ∈ mbs, mb.pid ≠ pid

instance (mbs : Mailboxes) (pid : Nat) : Decidable (Claims mbs pid) := inferInstanceAs (Decidable (_ ∧ _))

def HasFree (mbs : Mailboxes) : Prop := ∃ mb ∈ mbs, mb.pid = 0

instance (mbs : Mailboxes) : Decidable (HasFree mbs) := inferInstanceAs (Decidable (∃ _ ∈ _, _))

theorem claimFree_eq_none {mbs : Mailboxes} {pid : Nat} : claimFree pid mbs = none ↔ ¬ HasFree mbs := by
  unfold HasFree
  induction mbs with
  | nil => simp [claimFree]
  | cons mb rest ih =>
    unfold claimFree
    split
    · rename_i h
      simp [h]
    · rename_i h
      simp [h, ih]

theorem mailboxFor_eq_none {mbs : Mailboxes} {pid : Nat} :
    mailboxFor mbs pid = none ↔ (∀ mb ∈ mbs, mb.pid ≠ pid) ∧ ¬ HasFree mbs := by
  unfold mailboxFor
  split
  · rename_i h
    simp only [List.any_eq_true, decide_eq_true_eq] at h
    obtain ⟨mb, hmb, hpid⟩ := h
    refine iff_of_false (Option.some_ne_none mbs) ?_
    rintro ⟨hall, -⟩
    exact hall mb hmb hpid
  · rename_i h
    rw [claimFree_eq_none]
    refine (and_iff_right ?_).symm
    simpa using h

theorem mailboxFor_cases {mbs mbs' : Mailboxes} {pid : Nat} (h : mailboxFor mbs pid = some mbs') :
    mbs' = mbs ∧ (∃ mb ∈ mbs, mb.pid = pid) ∨ Claims mbs pid ∧ claimFree pid mbs = some mbs' := by
  unfold mailboxFor at h
  split at h
  · rename_i hany
    simp only [List.any_eq_true, decide_eq_true_eq] at hany
    exact Or.inl ⟨(Option.some.inj h).symm, hany⟩
  · rename_i hnone
    simp only [List.any_eq_true, decide_eq_true_eq, not_exists, not_and] at hnone
    refine Or.inr ⟨⟨?_, hnone⟩, h⟩
    rintro rfl
    have hfree : HasFree mbs := by
      by_contra hno
      rw [claimFree_eq_none.mpr hno] at h
      cases h
    obtain ⟨mb, hmb, hpid⟩ := hfree
    exact hnone mb hmb hpid

end Siathos.Ipc.Post
