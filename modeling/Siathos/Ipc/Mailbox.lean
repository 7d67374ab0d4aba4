import Siathos.Lib.Ring

/-!
# Mailboxes (`ipc.c`)

The table of 64 mailboxes, each a ring of 64 messages. `queueOf` is the queue that a process sees.
-/

open Lib

namespace Siathos.Ipc

def mailboxMax : Nat := 64

def ipcQueueMax : Nat := 64

def ipcMsgMax : Nat := 4096

/-- `ipc_message_t`. `id` is ghost state: the request that the message is, or that it answers. -/
structure Message where
  sender : Nat
  receiver : Nat
  type : Nat
  payload : List UInt8
  id : Nat
  deriving DecidableEq, Repr, Inhabited

structure Mailbox where
  pid : Nat
  msgs : Ring Message ipcQueueMax

abbrev Mailboxes := List Mailbox

def emptyMailbox (pid : Nat) : Mailbox := ⟨pid, Ring.empty (by decide)⟩

/-- `ipc_init`. -/
def ipcInit : Mailboxes := List.replicate mailboxMax (emptyMailbox 0)

/-- Takes the first free mailbox for the process. -/
def claimFree (pid : Nat) : Mailboxes → Option Mailboxes
  | [] => none
  | mb :: rest =>
    if mb.pid = 0 then some (emptyMailbox pid :: rest) else (claimFree pid rest).map (mb :: ·)

/-- `mailbox_for`: the table in which the process has a mailbox. -/
def mailboxFor (mbs : Mailboxes) (pid : Nat) : Option Mailboxes :=
  if mbs.any (fun mb => mb.pid = pid) then some mbs else claimFree pid mbs

/-- Changes the ring of the mailbox that `mailbox_for` found. -/
def updateMailbox (pid : Nat) (f : Ring Message ipcQueueMax → Ring Message ipcQueueMax) :
    Mailboxes → Mailboxes
  | [] => []
  | mb :: rest =>
    if mb.pid = pid then { mb with msgs := f mb.msgs } :: rest else mb :: updateMailbox pid f rest

/-- `mailbox_push`. -/
def mailboxPush (m : Message) (msgs : Ring Message ipcQueueMax) : Ring Message ipcQueueMax :=
  msgs.push m

/-- `do_send`. Nothing where it returns an error. The kernel writes the sender. -/
def doSend (mbs : Mailboxes) (canIpc : Bool) (sender to_ type : Nat) (data : List UInt8) (id : Nat) :
    Option Mailboxes := do
  guard canIpc
  let mbs ← mailboxFor mbs to_
  pure (updateMailbox to_ (mailboxPush ⟨sender, to_, type, data.take ipcMsgMax, id⟩) mbs)

/-- `ipc_try_receive`: the table it leaves, and the message it took. -/
def ipcTryReceive (mbs : Mailboxes) (canIpc : Bool) (me : Nat) : Mailboxes × Option Message :=
  if !canIpc then (mbs, none)
  else match mailboxFor mbs me with
    | none => (mbs, none)
    | some mbs =>
      match (mbs.find? (fun mb => mb.pid = me)).bind (fun mb => mb.msgs.pop) with
      | none => (mbs, none)
      | some (m, msgs) => (updateMailbox me (fun _ => msgs) mbs, some m)

/-! ## The queue of a process -/

def queueOf (mbs : Mailboxes) (pid : Nat) : List Message :=
  match mbs.find? (fun mb => mb.pid = pid) with
  | some mb => mb.msgs.toList
  | none => []

theorem claimFree_queueOf {mbs mbs' : Mailboxes} {pid q : Nat} (h : claimFree pid mbs = some mbs')
    (hnone : mbs.any (fun mb => mb.pid = pid) = false) (hq : q ≠ 0) :
    queueOf mbs' q = queueOf mbs q := by
  induction mbs generalizing mbs' with
  | nil => simp [claimFree] at h
  | cons mb rest ih =>
    simp only [List.any_cons, Bool.or_eq_false_iff, decide_eq_false_iff_not] at hnone
    unfold claimFree at h
    by_cases hfree : mb.pid = 0
    · rw [if_pos hfree] at h
      obtain rfl := Option.some.inj h
      have hmb : mb.pid ≠ q := hfree ▸ Ne.symm hq
      by_cases hpid : pid = q
      · subst hpid
        have hrest : rest.find? (fun mb => mb.pid = pid) = none := by
          simpa [List.find?_eq_none] using hnone.2
        simp [queueOf, emptyMailbox, hmb, hrest]
      · simp [queueOf, emptyMailbox, hmb, hpid]
    · rw [if_neg hfree] at h
      obtain ⟨rest', hrest, rfl⟩ := Option.map_eq_some_iff.mp h
      have htail := ih hrest hnone.2
      by_cases hmb : mb.pid = q
      · simp [queueOf, hmb]
      · simpa [queueOf, hmb] using htail

theorem mailboxFor_queueOf {mbs mbs' : Mailboxes} {pid q : Nat} (h : mailboxFor mbs pid = some mbs')
    (hq : q ≠ 0) : queueOf mbs' q = queueOf mbs q := by
  unfold mailboxFor at h
  split at h
  · rw [Option.some.inj h]
  · rename_i hnone
    exact claimFree_queueOf h (by simpa using hnone) hq

theorem find?_updateMailbox_of_ne {pid q : Nat}
    (f : Ring Message ipcQueueMax → Ring Message ipcQueueMax) (hq : q ≠ pid) (mbs : Mailboxes) :
    (updateMailbox pid f mbs).find? (fun mb => mb.pid = q) = mbs.find? (fun mb => mb.pid = q) := by
  induction mbs with
  | nil => rfl
  | cons mb rest ih =>
    unfold updateMailbox
    by_cases hmb : mb.pid = pid
    · have hne : mb.pid ≠ q := hmb ▸ Ne.symm hq
      simp [hmb, Ne.symm hq]
    · rw [if_neg hmb, List.find?_cons, List.find?_cons, ih]

theorem find?_updateMailbox_self (pid : Nat)
    (f : Ring Message ipcQueueMax → Ring Message ipcQueueMax) (mbs : Mailboxes) :
    (updateMailbox pid f mbs).find? (fun mb => mb.pid = pid) =
      (mbs.find? (fun mb => mb.pid = pid)).map (fun mb => { mb with msgs := f mb.msgs }) := by
  induction mbs with
  | nil => rfl
  | cons mb rest ih =>
    unfold updateMailbox
    by_cases hmb : mb.pid = pid
    · simp [hmb]
    · rw [if_neg hmb, List.find?_cons, List.find?_cons, ih]
      simp [hmb]

theorem doSend_eq_none {mbs : Mailboxes} {canIpc : Bool} {sender to_ type id : Nat} {data : List UInt8} :
    doSend mbs canIpc sender to_ type data id = none ↔ canIpc = false ∨ mailboxFor mbs to_ = none := by
  unfold doSend
  cases canIpc with
  | false => simp [guard, failure]
  | true => cases mailboxFor mbs to_ <;> simp [guard]

theorem doSend_queueOf {mbs mbs' : Mailboxes} {canIpc : Bool} {sender to_ type id : Nat}
    {data : List UInt8} (h : doSend mbs canIpc sender to_ type data id = some mbs') {q : Nat}
    (hq : q ≠ 0) :
    (q ≠ to_ → queueOf mbs' q = queueOf mbs q) ∧
      (queueOf mbs' to_ = queueOf mbs to_ ∨ to_ = 0 ∨
        queueOf mbs' to_ = queueOf mbs to_ ++ [⟨sender, to_, type, data.take ipcMsgMax, id⟩]) := by
  obtain ⟨-, -, h⟩ := Option.bind_eq_some_iff.mp h
  obtain ⟨mid, hmid, h⟩ := Option.bind_eq_some_iff.mp h
  obtain rfl := Option.some.inj h
  constructor
  · intro hne
    rw [← mailboxFor_queueOf hmid hq, queueOf, find?_updateMailbox_of_ne _ hne, queueOf]
  · by_cases hto : to_ = 0
    · exact Or.inr (Or.inl hto)
    · rw [← mailboxFor_queueOf hmid hto, queueOf, find?_updateMailbox_self, queueOf]
      cases mid.find? (fun mb => mb.pid = to_) with
      | none => exact Or.inl rfl
      | some mb =>
        simp only [Option.map_some, mailboxPush, Ring.toList_push]
        split
        · exact Or.inr (Or.inr rfl)
        · exact Or.inl rfl

theorem ipcTryReceive_queueOf (mbs : Mailboxes) (canIpc : Bool) {me : Nat} (hme : me ≠ 0) :
    (∀ q, q ≠ 0 → q ≠ me → queueOf (ipcTryReceive mbs canIpc me).1 q = queueOf mbs q) ∧
      match (ipcTryReceive mbs canIpc me).2 with
      | none => queueOf (ipcTryReceive mbs canIpc me).1 me = queueOf mbs me
      | some m => queueOf mbs me = m :: queueOf (ipcTryReceive mbs canIpc me).1 me := by
  unfold ipcTryReceive
  split
  · exact ⟨fun _ _ _ => rfl, rfl⟩
  split
  · exact ⟨fun _ _ _ => rfl, rfl⟩
  rename_i mid hmid
  split
  · exact ⟨fun q hq _ => mailboxFor_queueOf hmid hq, mailboxFor_queueOf hmid hme⟩
  rename_i m msgs hpop
  obtain ⟨mb, hmb, hpop⟩ := Option.bind_eq_some_iff.mp hpop
  constructor
  · intro q hq hne
    rw [queueOf, find?_updateMailbox_of_ne _ hne, ← mailboxFor_queueOf hmid hq, queueOf]
  · simp only
    rw [← mailboxFor_queueOf hmid hme]
    simp only [queueOf, find?_updateMailbox_self, hmb, Option.map_some]
    exact Ring.toList_of_pop hpop

end Siathos.Ipc
