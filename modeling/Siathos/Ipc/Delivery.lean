import Siathos.Ipc.Post
import Mathlib.Data.List.Forall2

/-!
# Messages arrive once and in order

What was sent to a process is what it received and what waits in its mailbox, as long as no send finds
the mailbox full and no mailbox changes hands with a message in it.
-/

open Lib

namespace Siathos.Ipc.Post

/-! ## The queue of no process -/

/-- Only the first free mailbox may hold messages: those that were sent to the number 0. -/
def SpareEmpty : Mailboxes → Prop
  | [] => True
  | mb :: rest =>
    if mb.pid = 0 then ∀ x ∈ rest, x.pid = 0 → x.msgs.toList = [] else SpareEmpty rest

theorem spareEmpty_init : SpareEmpty ipcInit := by
  unfold ipcInit mailboxMax
  rw [List.replicate_succ]
  intro x hx _
  rw [List.eq_of_mem_replicate hx]
  rfl

theorem spareEmpty_of_empty {mbs : Mailboxes} (h : ∀ x ∈ mbs, x.pid = 0 → x.msgs.toList = []) : SpareEmpty mbs := by
  induction mbs with
  | nil => trivial
  | cons mb rest ih =>
    obtain ⟨-, hrest⟩ := List.forall_mem_cons.mp h
    unfold SpareEmpty
    split
    · exact hrest
    · exact ih hrest

theorem queueOf_of_empty {mbs : Mailboxes} (h : ∀ x ∈ mbs, x.pid = 0 → x.msgs.toList = []) : queueOf mbs 0 = [] := by
  unfold queueOf
  cases hfind : mbs.find? fun mb => mb.pid = 0 with
  | none => rfl
  | some mb => exact h mb (List.mem_of_find?_eq_some hfind) (by simpa using List.find?_some hfind)

theorem queueOf_cons_ne {mb : Mailbox} {rest : Mailboxes} {pid : Nat} (h : mb.pid ≠ pid) :
    queueOf (mb :: rest) pid = queueOf rest pid := by
  simp [queueOf, h]

theorem SpareEmpty.claim {mbs mbs' : Mailboxes} {pid : Nat} (h : SpareEmpty mbs) (hpid : pid ≠ 0)
    (hclaim : claimFree pid mbs = some mbs') : SpareEmpty mbs' ∧ queueOf mbs' 0 = [] := by
  induction mbs generalizing mbs' with
  | nil => cases hclaim
  | cons mb rest ih =>
    unfold claimFree at hclaim
    unfold SpareEmpty at h
    by_cases hfree : mb.pid = 0
    · rw [if_pos hfree] at hclaim h
      obtain rfl := Option.some.inj hclaim
      have hempty : ∀ x ∈ emptyMailbox pid :: rest, x.pid = 0 → x.msgs.toList = [] := by
        rintro x hx h0
        rcases List.mem_cons.mp hx with rfl | hx
        · exact absurd h0 hpid
        · exact h x hx h0
      exact ⟨spareEmpty_of_empty hempty, queueOf_of_empty hempty⟩
    · rw [if_neg hfree] at hclaim h
      obtain ⟨rest', hrest, rfl⟩ := Option.map_eq_some_iff.mp hclaim
      obtain ⟨hspare, hqueue⟩ := ih h hrest
      refine ⟨?_, ?_⟩
      · unfold SpareEmpty
        rwa [if_neg hfree]
      · rwa [queueOf_cons_ne hfree]

theorem mem_updateMailbox_of_ne {mbs : Mailboxes} {pid : Nat} {f : Ring Message ipcQueueMax → Ring Message ipcQueueMax}
    {x : Mailbox} (hx : x ∈ updateMailbox pid f mbs) (hne : x.pid ≠ pid) : x ∈ mbs := by
  induction mbs with
  | nil => exact hx
  | cons mb rest ih =>
    unfold updateMailbox at hx
    split at hx
    · rename_i hmb
      rcases List.mem_cons.mp hx with rfl | hx
      · exact absurd hmb hne
      · exact List.mem_cons_of_mem _ hx
    · rcases List.mem_cons.mp hx with rfl | hx
      · exact List.mem_cons_self
      · exact List.mem_cons_of_mem _ (ih hx)

theorem SpareEmpty.update {mbs : Mailboxes} (h : SpareEmpty mbs) (pid : Nat)
    (f : Ring Message ipcQueueMax → Ring Message ipcQueueMax) : SpareEmpty (updateMailbox pid f mbs) := by
  induction mbs with
  | nil => trivial
  | cons mb rest ih =>
    unfold SpareEmpty at h
    unfold updateMailbox
    split
    · unfold SpareEmpty
      exact h
    · rename_i hne
      unfold SpareEmpty
      split
      · rename_i hfree
        rw [if_pos hfree] at h
        intro x hx h0
        have hxne : x.pid ≠ pid := by
          rw [h0, ← hfree]
          exact hne
        exact h x (mem_updateMailbox_of_ne hx hxne) h0
      · rename_i hfree
        rw [if_neg hfree] at h
        exact ih h

/-! ## Calls that find room -/

/-- The send finds room, and no mailbox with a message in it changes hands. -/
def Room (s : Sys) : Op → Prop
  | .send _ dst _ canIpc _ => canIpc = true → HasFree s.mailboxes ∨ (∃ mb ∈ s.mailboxes, mb.pid = dst) →
      (queueOf s.mailboxes dst).length < ipcQueueMax ∧ (Claims s.mailboxes dst → queueOf s.mailboxes 0 = [])
  | .receive me _ canIpc => canIpc = true → HasFree s.mailboxes → Claims s.mailboxes me → queueOf s.mailboxes 0 = []
  | _ => True

instance (s : Sys) : (o : Op) → Decidable (Room s o)
  | .send .. => inferInstanceAs (Decidable (_ → _ ∨ (∃ _ ∈ _, _) → _ ∧ (_ → _)))
  | .receive .. => inferInstanceAs (Decidable (_ → _ → _ → _))
  | .create | .exit _ => isTrue trivial

theorem SpareEmpty.mailboxFor {mbs mbs' : Mailboxes} {pid : Nat} (h : SpareEmpty mbs)
    (hbox : mailboxFor mbs pid = some mbs') (hempty : Claims mbs pid → queueOf mbs 0 = []) :
    SpareEmpty mbs' ∧ ∀ q, queueOf mbs' q = queueOf mbs q := by
  rcases mailboxFor_cases hbox with ⟨rfl, -⟩ | ⟨hclaims, hfree⟩
  · exact ⟨h, fun _ => rfl⟩
  · obtain ⟨hspare, hzero⟩ := h.claim hclaims.1 hfree
    refine ⟨hspare, fun q => ?_⟩
    by_cases hq : q = 0
    · subst hq
      rw [hzero, hempty hclaims]
    · exact mailboxFor_queueOf hbox hq

theorem queueOf_update_of_ne {mbs : Mailboxes} {pid q : Nat} (f : Ring Message ipcQueueMax → Ring Message ipcQueueMax)
    (hq : q ≠ pid) : queueOf (updateMailbox pid f mbs) q = queueOf mbs q := by
  unfold queueOf
  rw [find?_updateMailbox_of_ne f hq]

theorem exists_of_mailboxFor {mbs mbs' : Mailboxes} {pid : Nat} (h : mailboxFor mbs pid = some mbs') :
    HasFree mbs ∨ ∃ mb ∈ mbs, mb.pid = pid := by
  by_contra hno
  obtain ⟨hfree, hnone⟩ := not_or.mp hno
  have hbox : mailboxFor mbs pid = none :=
    mailboxFor_eq_none.mpr ⟨fun mb hmb hpid => hnone ⟨mb, hmb, hpid⟩, hfree⟩
  rw [hbox] at h
  cases h

theorem find?_of_mailboxFor {mbs mbs' : Mailboxes} {pid : Nat} (h : mailboxFor mbs pid = some mbs') :
    ∃ mb, mbs'.find? (fun mb => mb.pid = pid) = some mb := by
  rw [← Option.isSome_iff_exists, List.find?_isSome]
  rcases mailboxFor_cases h with ⟨rfl, mb, hmb, hpid⟩ | ⟨-, hclaim⟩
  · exact ⟨mb, hmb, by simpa using hpid⟩
  · clear h
    induction mbs generalizing mbs' with
    | nil => cases hclaim
    | cons mb rest ih =>
      unfold claimFree at hclaim
      split at hclaim
      · obtain rfl := Option.some.inj hclaim
        exact ⟨emptyMailbox pid, List.mem_cons_self, decide_eq_true rfl⟩
      · obtain ⟨rest', hrest, rfl⟩ := Option.map_eq_some_iff.mp hclaim
        obtain ⟨x, hx, hpid⟩ := ih hrest
        exact ⟨x, List.mem_cons_of_mem _ hx, hpid⟩

theorem doSend_some {mbs mbs' : Mailboxes} {canIpc : Bool} {sender dst type : Nat} {data : List UInt8}
    (h : doSend mbs canIpc sender dst type data 0 = some mbs') :
    canIpc = true ∧ (HasFree mbs ∨ ∃ mb ∈ mbs, mb.pid = dst) := by
  cases canIpc with
  | false => cases h
  | true =>
    obtain ⟨-, -, h⟩ := Option.bind_eq_some_iff.mp h
    obtain ⟨mid, hmid, -⟩ := Option.bind_eq_some_iff.mp h
    exact ⟨rfl, exists_of_mailboxFor hmid⟩

theorem doSend_delivers {mbs mbs' : Mailboxes} {sender dst type : Nat} {data : List UInt8} (h : SpareEmpty mbs)
    (hsend : doSend mbs true sender dst type data 0 = some mbs') (hroom : (queueOf mbs dst).length < ipcQueueMax)
    (hempty : Claims mbs dst → queueOf mbs 0 = []) :
    SpareEmpty mbs' ∧ queueOf mbs' dst = queueOf mbs dst ++ [⟨sender, dst, type, data.take ipcMsgMax, 0⟩] ∧
      ∀ q, q ≠ dst → queueOf mbs' q = queueOf mbs q := by
  obtain ⟨-, -, hsend⟩ := Option.bind_eq_some_iff.mp hsend
  obtain ⟨mid, hmid, hsend⟩ := Option.bind_eq_some_iff.mp hsend
  obtain rfl := Option.some.inj hsend
  obtain ⟨hspare, hsame⟩ := h.mailboxFor hmid hempty
  refine ⟨hspare.update _ _, ?_, fun q hq => ?_⟩
  · obtain ⟨mb, hmb⟩ := find?_of_mailboxFor hmid
    have hqueue : queueOf mid dst = mb.msgs.toList := by
      unfold queueOf
      rw [hmb]
    rw [← hsame dst, hqueue] at hroom ⊢
    unfold queueOf
    rw [find?_updateMailbox_self, hmb]
    simp only [Option.map_some, mailboxPush, Ring.toList_push]
    rw [if_pos]
    rwa [Ring.length_toList] at hroom
  · rw [queueOf_update_of_ne _ hq, hsame q]

theorem ipcTryReceive_delivers {mbs : Mailboxes} {canIpc : Bool} {me : Nat} (h : SpareEmpty mbs)
    (hempty : canIpc = true → HasFree mbs → Claims mbs me → queueOf mbs 0 = []) :
    SpareEmpty (ipcTryReceive mbs canIpc me).1 ∧
      (∀ q, q ≠ me → queueOf (ipcTryReceive mbs canIpc me).1 q = queueOf mbs q) ∧
      queueOf mbs me =
        (ipcTryReceive mbs canIpc me).2.toList ++ queueOf (ipcTryReceive mbs canIpc me).1 me := by
  unfold ipcTryReceive
  split
  · exact ⟨h, fun _ _ => rfl, rfl⟩
  rename_i hcan
  split
  · exact ⟨h, fun _ _ => rfl, rfl⟩
  rename_i mid hmid
  have hclaim : Claims mbs me → queueOf mbs 0 = [] := by
    intro hclaims
    refine hempty (by simpa using hcan) ?_ hclaims
    rcases exists_of_mailboxFor hmid with hfree | ⟨mb, hmb, hpid⟩
    · exact hfree
    · exact absurd hpid (hclaims.2 mb hmb)
  obtain ⟨hspare, hsame⟩ := h.mailboxFor hmid hclaim
  split
  · exact ⟨hspare, fun q _ => hsame q, (hsame me).symm⟩
  · rename_i m msgs hpop
    obtain ⟨mb, hmb, hpop⟩ := Option.bind_eq_some_iff.mp hpop
    refine ⟨hspare.update _ _, fun q hq => ?_, ?_⟩
    · rw [queueOf_update_of_ne _ hq, hsame q]
    · rw [← hsame me]
      unfold queueOf
      rw [find?_updateMailbox_self, hmb]
      exact Ring.toList_of_pop hpop

/-! ## Runs -/

/-- What was sent to each process is what it received, in that order, and then what waits for it. -/
def Delivered (s : Sys) : Prop :=
  ∀ q, ∃ taken, s.sent q = taken ++ queueOf s.mailboxes q ∧
    List.Forall₂ (fun (r : Receipt × Nat) m => r.1 = ⟨m.sender, m.type, m.payload.take r.2⟩) (s.got q) taken

def Inv (s : Sys) : Prop := SpareEmpty s.mailboxes ∧ Delivered s

theorem inv_boot : Inv boot := by
  refine ⟨spareEmpty_init, fun q => ⟨[], ?_, List.Forall₂.nil⟩⟩
  have hqueue : queueOf ipcInit q = [] := by
    unfold queueOf
    split
    · rename_i mb hmb
      rw [List.eq_of_mem_replicate (List.mem_of_find?_eq_some hmb)]
      rfl
    · rfl
  exact hqueue.symm

theorem Inv.send {s : Sys} (h : Inv s) {sender dst type : Nat} {canIpc : Bool} {data : List UInt8}
    (hroom : Room s (.send sender dst type canIpc data)) : Inv (send s sender dst type canIpc data) := by
  unfold Post.send ipcSend
  cases hsend : doSend s.mailboxes canIpc sender dst type data 0 with
  | none =>
    cases canIpc
    · exact h
    · exact h
  | some mbs =>
    obtain ⟨rfl, hbox⟩ := doSend_some hsend
    obtain ⟨hlen, hempty⟩ := hroom rfl hbox
    obtain ⟨hspare, hdst, hother⟩ := doSend_delivers h.1 hsend hlen hempty
    refine ⟨hspare, fun q => ?_⟩
    obtain ⟨taken, hsent, hgot⟩ := h.2 q
    refine ⟨taken, ?_, hgot⟩
    by_cases hq : q = dst
    · subst hq
      simp only [Function.update_self, hsent, hdst, List.append_assoc]
    · simp only [Function.update_of_ne hq, hsent, hother q hq]

theorem Inv.receive {s : Sys} (h : Inv s) {me max : Nat} {canIpc : Bool}
    (hroom : Room s (.receive me max canIpc)) : Inv (receive s me max canIpc) := by
  obtain ⟨hspare, hother, hme⟩ := ipcTryReceive_delivers h.1 hroom
  unfold Post.receive ipcReceive
  revert hspare hother hme
  generalize ipcTryReceive s.mailboxes canIpc me = r
  obtain ⟨mbs, msg⟩ := r
  intro hspare hother hme
  cases msg with
  | none =>
    refine ⟨hspare, fun q => ?_⟩
    obtain ⟨taken, hsent, hgot⟩ := h.2 q
    refine ⟨taken, ?_, hgot⟩
    by_cases hq : q = me
    · subst hq
      exact hsent.trans (congrArg (taken ++ ·) hme)
    · exact hsent.trans (congrArg (taken ++ ·) (hother q hq).symm)
  | some m =>
    refine ⟨hspare, fun q => ?_⟩
    obtain ⟨taken, hsent, hgot⟩ := h.2 q
    by_cases hq : q = me
    · subst hq
      refine ⟨taken ++ [m], ?_, ?_⟩
      · rw [List.append_assoc]
        exact hsent.trans (congrArg (taken ++ ·) hme)
      · simp only [Function.update_self]
        exact List.rel_append hgot (List.Forall₂.cons rfl List.Forall₂.nil)
    · refine ⟨taken, hsent.trans (congrArg (taken ++ ·) (hother q hq).symm), ?_⟩
      simp only [Function.update_of_ne hq]
      exact hgot

theorem Inv.step {s t : Sys} {o : Op} (h : Inv s) (hstep : Guarded Room Step s o t) : Inv t := by
  obtain ⟨hroom, -, rfl⟩ := hstep
  cases o with
  | send sender dst type canIpc data => exact h.send hroom
  | receive me max canIpc => exact h.receive hroom
  | create => exact h
  | exit pid => exact h

/-- Where sends find room, every message that was accepted is received once and in order, or still waits. -/
theorem delivered {ops : List Op} {s : Sys} (h : Run (Guarded Room Step) boot ops s) : Delivered s :=
  (Run.invariant (fun _ _ _ hs hstep => Inv.step hs hstep) h inv_boot).2

/-- Two messages, of which the second is received too. -/
theorem delivered_two :
    Delivered (([.create, .send 1 2 7 true [0x61], .send 2 2 8 true [0x62, 0x63], .receive 2 64 true,
      .receive 2 1 true] : List Op).foldl apply boot) :=
  delivered (Run.of_admits_guarded (by decide +kernel))

/-- One message too many. -/
def overfill : List Op := .create :: List.replicate 65 (.send 1 2 7 true [0x61])

/-- The last send returns 0, and its message is gone. -/
theorem delivered_overfull : ¬ ∀ (ops : List Op) (s : Sys), Run Step boot ops s → Delivered s := by
  intro h
  obtain ⟨taken, hsent, hgot⟩ := h overfill _ (Run.of_admits (by decide +kernel)) 2
  have hnone : (overfill.foldl apply boot).got 2 = [] := by decide +kernel
  have hlen : ((overfill.foldl apply boot).sent 2).length = 65 := by decide +kernel
  have hqueue : (queueOf (overfill.foldl apply boot).mailboxes 2).length = 64 := by decide +kernel
  rw [hnone] at hgot
  cases hgot
  rw [hsent, List.nil_append, hqueue] at hlen
  cases hlen

end Siathos.Ipc.Post
