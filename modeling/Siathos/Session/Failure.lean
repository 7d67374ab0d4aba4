import Siathos.Device.Keyboard
import Siathos.Ipc.Delivery
import Siathos.Ipc.Lookup
import Siathos.Session.Lasting
import Siathos.Session.Pointers

/-!
# Calls that fail late

`SYS_READ`, `SYS_IPC_RECV`, `SYS_AUTH_TICKET_ISSUE` and `SYS_SVC_QUERY` check where a result goes once
they have it. By then a key or a message may be taken, or a ticket issued.
-/

open Lib Lib.Call Siathos.Device Siathos.Nomos Siathos.Fs Siathos.Ipc Siathos.Ipc.Post Siathos.Proc Siathos.Syscall

namespace Siathos.Session

/-! ## The calls and the keyboard -/

/-- The service that `SYS_READ` asks for a key. -/
def kbdService (k : Kernel) : Option Nat := (svcQuery (alive k) k.svcTable Syscall.kbdName).2.filter (· > 0)

/-- The call reads the keyboard's ports. -/
def ReadsPorts (cur : Nat) (nr : U64) (k : Kernel) : Prop :=
  nr = 2 ∧ May (k.proc cur) capSyscall ∧ kbdService k = none

instance (cur : Nat) (nr : U64) (k : Kernel) : Decidable (ReadsPorts cur nr k) :=
  inferInstanceAs (Decidable (_ ∧ _ ∧ _))

def withKeys (env : Env) (kb : Keyboard) : Env := { env with key := (keyboardGetcNonblock kb).1 }

/-- The keyboard after the call. -/
def keyboardAfter (cur : Nat) (nr : U64) (k : Kernel) (kb : Keyboard) : Keyboard :=
  if ReadsPorts cur nr k then (keyboardGetcNonblock kb).2 else kb

/-- The key that `SYS_READ` got, 0 for none. -/
def keyRead (env : Env) (cur : Nat) (k : Kernel) : UInt8 :=
  match (readKey env cur k).val with
  | .ok c => c
  | .error _ => 0

/-- What waits for the caller. -/
def inbox (cur : Nat) (k : Kernel) : List Message := queueOf k.mailboxes (k.proc cur).pid

structure Untouched (cur : Nat) (k : Kernel) (kb : Keyboard) (o : Outcome Kernel Access U64 U64)
    (kb' : Keyboard) : Prop where
  mailbox : queueOf o.state.mailboxes (k.proc cur).pid = inbox cur k
  keyboard : kb' = kb
  tickets : o.state.auth.tickets = k.auth.tickets
  services : o.state.svcTable = k.svcTable
  memory : ∀ x ∈ o.trace, x.write = false

/-- A pointer that is given, and does not hold. -/
def Bad (p : Process) (addr len : U64) : Prop := addr ≠ 0 ∧ userPtrOk p addr len = false

instance (p : Process) (addr len : U64) : Decidable (Bad p addr len) := inferInstanceAs (Decidable (_ ∧ _))

/-- The call comes to the check of a pointer for its results that does not hold. -/
def PointerError (env : Env) (cur : Nat) (nr a1 a2 a3 a4 : U64) (k : Kernel) : Prop :=
  May (k.proc cur) capSyscall ∧
  match nr.toNat with
  | 2 => a2 > 0 ∧ Bad (k.proc cur) a1 1 ∧ keyRead env cur k ≠ 0
  | 5 => May (k.proc cur) capIpc ∧
      (Bad (k.proc cur) a1 a2 ∨ Bad (k.proc cur) a3 4 ∨ Bad (k.proc cur) a4 4)
  | 26 => Bad (k.proc cur) a2 4 ∧ ∃ name, strArg env k cur a1 32 = some name ∧
      (svcQuery (alive k) k.svcTable name).2.isSome
  | 36 => May (k.proc cur) capUserAdmin ∧ Bad (k.proc cur) a3 8 ∧
      ∃ name, strArg env k cur a1 authNameMax = some name ∧
        (authTicketIssue k.auth name a2 env.tok (k.proc cur).rights).isSome
  | _ => False

/-- The request for a key that a process sends when it is itself the 'kbd' service. -/
def ownRequest (pid : Nat) : Message := ⟨pid, pid, 10, ascii "g", 0⟩

/-- The caller is the 'kbd' service, and only its own requests wait for it. -/
def AsksItself (cur : Nat) (k : Kernel) : Prop :=
  kbdService k = some (k.proc cur).pid ∧ (inbox cur k).length < ipcQueueMax ∧
    ∀ msg ∈ inbox cur k, msg = ownRequest (k.proc cur).pid

/-- Work is done before the check. -/
def TooLate (cur : Nat) (nr a1 a2 a3 : U64) (k : Kernel) : Prop :=
  match nr.toNat with
  | 2 => ¬ AsksItself cur k
  | 5 => ¬ Bad (k.proc cur) a1 a2 ∧ (inbox cur k ≠ [] ∨ a3 ≠ 0 ∧ ¬ Bad (k.proc cur) a3 4)
  | 36 => True
  | _ => False

/-! ## Mailboxes -/

theorem doSend_queue {mbs mbs' : Mailboxes} {canIpc : Bool} {sender dst type id : Nat} {data : List UInt8}
    (h : doSend mbs canIpc sender dst type data id = some mbs') (hdst : dst ≠ 0) :
    queueOf mbs' dst = if (queueOf mbs dst).length < ipcQueueMax then
      queueOf mbs dst ++ [⟨sender, dst, type, data.take ipcMsgMax, id⟩] else queueOf mbs dst := by
  obtain ⟨-, -, h⟩ := Option.bind_eq_some_iff.mp h
  obtain ⟨mid, hmid, h⟩ := Option.bind_eq_some_iff.mp h
  obtain rfl := Option.some.inj h
  obtain ⟨mb, hmb⟩ := find?_of_mailboxFor hmid
  have hqueue : queueOf mbs dst = mb.msgs.toList := by
    rw [← mailboxFor_queueOf hmid hdst]
    unfold queueOf
    rw [hmb]
  rw [hqueue, Ring.length_toList]
  unfold queueOf
  rw [find?_updateMailbox_self, hmb]
  exact Ring.toList_push mb.msgs _

theorem ipcTryReceive_none {mbs : Mailboxes} {me : Nat} (hme : me ≠ 0) :
    (ipcTryReceive mbs true me).2 = none ↔ queueOf mbs me = [] := by
  constructor
  · intro h
    unfold ipcTryReceive at h
    cases hbox : mailboxFor mbs me with
    | none =>
      unfold mailboxFor at hbox
      split at hbox
      · simp at hbox
      · next hnone =>
        have hfind : mbs.find? (fun mb => mb.pid = me) = none := by simpa using hnone
        unfold queueOf
        rw [hfind]
    | some mid =>
      rw [hbox] at h
      obtain ⟨mb, hmb⟩ := find?_of_mailboxFor hbox
      rw [← mailboxFor_queueOf hbox hme]
      unfold queueOf
      rw [hmb]
      simp only [hmb, Bool.not_true, Bool.false_eq_true, if_false, Option.bind_some] at h
      apply Ring.pop_none.mp
      cases hpop : mb.msgs.pop with
      | none => rfl
      | some r =>
        rw [hpop] at h
        simp at h
  · intro h
    have hqueue := (ipcTryReceive_queueOf mbs true hme).2
    cases hr : (ipcTryReceive mbs true me).2 with
    | none => rfl
    | some msg =>
      rw [hr, h] at hqueue
      simp at hqueue

/-! ## Every reachable state -/

/-- A process has a number. -/
def Numbered (p : Process) : Prop := p.present = true → 0 < p.pid

theorem lasting_numbered : Lasting Numbered where
  fresh _ h _ := h.pid
  absent _ _ h := absurd h Bool.false_ne_true
  sched _ _ _ _ _ h := h
  memory _ _ _ _ _ h := h
  grown _ _ _ _ h := h

/-- A name stands for one process at most. -/
def Single (k : Kernel) : Prop := ∀ name, (holders name k.svcTable).length ≤ 1

theorem Single.svcMove {k k' : Kernel} (h : Single k) {t : SvcTable} (ht : SvcMove k t) :
    Single { k' with svcTable := t } := by
  intro m
  rcases ht with ⟨name, pid, hlen, hreg⟩ | ⟨name, rfl⟩
  · obtain ⟨hname, hother⟩ := svcRegister_holders (Nat.le_of_lt_succ hlen) hreg (h name)
    by_cases hm : m = name
    · rw [hm, hname]
      exact Nat.le_refl 1
    · rw [hother m hm]
      exact h m
  · unfold svcQuery
    split
    · exact h m
    obtain ⟨-, hdropped, hother⟩ := svcLookup_holders (alive k) name k.svcTable
    by_cases hm : m = name
    · simp only [hm, hdropped]
      exact Nat.le_trans (List.dropWhile_suffix _).length_le (h name)
    · simp only [hother m hm]
      exact h m

theorem single_tame (cur : Nat) : Tame cur Single where
  mailboxes _ _ h := h
  svcTable _ _ _ _ h ht := h.svcMove ht
  nodes _ _ h := h
  wakeup _ _ h := h
  gc _ h := h
  accounts _ _ _ h := h
  verified _ _ h := h
  waited _ h := h
  block _ h := h

theorem execElfCore_svcTable (cur : Nat) (pname : CStr) (load : Load) (k : Kernel) :
    (execElfCore cur pname load k).1.svcTable = k.svcTable := by
  rcases execElfCore_new cur pname load k with hk | ⟨idx, p, pid, -, -, -, -, -, hk⟩ <;> rw [hk]

theorem execEmbeddedArgs_svcTable (m : Machine) (cur : Nat) (name : CStr) (load : Load) (k : Kernel) :
    (execEmbeddedArgs m cur name load k).1.svcTable = k.svcTable := by
  rcases execEmbeddedArgs_cases m cur name load k with hk | hk
  · rw [hk]
  · rw [hk, execElfCore_svcTable]

theorem Single.of_eq {k k' : Kernel} (h : Single k) (heq : k'.svcTable = k.svcTable) : Single k' := by
  unfold Single
  rw [heq]
  exact h

theorem Single.exec {k : Kernel} (h : Single k) (m : Machine) (env : Env) (cur : Nat) (path : CStr) :
    Single (execUserPath m env cur path k).1 := by
  apply execUserPath_keeps h
  · exact fun k name hk => hk.of_eq (execEmbeddedArgs_svcTable m cur name env.loadEmbedded k)
  · exact fun k hk => hk.of_eq (execElfCore_svcTable cur _ env.loadFile k)

theorem Single.syscall {k : Kernel} (h : Single k) (m : Machine) (env : Env) (cur : Nat) (nr a1 a2 a3 a4 : U64) :
    Single (syscallDispatch m env cur nr a1 a2 a3 a4 k).state := by
  rcases syscallDispatch_cases m env cur nr a1 a2 a3 a4 k with hs | hs
  · rw [hs]
    exact h
  rw [hs]
  have hi := single_tame cur
  have ht : Trusts cur Single fun _ => True := fun _ _ _ _ _ _ _ _ _ => trivial
  refine (dispatchNr_meets hi ht nr a1 a2 a3 a4 (fun hspecial => ?_) k h).2.1
  simp only [special, List.mem_cons, List.not_mem_nil, or_false] at hspecial
  unfold dispatchNr
  rcases hspecial with h | h | h | h | h | h | h | h | h | h <;> rw [h]
  · exact sysExit_meets a1 fun k code hk => hk
  · exact sysExec_meets ht a1 a2 a3 fun k path hk => hk.exec m env cur path
  · exact sysIpcSend_meets hi ht a1 a2 fun _ _ _ _ => trivial
  · exact sysIpcRecv_meets hi ht a3 a4 fun _ _ _ _ => trivial
  · exact sysFsRead_meets ht a1 a2 a3 fun _ _ _ _ _ _ _ _ _ _ => trivial
  · exact sysIpcSend_meets hi ht a1 a2 fun _ _ _ _ => trivial
  · exact sysSessionLogin_meets ht a1 a2 a3 (fun _ _ hk => hk) (fun _ _ _ hk => hk) fun _ _ hk => hk
  · exact sysMmap_meets a1 fun k u heap hk => hk
  · exact sysDevMap_meets a1 a2 fun k b u hk => hk
  · exact sysAuthTicketIssue_meets ht a1 a2 a3 fun k auth hk => hk

/-- What `init` starts is not yet in the registry. -/
theorem initStep_svcTable (m : Machine) (load : Load) (s : System) :
    (initStep m load s).kernel.svcTable = s.kernel.svcTable := by
  unfold initStep
  split
  · split
    · rfl
    rename_i name kormi _
    split
    · have hk := execEmbeddedArgs_svcTable m initSlot name load s.kernel
      revert hk
      generalize execEmbeddedArgs m initSlot name load s.kernel = r
      obtain ⟨k, pid⟩ := r
      cases pid <;> exact id
    · rfl
  · have hk := execEmbeddedArgs_svcTable m initSlot spoudazo load s.kernel
    revert hk
    generalize execEmbeddedArgs m initSlot spoudazo load s.kernel = r
    obtain ⟨k, pid⟩ := r
    cases pid <;> exact id
  · split <;> rfl
  · rfl

/-- Processes have numbers, and a name stands for one process at most. -/
def Orderly (k : Kernel) : Prop := Steady Numbered k ∧ Single k

theorem Orderly.proc {k : Kernel} (h : Orderly k) {i : Nat} (hpresent : (k.proc i).present = true) :
    (k.proc i).pid ≠ 0 :=
  Nat.ne_of_gt (h.1.proc (fun hempty => absurd hempty (by decide)) i hpresent)

theorem orderly_run {m : Machine} {nodes : Nodes} {synallagma : Synallagma} {ops : List Op} {s : System}
    (h : Run (Step m) (boot nodes synallagma) ops s) : Orderly s.kernel := by
  have hinv : ∀ (s : System) (o : Op) (t : System), Orderly s.kernel → Step m s o t → Orderly t.kernel := by
    intro s o t hs hstep
    refine ⟨lasting_numbered.step hs.1 hstep, ?_⟩
    obtain ⟨-, rfl⟩ := hstep
    cases o with
    | syscall cur env nr a1 a2 a3 a4 => exact hs.2.syscall m env cur nr a1 a2 a3 a4
    | init load => exact hs.2.of_eq (initStep_svcTable m load s)
    | gc => exact hs.2
  refine Run.invariant hinv h ⟨steady_boot nodes synallagma ?_ ?_, fun name => ?_⟩
  · exact fun _ => Nat.one_pos
  · exact fun hempty => absurd hempty (by decide)
  · change (holders name svcInit).length ≤ 1
    rw [holders_init]
    exact Nat.zero_le 1

/-! ## Checks of results -/

variable {m : Machine} {env : Env} {cur : Nat} {k : Kernel}

theorem storeOpt_bind_null {α : Type} (len : Nat) (f : Unit → SysM α) :
    (storeOpt cur 0 len >>= f) k = f () k := by
  unfold storeOpt
  rw [when_bind_false fun h => h rfl]

theorem storeOpt_bind_bad {α : Type} {addr : U64} (len : Nat)
    (h : Bad (k.proc cur) addr (BitVec.ofNat 64 len)) (f : Unit → SysM α) :
    (storeOpt cur addr len >>= f) k = ⟨k, [], .error err⟩ := by
  have hcopy : copyOut cur addr len k = ⟨k, [], .error err⟩ := by
    unfold copyOut
    apply checkPtr_bind_bad
    rw [h.2]
    exact Bool.false_ne_true
  unfold storeOpt
  rw [when_bind_true h.1, bind_of_error (congrArg Outcome.val hcopy), hcopy]

theorem storeOpt_bind_ok {α : Type} {addr : U64} {len : Nat} (h0 : addr ≠ 0)
    (h : ¬ Bad (k.proc cur) addr (BitVec.ofNat 64 len)) (f : Unit → SysM α) :
    (storeOpt cur addr len >>= f) k =
      { f () k with trace := ⟨addr, len, true⟩ :: (f () k).trace } := by
  have hok : userPtrOk (k.proc cur) addr (BitVec.ofNat 64 len) = true := by
    rw [← Bool.not_eq_false]
    exact fun hbad => h ⟨h0, hbad⟩
  have hcopy : copyOut cur addr len k = ⟨k, [⟨addr, len, true⟩], .ok ()⟩ := by
    unfold copyOut
    rw [checkPtr_bind_ok hok]
    rfl
  unfold storeOpt
  rw [when_bind_true h0, bind_of_ok (congrArg Outcome.val hcopy), hcopy]
  rfl

theorem userStr_bind_reads {α : Type} {src : U64} {dstMax : Nat} {s : CStr}
    (h : strArg env k cur src dstMax = some s) (f : CStr → SysM α) :
    ∃ t, (∀ x ∈ t, x.write = false) ∧ (userStr env cur src dstMax >>= f) k =
      ⟨(f s k).state, t ++ (f s k).trace, (f s k).val⟩ := by
  obtain ⟨hstate, hval⟩ := userStr_run_some h
  refine ⟨(userStr env cur src dstMax k).trace, userStr_reads env cur src dstMax k, ?_⟩
  rw [bind_of_ok hval, hstate]

/-! ## Receiving -/

theorem canIpc_of_may (h : May (k.proc cur) capIpc) : canIpc cur k = true := by
  refine decide_eq_true ?_
  rcases h with h | h
  · rw [h]
    decide
  · exact h

/-- What `SYS_IPC_RECV` does once it has received. -/
def afterRecv (cur : Nat) (a3 a4 : U64) (got : Option (Message × U64)) : SysM U64 := do
  storeOpt cur a3 4
  storeOpt cur a4 4
  match got with
  | some (_, n) => pure n
  | none => Call.stop err

theorem afterRecv_bad {a3 a4 : U64} (h : Bad (k.proc cur) a3 4 ∨ Bad (k.proc cur) a4 4)
    (got : Option (Message × U64)) : afterRecv cur a3 a4 got k =
      ⟨k, if a3 ≠ 0 ∧ ¬ Bad (k.proc cur) a3 4 then [⟨a3, 4, true⟩] else [], .error err⟩ := by
  unfold afterRecv
  by_cases h3 : Bad (k.proc cur) a3 4
  · rw [storeOpt_bind_bad 4 h3, if_neg fun hok => hok.2 h3]
  have h4 := h.resolve_left h3
  by_cases hnull : a3 = 0
  · subst hnull
    rw [storeOpt_bind_null, storeOpt_bind_bad 4 h4, if_neg fun hok => hok.1 rfl]
  · rw [storeOpt_bind_ok hnull h3, storeOpt_bind_bad 4 h4, if_pos ⟨hnull, h3⟩]

theorem kernelReceive_run (cur : Nat) (k : Kernel) (addr max : U64) :
    (kernelReceive cur addr max k).state =
      { k with mailboxes := (ipcTryReceive k.mailboxes (canIpc cur k) (k.proc cur).pid).1 } ∧
    ∃ got, (kernelReceive cur addr max k).val = .ok got := by
  unfold kernelReceive
  rw [read_bind]
  dsimp only
  rw [change_bind]
  cases (ipcTryReceive k.mailboxes (canIpc cur k) (k.proc cur).pid).2 with
  | none => exact ⟨rfl, _, rfl⟩
  | some msg =>
    dsimp only
    generalize (if msg.payload.length > max.toNat then max else BitVec.ofNat 64 msg.payload.length) = n
    by_cases hn : n ≠ 0
    · rw [when_bind_true hn]
      exact ⟨rfl, _, rfl⟩
    · rw [when_bind_false hn]
      exact ⟨rfl, _, rfl⟩

theorem sysIpcRecv_badBuffer {a1 a2 a3 a4 : U64} (hmay : May (k.proc cur) capIpc) (h1 : Bad (k.proc cur) a1 a2) :
    sysIpcRecv cur a1 a2 a3 a4 k = ⟨k, [], .error err⟩ := by
  have hptr : ¬ userPtrOk (k.proc cur) a1 a2 = true := by
    rw [h1.2]
    exact Bool.false_ne_true
  unfold sysIpcRecv
  rw [syscallCap_bind_may hmay, when_bind_true h1.1, checkPtr_bind_bad hptr]

theorem sysIpcRecv_takes {a1 a2 a3 a4 : U64} (hmay : May (k.proc cur) capIpc) (h1 : ¬ Bad (k.proc cur) a1 a2) :
    sysIpcRecv cur a1 a2 a3 a4 k = (kernelReceive cur a1 a2 >>= afterRecv cur a3 a4) k := by
  unfold sysIpcRecv
  rw [syscallCap_bind_may hmay]
  by_cases h0 : a1 ≠ 0
  · have hok : userPtrOk (k.proc cur) a1 a2 = true := by
      rw [← Bool.not_eq_false]
      exact fun hbad => h1 ⟨h0, hbad⟩
    rw [when_bind_true h0, checkPtr_bind_ok hok]
    rfl
  · rw [when_bind_false h0]
    rfl

theorem recv_late (hpid : (k.proc cur).pid ≠ 0) (kb : Keyboard) {a1 a2 a3 a4 : U64}
    (hmay : May (k.proc cur) capIpc)
    (hbad : Bad (k.proc cur) a1 a2 ∨ Bad (k.proc cur) a3 4 ∨ Bad (k.proc cur) a4 4) :
    Outcome.result (sysIpcRecv cur a1 a2 a3 a4 k) = err ∧
      (Untouched cur k kb (sysIpcRecv cur a1 a2 a3 a4 k) kb ↔ ¬ TooLate cur 5 a1 a2 a3 k) := by
  have hcan := canIpc_of_may hmay
  by_cases h1 : Bad (k.proc cur) a1 a2
  · rw [sysIpcRecv_badBuffer hmay h1]
    refine ⟨rfl, iff_of_true ⟨rfl, rfl, rfl, rfl, ?_⟩ fun h => h.1 h1⟩
    rintro x ⟨⟩
  have hrest := hbad.resolve_left h1
  obtain ⟨hstate, got, hgot⟩ := kernelReceive_run cur k a1 a2
  have hqueue := (ipcTryReceive_queueOf k.mailboxes true hpid).2
  have hafter : ∀ mailboxes, afterRecv cur a3 a4 got { k with mailboxes } = ⟨{ k with mailboxes },
      if a3 ≠ 0 ∧ ¬ Bad (k.proc cur) a3 4 then [⟨a3, 4, true⟩] else [], .error err⟩ :=
    fun mailboxes => afterRecv_bad (k := { k with mailboxes }) hrest got
  rw [sysIpcRecv_takes hmay h1, bind_of_ok hgot, hstate, hafter]
  refine ⟨rfl, ⟨fun hclean hlate => ?_, fun hlate => ?_⟩⟩
  · rcases hlate.2 with hsome | ⟨h0, h3⟩
    · -- the first message is gone
      have hmailbox := hclean.mailbox
      rw [hcan] at hmailbox
      cases hr : (ipcTryReceive k.mailboxes true (k.proc cur).pid).2 with
      | none => exact hsome ((ipcTryReceive_none hpid).mp hr)
      | some msg =>
        rw [hr] at hqueue
        unfold inbox at hmailbox
        rw [hqueue] at hmailbox
        exact absurd (congrArg List.length hmailbox) (by simp)
    · -- the sender is written
      have hmemory := hclean.memory ⟨a3, 4, true⟩ (List.mem_append_right _ ?_)
      · simp at hmemory
      · rw [if_pos ⟨h0, h3⟩]
        exact List.mem_cons_self
  · obtain ⟨hempty, h3⟩ := not_or.mp fun h => hlate ⟨h1, h⟩
    have hnone : (ipcTryReceive k.mailboxes true (k.proc cur).pid).2 = none :=
      (ipcTryReceive_none hpid).mpr (not_not.mp hempty)
    rw [hnone] at hqueue
    refine ⟨?_, rfl, rfl, rfl, ?_⟩
    · rw [hcan]
      exact hqueue
    · intro x hx
      rcases List.mem_append.mp hx with hx | hx
      · obtain ⟨msg, hmsg, -⟩ := (kernelReceive_trace _ _ _).mp hx
        rw [hcan, hnone] at hmsg
        simp at hmsg
      · rw [if_neg h3] at hx
        simp at hx

/-! ## Tickets and services -/

theorem authTicketIssue_length {a b : Auth} {name : CStr} {caps issuer : Rights} {tok : U64}
    (h : authTicketIssue a name caps tok issuer = some b) : b.tickets.length = a.tickets.length + 1 := by
  unfold authTicketIssue at h
  split at h
  · simp at h
  split at h
  · simp at h
  · obtain rfl := Option.some.inj h
    simp

theorem issue_late (kb : Keyboard) {a1 a2 a3 : U64} (hmay : May (k.proc cur) capUserAdmin)
    (hbad : Bad (k.proc cur) a3 8) {name : CStr} (hname : strArg env k cur a1 authNameMax = some name)
    (hissue : (authTicketIssue k.auth name a2 env.tok (k.proc cur).rights).isSome) :
    Outcome.result (sysAuthTicketIssue env cur a1 a2 a3 k) = err ∧
      ¬ Untouched cur k kb (sysAuthTicketIssue env cur a1 a2 a3 k) kb := by
  obtain ⟨auth, hauth⟩ := Option.isSome_iff_exists.mp hissue
  have hrun : ∃ t, sysAuthTicketIssue env cur a1 a2 a3 k = ⟨{ k with auth }, t, .error err⟩ := by
    unfold sysAuthTicketIssue
    rw [syscallCap_bind_may hmay]
    obtain ⟨t, -, hstr⟩ := userStr_bind_reads hname _
    rw [hstr, read_bind, hauth]
    dsimp only
    rw [change_bind, storeOpt_bind_bad (k := { k with auth }) 8 hbad]
    exact ⟨_, rfl⟩
  obtain ⟨t, hrun⟩ := hrun
  rw [hrun]
  refine ⟨rfl, fun hclean => ?_⟩
  have hlen := authTicketIssue_length hauth
  rw [hclean.tickets] at hlen
  omega

theorem svcQuery_found {k : Kernel} (h : Orderly k) {name : CStr}
    (hfound : (svcQuery (alive k) k.svcTable name).2.isSome) :
    (svcQuery (alive k) k.svcTable name).1 = k.svcTable := by
  unfold svcQuery at hfound ⊢
  split
  · rfl
  next hne =>
  rw [if_neg hne, (svcLookup_holders (alive k) name k.svcTable).1] at hfound
  apply svcLookup_same
  intro q hq
  have hone := h.2 name
  cases hheld : holders name k.svcTable with
  | nil =>
    rw [hheld] at hq
    simp at hq
  | cons p rest =>
    rw [hheld] at hq hfound hone
    have hrest : rest = [] := List.length_eq_zero_iff.mp (by simpa using hone)
    have hp : p = q := by simpa using hq
    rw [hrest, List.find?_singleton, hp] at hfound
    by_contra hdead
    rw [if_neg hdead] at hfound
    simp at hfound

theorem query_clean (h : Orderly k) (kb : Keyboard) {a1 a2 : U64} (hbad : Bad (k.proc cur) a2 4) {name : CStr}
    (hname : strArg env k cur a1 32 = some name) (hfound : (svcQuery (alive k) k.svcTable name).2.isSome) :
    Outcome.result (sysSvcQuery env cur a1 a2 k) = err ∧
      Untouched cur k kb (sysSvcQuery env cur a1 a2 k) kb := by
  have h1 : a1 ≠ 0 := by
    rintro rfl
    simp [strArg] at hname
  have hsame := svcQuery_found h hfound
  obtain ⟨pid, hpid⟩ := Option.isSome_iff_exists.mp hfound
  have hrun : ∃ t, (∀ x ∈ t, x.write = false) ∧ sysSvcQuery env cur a1 a2 k = ⟨k, t, .error err⟩ := by
    unfold sysSvcQuery
    rw [demand_bind_true (decide_eq_true h1)]
    obtain ⟨t, hreads, hstr⟩ := userStr_bind_reads hname _
    rw [hstr, read_bind, change_bind, hsame, hpid]
    dsimp only
    rw [storeOpt_bind_bad 4 hbad]
    exact ⟨t, hreads, by rw [List.append_nil]⟩
  obtain ⟨t, hreads, hrun⟩ := hrun
  rw [hrun]
  exact ⟨rfl, rfl, rfl, rfl, rfl, hreads⟩

/-! ## Reading a key -/

theorem proc_schedWakeup (pid : Nat) (k : Kernel) (i : Nat) :
    ∃ state, (schedWakeup pid k).proc i = { k.proc i with state } := by
  rcases proc_updatePid k pid (fun p => if p.state = .blocked then { p with state := .ready } else p) i with
    h | ⟨-, h⟩
  · exact ⟨(k.proc i).state, h⟩
  · unfold schedWakeup
    rw [h]
    split
    · exact ⟨.ready, rfl⟩
    · exact ⟨(k.proc i).state, rfl⟩

theorem kbdService_found (h : Orderly k) {kbd : Nat} (hkbd : kbdService k = some kbd) :
    (svcQuery (alive k) k.svcTable Syscall.kbdName).1 = k.svcTable := by
  apply svcQuery_found h
  obtain ⟨hq, -⟩ := Option.filter_eq_some_iff.mp hkbd
  rw [hq]
  rfl

theorem readKey_ports (env : Env) (cur : Nat) (h : kbdService k = none) :
    ∃ t, readKey env cur k = ⟨{ k with svcTable := t }, [], .ok (env.key.getD 0)⟩ := by
  unfold kbdService at h
  unfold readKey
  rw [read_bind, change_bind, h]
  exact ⟨_, rfl⟩

theorem readKey_refused (h : Orderly k) {kbd : Nat} (hkbd : kbdService k = some kbd)
    (hsend : doSend k.mailboxes (canIpc cur k) (k.proc cur).pid kbd 10 (ascii "g") 0 = none) :
    readKey env cur k = ⟨k, [], .ok 0⟩ := by
  have hfound := kbdService_found h hkbd
  unfold kbdService at hkbd
  unfold readKey
  rw [read_bind, change_bind, hkbd, hfound]
  dsimp only
  rw [read_bind, hsend]
  rfl

/-- `SYS_READ` sends its request to the service and takes what waits for the caller. -/
theorem readKey_asked (h : Orderly k) {kbd : Nat} (hkbd : kbdService k = some kbd) {mbs : Mailboxes}
    (hsend : doSend k.mailboxes (canIpc cur k) (k.proc cur).pid kbd 10 (ascii "g") 0 = some mbs) :
    readKey env cur k =
      ⟨{ schedWakeup kbd k with mailboxes := (ipcTryReceive mbs (canIpc cur k) (k.proc cur).pid).1 }, [],
        .ok (((ipcTryReceive mbs (canIpc cur k) (k.proc cur).pid).2.bind (·.payload.head?)).getD 0)⟩ := by
  have hfound := kbdService_found h hkbd
  obtain ⟨state, hproc⟩ := proc_schedWakeup kbd { k with mailboxes := mbs } cur
  have hcan : canIpc cur (schedWakeup kbd { k with mailboxes := mbs }) = canIpc cur k := by
    unfold canIpc
    rw [hproc]
    rfl
  have hpid : ((schedWakeup kbd { k with mailboxes := mbs }).proc cur).pid = (k.proc cur).pid := by
    rw [hproc]
    rfl
  unfold kbdService at hkbd
  unfold readKey
  rw [read_bind, change_bind, hkbd, hfound]
  dsimp only
  rw [read_bind, hsend]
  dsimp only
  rw [change_bind, read_bind, change_bind, hcan, hpid]
  rfl

theorem sysRead_bad (h : Orderly k) {a1 a2 : U64} (h2 : a2 > 0) (hbad : Bad (k.proc cur) a1 1)
    (hkey : keyRead env cur k ≠ 0) :
    Syscall.sysRead env cur a1 a2 k = ⟨(readKey env cur k).state, [], .error err⟩ := by
  have hrun : ∃ st c, readKey env cur k = ⟨st, [], .ok c⟩ ∧
      userPtrOk (st.proc cur) a1 1 = userPtrOk (k.proc cur) a1 1 := by
    cases hkbd : kbdService k with
    | none =>
      obtain ⟨t, ht⟩ := readKey_ports env cur hkbd
      exact ⟨_, _, ht, rfl⟩
    | some kbd =>
      cases hsend : doSend k.mailboxes (canIpc cur k) (k.proc cur).pid kbd 10 (ascii "g") 0 with
      | none => exact ⟨_, _, readKey_refused h hkbd hsend, rfl⟩
      | some mbs =>
        obtain ⟨state, hproc⟩ := proc_schedWakeup kbd k cur
        refine ⟨_, _, readKey_asked h hkbd hsend, ?_⟩
        change userPtrOk ((schedWakeup kbd k).proc cur) a1 1 = _
        rw [hproc]
        rfl
  obtain ⟨st, c, hrun, hptr⟩ := hrun
  unfold keyRead at hkey
  rw [hrun] at hkey
  have hcopy : copyOut cur a1 1 st = ⟨st, [], .error err⟩ := by
    unfold copyOut
    apply checkPtr_bind_bad
    change ¬ userPtrOk (st.proc cur) a1 1 = true
    rw [hptr, hbad.2]
    exact Bool.false_ne_true
  unfold Syscall.sysRead
  rw [bind_of_ok (congrArg Outcome.val hrun), hrun]
  dsimp only
  rw [if_neg hkey, when_bind_true ⟨hbad.1, h2⟩, bind_of_error (congrArg Outcome.val hcopy), hcopy]
  rfl

theorem append_eq_cons_iff {q : List Message} {g msg : Message} :
    q ++ [g] = msg :: q ↔ msg = g ∧ ∀ x ∈ q, x = g := by
  induction q generalizing msg with
  | nil => simp [eq_comm]
  | cons x q ih =>
    rw [List.cons_append, List.cons.injEq, ih, List.forall_mem_cons]
    constructor
    · rintro ⟨rfl, rfl, hall⟩
      exact ⟨rfl, rfl, hall⟩
    · rintro ⟨rfl, rfl, hall⟩
      exact ⟨rfl, rfl, hall⟩

theorem asked_inbox {mbs : Mailboxes} {kbd : Nat} {msg : Message} (hpid : (k.proc cur).pid ≠ 0)
    (hkbd : kbdService k = some kbd)
    (hsend : doSend k.mailboxes (canIpc cur k) (k.proc cur).pid kbd 10 (ascii "g") 0 = some mbs)
    (hgot : (ipcTryReceive mbs (canIpc cur k) (k.proc cur).pid).2 = some msg) :
    queueOf (ipcTryReceive mbs (canIpc cur k) (k.proc cur).pid).1 (k.proc cur).pid = inbox cur k ↔
      AsksItself cur k := by
  have htaken := (ipcTryReceive_queueOf mbs (canIpc cur k) hpid).2
  rw [hgot] at htaken
  dsimp only at htaken
  generalize queueOf (ipcTryReceive mbs (canIpc cur k) (k.proc cur).pid).1 (k.proc cur).pid = left at htaken
  unfold AsksItself
  have hshorter : ∀ q, q = msg :: left → ¬ left = q := by
    rintro q rfl hsame
    exact absurd (congrArg List.length hsame) (by simp)
  by_cases hself : kbd = (k.proc cur).pid
  case neg =>
    rw [hkbd, Option.some.injEq]
    have hinbox : inbox cur k = msg :: left := by
      rw [← htaken]
      exact ((doSend_queueOf hsend hpid).1 (Ne.symm hself)).symm
    exact iff_of_false (hshorter _ hinbox) fun h => hself h.1
  subst hself
  have hsent := doSend_queue hsend hpid
  rw [htaken] at hsent
  change _ = if (inbox cur k).length < ipcQueueMax then inbox cur k ++ [ownRequest (k.proc cur).pid]
    else inbox cur k at hsent
  by_cases hroom : (inbox cur k).length < ipcQueueMax
  · rw [if_pos hroom] at hsent
    rw [and_iff_right hkbd, and_iff_right hroom]
    constructor
    · rintro rfl
      exact (append_eq_cons_iff.mp hsent.symm).2
    · intro hall
      have hback : inbox cur k ++ [ownRequest (k.proc cur).pid] =
          ownRequest (k.proc cur).pid :: inbox cur k := append_eq_cons_iff.mpr ⟨rfl, hall⟩
      rw [hback] at hsent
      exact (List.cons.inj hsent).2
  · rw [if_neg hroom] at hsent
    exact iff_of_false (hshorter _ hsent.symm) fun h => hroom h.2.1

theorem read_late (h : Orderly k) (hruns : Runs (k.proc cur)) (kb : Keyboard) {a1 a2 : U64}
    (a3 : U64) (hmay : May (k.proc cur) capSyscall) (h2 : a2 > 0) (hbad : Bad (k.proc cur) a1 1)
    (hkey : keyRead (withKeys env kb) cur k ≠ 0) :
    Outcome.result (Syscall.sysRead (withKeys env kb) cur a1 a2 k) = err ∧
      (Untouched cur k kb (Syscall.sysRead (withKeys env kb) cur a1 a2 k) (keyboardAfter cur 2 k kb) ↔
        ¬ TooLate cur 2 a1 a2 a3 k) := by
  have hpid := h.proc hruns.1
  rw [sysRead_bad h h2 hbad hkey]
  refine ⟨rfl, Iff.trans ?_ not_not.symm⟩
  unfold keyRead at hkey
  cases hkbd : kbdService k with
  | none =>
    -- the key that the ports gave is gone
    obtain ⟨t, hrun⟩ := readKey_ports (withKeys env kb) cur hkbd
    rw [hrun] at hkey
    refine iff_of_false (fun hclean => ?_) fun hself => ?_
    · have hports : ReadsPorts cur 2 k := ⟨rfl, hmay, hkbd⟩
      have hsame := hclean.keyboard
      unfold keyboardAfter at hsame
      rw [if_pos hports] at hsame
      cases hc : (keyboardGetcNonblock kb).1 with
      | none =>
        apply hkey
        change (keyboardGetcNonblock kb).1.getD 0 = 0
        rw [hc]
        rfl
      | some c => exact keyboard_changes hc hsame
    · rw [hself.1] at hkbd
      simp at hkbd
  | some kbd =>
    have hno : ¬ ReadsPorts cur 2 k := by
      rintro ⟨-, -, hnone⟩
      rw [hkbd] at hnone
      simp at hnone
    have hkb : keyboardAfter cur 2 k kb = kb := if_neg hno
    cases hsend : doSend k.mailboxes (canIpc cur k) (k.proc cur).pid kbd 10 (ascii "g") 0 with
    | none =>
      rw [readKey_refused h hkbd hsend] at hkey
      exact absurd rfl hkey
    | some mbs =>
      rw [readKey_asked h hkbd hsend] at hkey ⊢
      cases hgot : (ipcTryReceive mbs (canIpc cur k) (k.proc cur).pid).2 with
      | none =>
        rw [hgot] at hkey
        exact absurd rfl hkey
      | some msg =>
        rw [← asked_inbox hpid hkbd hsend hgot, hkb]
        constructor
        · exact fun hclean => hclean.mailbox
        · intro hmailbox
          refine ⟨hmailbox, rfl, rfl, rfl, ?_⟩
          rintro x ⟨⟩

/-! ## Every call -/

/-- A call that fails at a pointer for its results leaves everything alone where it works after the check. -/
theorem failure_untouched_iff (m : Machine) (nodes : Nodes) (synallagma : Synallagma) {ops : List Op} {s : System}
    (h : Run (Step m) (boot nodes synallagma) ops s) (env : Env) (kb : Keyboard) (cur : Nat)
    (nr a1 a2 a3 a4 : U64) (hruns : Runs (s.kernel.proc cur))
    (herror : PointerError (withKeys env kb) cur nr a1 a2 a3 a4 s.kernel) :
    Outcome.result (syscallDispatch m (withKeys env kb) cur nr a1 a2 a3 a4 s.kernel) = err ∧
      (Untouched cur s.kernel kb (syscallDispatch m (withKeys env kb) cur nr a1 a2 a3 a4 s.kernel)
          (keyboardAfter cur nr s.kernel kb) ↔
        ¬ TooLate cur nr a1 a2 a3 s.kernel) := by
  have horderly := orderly_run h
  have hpid := horderly.proc hruns.1
  obtain ⟨hmay, herror⟩ := herror
  have hkb : nr ≠ 2 → keyboardAfter cur nr s.kernel kb = kb := fun hne => if_neg fun h => hne h.1
  unfold syscallDispatch
  rw [syscallCap_bind_may hmay]
  split at herror
  · next hnr =>
    obtain rfl : nr = 2 := BitVec.eq_of_toNat_eq hnr
    obtain ⟨h2, hbad, hkey⟩ := herror
    exact read_late horderly hruns kb a3 hmay h2 hbad hkey
  · next hnr =>
    obtain rfl : nr = 5 := BitVec.eq_of_toNat_eq hnr
    rw [hkb (by decide)]
    exact recv_late hpid kb herror.1 herror.2
  · next hnr =>
    obtain rfl : nr = 26 := BitVec.eq_of_toNat_eq hnr
    rw [hkb (by decide)]
    obtain ⟨hbad, name, hname, hfound⟩ := herror
    obtain ⟨hresult, hclean⟩ := query_clean horderly kb hbad hname hfound
    exact ⟨hresult, iff_of_true hclean not_false⟩
  · next hnr =>
    obtain rfl : nr = 36 := BitVec.eq_of_toNat_eq hnr
    rw [hkb (by decide)]
    obtain ⟨hadmin, hbad, name, hname, hissue⟩ := herror
    obtain ⟨hresult, hlate⟩ := issue_late kb hadmin hbad hname hissue
    exact ⟨hresult, iff_of_false hlate (not_not_intro trivial)⟩
  · exact herror.elim

def idleKeyboard : Keyboard := ⟨false, false, false, 0, 0, false, [], [], []⟩

/-- 'authd' issues a ticket for 'bob' and gives an address where it has no memory. -/
def issueBad : Env := callEnv [(nameAddr, bob)] 9

theorem failure_untouched_issue :
    let o := syscallDispatch smallMachine (withKeys issueBad idleKeyboard) 1 36 nameAddr userRights 8 0
      sessionStart.kernel
    Outcome.result o = err ∧
      (Untouched 1 sessionStart.kernel idleKeyboard o
          (keyboardAfter 1 36 sessionStart.kernel idleKeyboard) ↔
        ¬ TooLate 1 36 nameAddr userRights 8 sessionStart.kernel) := by
  refine failure_untouched_iff smallMachine [] synallagmaInit (Run.of_admits (by decide +kernel)) issueBad
    idleKeyboard 1 36 nameAddr userRights 8 0 (by decide +kernel) ⟨by decide +kernel, ?_⟩
  exact ⟨by decide +kernel, by decide +kernel, bob, by decide +kernel, by decide +kernel⟩

/-- The call fails, and the ticket is in the table. -/
theorem failed_issue_leaves_ticket :
    ¬ ∀ (m : Machine) (nodes : Nodes) (synallagma : Synallagma) (ops : List Op) (s : System),
      Run (Step m) (boot nodes synallagma) ops s →
        ∀ (env : Env) (kb : Keyboard) (cur : Nat) (nr a1 a2 a3 a4 : U64), Runs (s.kernel.proc cur) →
          PointerError (withKeys env kb) cur nr a1 a2 a3 a4 s.kernel →
            Untouched cur s.kernel kb (syscallDispatch m (withKeys env kb) cur nr a1 a2 a3 a4 s.kernel)
              (keyboardAfter cur nr s.kernel kb) := by
  intro h
  have hclean := h smallMachine [] synallagmaInit _ sessionStart (Run.of_admits (by decide +kernel)) issueBad
    idleKeyboard 1 36 nameAddr userRights 8 0 (by decide +kernel)
    ⟨by decide +kernel, by decide +kernel, by decide +kernel, bob, by decide +kernel, by decide +kernel⟩
  exact absurd hclean.tickets (by decide +kernel)

end Siathos.Session
