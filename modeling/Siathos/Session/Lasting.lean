import Siathos.Session.Rights

/-!
# What lasts for the life of a process

A property that new processes have, and that scheduling, memory and logins leave alone, holds of every
process in every state.
-/

open Lib Lib.Call Siathos.Nomos Siathos.Fs Siathos.Ipc Siathos.Proc Siathos.Syscall

namespace Siathos.Session

/-- What the loader makes: a process with a number, and the rights of every ring-3 process. -/
structure Fresh (p : Process) : Prop where
  pid : 0 < p.pid
  rights : Within baseRights p.rights

structure Lasting (P : Process → Prop) : Prop where
  fresh : ∀ p, Fresh p → P p
  absent : ∀ p, P p → P { p with present := false }
  sched : ∀ p state exitCode waitPid waitCode, P p → P { p with state, exitCode, waitPid, waitCode }
  memory : ∀ p umap umapHeap devioBase devioUsed, P p → P { p with umap, umapHeap, devioBase, devioUsed }
  grown : ∀ p r session login, P p → P { p with rights := p.rights ||| r, session, login }

/-- Every slot of the process table has the property. -/
def Steady (P : Process → Prop) (k : Kernel) : Prop := 0 < k.nextPid ∧ ∀ p ∈ k.procs, P p

variable {P : Process → Prop} {k : Kernel}

theorem Steady.setProc (h : Steady P k) (cur : Nat) {f : Process → Process} (hf : ∀ p, P p → P (f p)) :
    Steady P (k.setProc cur f) := ⟨h.1, forall_modify h.2 fun p _ => hf p⟩

theorem Steady.updatePid (h : Steady P k) (pid : Nat) {f : Process → Process} (hf : ∀ p, P p → P (f p)) :
    Steady P { k with procs := Syscall.updatePid pid f k.procs } := ⟨h.1, forall_updatePid h.2 hf⟩

namespace Lasting

theorem gc (hP : Lasting P) (h : Steady P k) : Steady P (procGcRun k) := by
  refine ⟨h.1, ?_⟩
  intro q hq
  obtain ⟨p, hp, rfl⟩ := List.mem_map.mp hq
  split
  · exact hP.absent p (h.2 p hp)
  · exact h.2 p hp

theorem wakeup (hP : Lasting P) (h : Steady P k) (pid : Nat) : Steady P (schedWakeup pid k) := by
  refine h.updatePid pid fun p hp => ?_
  split
  · exact hP.sched p .ready p.exitCode p.waitPid p.waitCode hp
  · exact hp

theorem exit (hP : Lasting P) (h : Steady P k) (cur : Nat) (code : BitVec 32) :
    Steady P (procExit cur code k) := by
  refine ⟨h.1, forall_modify (forall_updatePid h.2 fun p hp => ?_) fun p _ hp => ?_⟩
  · exact hP.sched p _ p.exitCode _ code hp
  · exact hP.sched p .terminated code p.waitPid p.waitCode hp

theorem tame (hP : Lasting P) (cur : Nat) : Tame cur (Steady P) where
  mailboxes _ _ h := h
  svcTable _ _ _ h _ _ := h
  nodes _ _ h := h
  wakeup _ pid h := hP.wakeup h pid
  gc _ h := hP.gc h
  accounts _ _ _ h := h
  verified _ _ h := h
  waited _ h := h.setProc cur fun p hp => hP.sched p p.state p.exitCode 0 p.waitCode hp
  block _ h := h.setProc cur fun p hp => hP.sched p .blocked p.exitCode p.waitPid p.waitCode hp

theorem load (hP : Lasting P) (h : Steady P k) (cur : Nat) (pname : CStr) (load : Load) :
    Steady P (execElfCore cur pname load k).1 := by
  rcases execElfCore_new cur pname load k with hk | ⟨idx, p, pid, -, hpid, hrights, -, -, hk⟩
  · rw [hk]
    exact h
  rw [hk]
  refine ⟨Nat.succ_pos _, fun q hq => ?_⟩
  rcases List.mem_or_eq_of_mem_set hq with hq | rfl
  · exact h.2 q hq
  · apply hP.fresh
    refine ⟨hpid ▸ h.1, ?_⟩
    rw [hrights]
    unfold loadRights
    split
    · exact within_left _ _
    · exact (within_iff _ _).mpr fun _ hi => hi

theorem embedded (hP : Lasting P) (h : Steady P k) (m : Machine) (cur : Nat) (name : CStr) (load : Load) :
    Steady P (execEmbeddedArgs m cur name load k).1 := by
  rcases execEmbeddedArgs_cases m cur name load k with hk | hk
  · rw [hk]
    exact h
  · rw [hk]
    exact hP.load h cur name load

theorem exec (hP : Lasting P) (h : Steady P k) (m : Machine) (env : Env) (cur : Nat) (path : CStr) :
    Steady P (execUserPath m env cur path k).1 := by
  apply execUserPath_keeps h
  · exact fun k name hk => hP.embedded hk m cur name env.loadEmbedded
  · exact fun k hk => hP.load hk cur _ env.loadFile

theorem syscall (hP : Lasting P) (h : Steady P k) (m : Machine) (env : Env) (cur : Nat)
    (nr a1 a2 a3 a4 : U64) : Steady P (syscallDispatch m env cur nr a1 a2 a3 a4 k).state := by
  rcases syscallDispatch_cases m env cur nr a1 a2 a3 a4 k with hs | hs
  · rw [hs]
    exact h
  rw [hs]
  have hi := hP.tame cur
  have ht : Trusts cur (Steady P) fun _ => True := fun _ _ _ _ _ _ _ _ _ => trivial
  refine (dispatchNr_meets hi ht nr a1 a2 a3 a4 (fun hspecial => ?_) k h).2.1
  simp only [special, List.mem_cons, List.not_mem_nil, or_false] at hspecial
  unfold dispatchNr
  rcases hspecial with h | h | h | h | h | h | h | h | h | h <;> rw [h]
  · exact sysExit_meets a1 fun k code hk => hP.exit hk cur code
  · exact sysExec_meets ht a1 a2 a3 fun k path hk => hP.exec hk m env cur path
  · exact sysIpcSend_meets hi ht a1 a2 fun _ _ _ _ => trivial
  · exact sysIpcRecv_meets hi ht a3 a4 fun _ _ _ _ => trivial
  · exact sysFsRead_meets ht a1 a2 a3 fun _ _ _ _ _ _ _ _ _ _ => trivial
  · exact sysIpcSend_meets hi ht a1 a2 fun _ _ _ _ => trivial
  · refine sysSessionLogin_meets ht a1 a2 a3 (fun _ _ hk => hk) (fun _ _ _ hk => hk) fun k caps hk => ?_
    exact hk.setProc cur fun p hp => hP.grown p caps p.session (some caps) hp
  · exact sysMmap_meets a1 fun k u heap hk =>
      hk.setProc cur fun p hp => hP.memory p (u p) (heap p) p.devioBase p.devioUsed hp
  · exact sysDevMap_meets a1 a2 fun k b u hk =>
      hk.setProc cur fun p hp => hP.memory p p.umap p.umapHeap (b p) (u p) hp
  · exact sysAuthTicketIssue_meets ht a1 a2 a3 fun k auth hk => hk

theorem init (hP : Lasting P) {s : System} (h : Steady P s.kernel) (m : Machine) (load : Load) :
    Steady P (initStep m load s).kernel := by
  have hstart : ∀ {pid : Nat} {k : Kernel}, Steady P k → Steady P (startSession pid k) := by
    intro pid k hk
    refine hk.updatePid pid fun p hp => ?_
    have hgrown := hP.grown p 0 pid none hp
    rwa [show p.rights ||| 0 = p.rights from BitVec.or_zero] at hgrown
  unfold initStep
  split
  · split
    · exact h
    rename_i name kormi _
    split
    · have hk := hP.embedded h m initSlot name load
      revert hk
      generalize execEmbeddedArgs m initSlot name load s.kernel = r
      obtain ⟨k, pid⟩ := r
      intro hk
      cases pid with
      | none => exact hk
      | some pid =>
        have hgrant : Steady P (capGrant pid kormiRights k) :=
          hk.updatePid pid fun p hp => hP.grown p kormiRights p.session p.login hp
        exact hstart hgrant
    · exact h
  · have hk := hP.embedded h m initSlot spoudazo load
    revert hk
    generalize execEmbeddedArgs m initSlot spoudazo load s.kernel = r
    obtain ⟨k, pid⟩ := r
    intro hk
    cases pid with
    | none => exact hk
    | some pid => exact hstart hk
  · split
    · exact hP.gc h
    · exact h
  · exact h

theorem step (hP : Lasting P) {m : Machine} {s t : System} {o : Op} (h : Steady P s.kernel)
    (hstep : Step m s o t) : Steady P t.kernel := by
  obtain ⟨-, rfl⟩ := hstep
  cases o with
  | syscall cur env nr a1 a2 a3 a4 => exact hP.syscall h m env cur nr a1 a2 a3 a4
  | init load => exact hP.init h m load
  | gc => exact hP.gc h

end Lasting

theorem steady_boot (nodes : Nodes) (synallagma : Synallagma) (hinit : P initProc) (hempty : P emptySlot) :
    Steady P (boot nodes synallagma).kernel := by
  refine ⟨Nat.zero_lt_two, fun p hp => ?_⟩
  rcases List.mem_cons.mp hp with rfl | hp
  · exact hinit
  · rw [List.eq_of_mem_replicate hp]
    exact hempty

theorem Steady.proc (h : Steady P k) (hempty : P emptySlot) (i : Nat) : P (k.proc i) := by
  unfold Kernel.proc
  rw [List.getD_eq_getElem?_getD]
  cases hp : k.procs[i]? with
  | none => exact hempty
  | some p => exact h.2 p (List.mem_of_getElem? hp)

end Siathos.Session
