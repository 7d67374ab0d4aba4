import Siathos.Context.Choice
import Siathos.Lib.RoundRobin

/-!
# Nobody starves (`proc.c`)

A process that is READY stays READY until it is dispatched, and each switch meanwhile brings its turn nearer.
So its turn comes within one round of the table, however the processes yield, block, exit and are created.
-/

open Lib Lib.RoundRobin

namespace Siathos.Context

/-! ## Slots that an operation leaves alone -/

section

variable {s : Sys} {k : Nat}

theorem resume_procs {j : Nat} (dst : Proc) (switch : Mem → Cpu → CpuContext → Cpu × CpuContext) (hk : k ≠ j) :
    (resume s j dst switch).procs k = s.procs k := setProc_of_ne _ hk

/-- The slot is as it was in `procs`, unless the process in it goes on. -/
def Spares (k : Nat) (procs : Nat → Option Proc) (t : Sys) : Prop := t.procs k = procs k ∨ t.current = some k

theorem spares_resume {procs : Nat → Option Proc} {j : Nat} (dst : Proc)
    (switch : Mem → Cpu → CpuContext → Cpu × CpuContext) (h : k ≠ j → s.procs k = procs k) :
    Spares k procs (resume s j dst switch) := by
  by_cases hk : k = j
  · exact .inr (by rw [hk]; rfl)
  · exact .inl ((resume_procs dst switch hk).trans (h hk))

theorem spares_schedSwitch {procs : Nat → Option Proc} {i j : Nat} (src dst : Proc) (hi : k ≠ i)
    (h : s.procs k = procs k) : Spares k procs (schedSwitch s i j src dst) := by
  apply spares_resume
  intro _
  rw [schedPrep_procs]
  exact (setProc_of_ne _ hi).trans h

theorem schedYield_spares (hk : s.current ≠ some k) : Spares k s.gc.procs (schedYield s) := by
  unfold schedYield
  dsimp only
  split
  · exact .inl rfl
  split
  · split
    · exact .inl rfl
    split
    · exact .inl rfl
    · apply spares_resume
      intro _
      rw [schedPrep_procs]
  · rename_i i hcur
    have hki : k ≠ i := by
      rintro rfl
      exact hk hcur
    split
    · exact .inl rfl
    split
    · exact .inl ((setProc_of_ne _ hki).trans (setProc_of_ne _ hki))
    split
    · exact .inl ((setProc_of_ne _ hki).trans (setProc_of_ne _ hki))
    split
    · exact .inl (setProc_of_ne _ hki)
    · exact spares_schedSwitch _ _ hki (setProc_of_ne _ hki)

theorem schedBlock_spares (hk : s.current ≠ some k) : Spares k s.procs (schedBlock s) := by
  unfold schedBlock
  split
  · exact .inl rfl
  rename_i i hcur
  have hki : k ≠ i := by
    rintro rfl
    exact hk hcur
  dsimp only
  split
  · exact .inl rfl
  split
  · exact .inl ((setProc_of_ne _ hki).trans (setProc_of_ne _ hki))
  split
  · exact .inl (setProc_of_ne _ hki)
  · exact spares_schedSwitch _ _ hki (setProc_of_ne _ hki)

theorem schedTick_spares (hk : s.current ≠ some k) : Spares k s.procs (schedTick s) := by
  unfold schedTick
  split
  · exact .inl rfl
  rename_i i hcur
  have hki : k ≠ i := by
    rintro rfl
    exact hk hcur
  split
  · exact .inl rfl
  split
  · dsimp only
    split
    · exact .inl (setProc_of_ne _ hki)
    split
    · exact .inl (setProc_of_ne _ hki)
    split
    · exact .inl (setProc_of_ne _ hki)
    · exact spares_schedSwitch _ _ hki (setProc_of_ne _ hki)
  · exact .inl rfl

theorem isrCommonStub_spares (hk : s.current ≠ some k) (base : Nat) (regs : Gprs) :
    Spares k s.procs (isrCommonStub s base regs (irqCommonHandler s)) ∨
      Spares k s.gc.procs (isrCommonStub s base regs (irqCommonHandler s)) := by
  unfold irqCommonHandler
  split
  case isFalse => exact .inl (.inl rfl)
  right
  rcases schedPreemptPick_cases s with hstay | ⟨i, j, hcur, -, -, hswitch⟩
  · rw [hstay]
    exact .inl rfl
  have hki : k ≠ i := by
    rintro rfl
    exact hk hcur
  have hother : setState s.gc.procs i .ready k = s.gc.procs k := Function.update_of_ne hki _ _
  rw [hswitch, isrCommonStub]
  split
  · apply spares_resume
    intro _
    rw [schedPrep_procs]
    exact (setProc_of_ne _ hki).trans hother
  · exact .inl hother

theorem timerIrq_spares (hk : s.current ≠ some k) (scratch : Mem) (regs : Gprs) :
    Spares k s.procs (timerIrq s scratch regs) ∨ Spares k s.gc.procs (timerIrq s scratch regs) := by
  unfold timerIrq
  generalize isrEntry s.tssRsp0 s.mem s.cpu = entry
  obtain ⟨mem, base⟩ := entry
  exact isrCommonStub_spares (s := { s with mem := fun a => if a < base then scratch a else mem a }) hk base regs

theorem exit_spares {t : Sys} (hk : s.current ≠ some k) (ht : (procExit s).bind procExitSwitch = some t) :
    Spares k s.procs t := by
  unfold procExit procExitSwitch at ht
  simp only [Option.bind_eq_bind, Option.bind_eq_some_iff, Option.pure_def, Option.some.injEq] at ht
  obtain ⟨u, ⟨i, hcur, j, -, dst, -, rfl⟩, j', hj', dst', -, rfl⟩ := ht
  have hki : k ≠ i := by
    rintro rfl
    exact hk hcur
  rw [schedPrep_current] at hj'
  obtain rfl : j = j' := Option.some.inj hj'
  apply spares_resume
  intro hkj
  dsimp only
  rw [schedPrep_procs]
  exact (setProc_of_ne _ hkj).trans (Function.update_of_ne hki _ _)

theorem schedWakeup_spares (i : Nat) {p : Proc} (hp : s.procs k = some p) (hready : p.state = .ready) :
    (schedWakeup s i).procs k = some p := by
  unfold schedWakeup
  split
  · exact hp
  rename_i q hq
  split
  · rename_i hblocked
    have hki : k ≠ i := by
      rintro rfl
      obtain rfl : p = q := Option.some.inj (hp.symm.trans hq)
      rw [hready] at hblocked
      simp at hblocked
    exact (setProc_of_ne _ hki).trans hp
  · exact hp

theorem schedResumed_spares (hk : s.current ≠ some k) {p : Proc} (hp : s.procs k = some p) :
    (schedResumed s).procs k = some p := by
  unfold schedResumed
  split
  · exact hp
  rename_i i hcur
  have hki : k ≠ i := by
    rintro rfl
    exact hk hcur
  exact (Function.update_of_ne hki _ _).trans hp

theorem procCreate_spares (stale : Proc) (setup : Setup) {p : Proc} (hp : s.procs k = some p)
    (hready : p.state = .ready) : ((procCreate s stale setup).getD s).procs k = some p := by
  unfold procCreate procCreateBegin
  cases hi : findFree s.procs with
  | none => exact hp
  | some i =>
    have hki : k ≠ i := by
      rintro rfl
      have hfree := List.find?_some hi
      simp [isFree, hp, hready] at hfree
    have hset : ∀ q, setProc s.procs i q k = some p := fun q => (setProc_of_ne q hki).trans hp
    simp only [Option.bind_eq_bind, Option.bind_some, Option.pure_def, setProc_self, Option.getD_some]
    cases setup with
    | fail => exact (Function.update_of_ne hki _ _).trans (hset _)
    | kernel => exact (setProc_of_ne _ hki).trans (hset _)
    | user => exact (setProc_of_ne _ hki).trans (hset _)

end

/-! ## Operations that switch -/

/-- The operations that give the processor to another process, where one is READY. -/
def SchedOp.switches : SchedOp → Bool
  | .yield | .block | .tick | .timer _ _ | .exit => true
  | _ => false

section

variable {s : Sys} {i : Nat}

/-- Where another process is READY, `switch` finds it once the current one has stopped. -/
theorem finds_next (h : SchedInv s) (hcur : s.current = some i)
    (hsome : nextReadyFrom s.procs (s.currentIndex + 1) ≠ none) (src : Proc) :
    ∃ j dst, j ≠ i ∧ nextReadyFrom (setProc s.procs i src) (s.currentIndex + 1) = some j ∧ s.procs j = some dst := by
  obtain ⟨j, hji, hj⟩ := next_before_current h src hcur hsome
  obtain ⟨-, dst, hdst, -⟩ := h.next hcur hji hj
  exact ⟨j, dst, hji, hj, hdst⟩

theorem ne_of_moves {j : Nat} (hji : j ≠ i) : some j ≠ some i := fun heq => hji (Option.some.inj heq)

theorem schedYield_moves (h : SchedInv s) (hcur : s.current = some i)
    (hsome : nextReadyFrom s.procs (s.currentIndex + 1) ≠ none) : (schedYield s).current ≠ some i := by
  have hgc := h.gc
  have hstarted : s.gc.schedulerRunning = true := h.started (by simp [hcur])
  obtain ⟨-, ⟨src, hsrc, hrun⟩, -⟩ := hgc.running hcur
  rw [← nextReadyFrom_gc] at hsome
  obtain ⟨j, dst, hji, hj, hdst⟩ := finds_next hgc hcur hsome { src with state := .ready }
  have hcur' : s.gc.current = some i := hcur
  unfold schedYield
  simp only [hstarted, Bool.not_true, Bool.false_eq_true, if_false, hcur', hsrc, hrun, if_true, hj, if_neg hji,
    setProc_of_ne _ hji, hdst]
  exact ne_of_moves hji

theorem schedBlock_moves (h : SchedInv s) (hcur : s.current = some i)
    (hsome : nextReadyFrom s.procs (s.currentIndex + 1) ≠ none) : (schedBlock s).current ≠ some i := by
  obtain ⟨-, ⟨src, hsrc, hrun⟩, -⟩ := h.running hcur
  obtain ⟨j, dst, hji, hj, hdst⟩ := finds_next h hcur hsome { src with state := .blocked }
  unfold schedBlock
  simp only [hcur, hsrc, hj, setProc_of_ne _ hji, hdst]
  exact ne_of_moves hji

theorem schedTick_moves (h : SchedInv s) (hcur : s.current = some i)
    (hsome : nextReadyFrom s.procs (s.currentIndex + 1) ≠ none) : (schedTick s).current ≠ some i := by
  obtain ⟨hidx, ⟨src, hsrc, hrun⟩, -⟩ := h.running hcur
  have hstarted := h.started (by simp [hcur])
  obtain ⟨j, dst, hji, hj, hdst⟩ := finds_next h hcur hsome { src with state := .ready }
  have hjidx : j ≠ s.currentIndex := by rwa [hidx]
  unfold schedTick
  simp only [hcur, hsrc, hstarted, hrun, decide_true, Bool.and_true, if_true, hj, if_neg hjidx,
    setProc_of_ne _ hji, hdst]
  exact ne_of_moves hji

theorem isrCommonStub_moves (h : SchedInv s) (hcur : s.current = some i)
    (hsome : nextReadyFrom s.procs (s.currentIndex + 1) ≠ none) (base : Nat) (regs : Gprs) :
    (isrCommonStub s base regs (irqCommonHandler s)).current ≠ some i := by
  have hgc := h.gc
  obtain ⟨hidx, ⟨src, hsrc, hrun⟩, -⟩ := hgc.running hcur
  have hstarted := h.started (by simp [hcur])
  have hold := gc_procs hsrc
  rw [← nextReadyFrom_gc] at hsome
  obtain ⟨j, dst, hji, hj, hdst⟩ := finds_next hgc hcur hsome { src with state := .ready }
  have hjidx : j ≠ s.currentIndex := fun heq => hji (heq.trans hidx)
  have hsrc' : procGcRun s.procs i = some src := hsrc
  have hdst' : procGcRun s.procs j = some dst := hdst
  have hj' : nextReadyFrom (setProc (procGcRun s.procs) i { src with state := .ready }) (s.currentIndex + 1) =
    some j := hj
  unfold irqCommonHandler schedPreemptPick
  simp only [hcur, Option.bind_some, hold, Option.any_some, hrun, decide_true, hstarted, Bool.and_self, if_true,
    Bool.not_true, hsrc', Bool.or_self, Bool.false_eq_true, if_false, setState_eq hsrc', hj', if_neg hjidx,
    isrCommonStub, setProc_self, setProc_of_ne _ hji, hdst']
  exact ne_of_moves hji

theorem timerIrq_moves (h : SchedInv s) (hcur : s.current = some i)
    (hsome : nextReadyFrom s.procs (s.currentIndex + 1) ≠ none) (scratch : Mem) (regs : Gprs) :
    (timerIrq s scratch regs).current ≠ some i := by
  unfold timerIrq
  generalize isrEntry s.tssRsp0 s.mem s.cpu = entry
  obtain ⟨mem, base⟩ := entry
  exact isrCommonStub_moves (s := { s with mem := fun a => if a < base then scratch a else mem a })
    (h.congr rfl rfl rfl rfl) hcur hsome base regs

/-- `proc_exit` returns in another process. -/
theorem exit_moves (h : SchedInv s) (hcur : s.current = some i) {t : Sys}
    (ht : (procExit s).bind procExitSwitch = some t) : t.current ≠ some i := by
  unfold procExit procExitSwitch at ht
  simp only [Option.bind_eq_bind, Option.bind_eq_some_iff, Option.pure_def, Option.some.injEq] at ht
  obtain ⟨u, ⟨i', hcur', j, hnext, dst, -, rfl⟩, j', hj', dst', -, rfl⟩ := ht
  rw [schedPrep_current] at hj'
  obtain rfl : j = j' := Option.some.inj hj'
  obtain rfl : i = i' := Option.some.inj (hcur.symm.trans hcur')
  obtain ⟨-, ⟨src, hsrc, -⟩, -⟩ := h.running hcur
  apply ne_of_moves
  rintro rfl
  obtain ⟨p, hp, hready⟩ := ready_of_next hnext
  rw [setState_eq hsrc, setProc_self] at hp
  rw [← Option.some.inj hp] at hready
  simp at hready

theorem switches_moves (h : SchedInv s) (hcur : s.current = some i)
    (hsome : nextReadyFrom s.procs (s.currentIndex + 1) ≠ none) {o : SchedOp} (ho : o.switches = true) {t : Sys}
    (ht : o.apply s = some t) : t.current ≠ some i := by
  cases o with
  | yield =>
    obtain rfl := Option.some.inj ht
    exact schedYield_moves h hcur hsome
  | block =>
    obtain rfl := Option.some.inj ht
    exact schedBlock_moves h hcur hsome
  | tick =>
    obtain rfl := Option.some.inj ht
    exact schedTick_moves h hcur hsome
  | timer scratch regs =>
    obtain rfl := Option.some.inj ht
    exact timerIrq_moves h hcur hsome scratch regs
  | exit => exact exit_moves h hcur ht
  | run => cases ho
  | create => cases ho
  | runFirst => cases ho
  | wakeup => cases ho
  | gc => cases ho
  | resumed => cases ho

end

/-! ## Waiting -/

/-- The slot `i` holds the READY process `p`, and another one runs. -/
structure Waiting (i : Nat) (p : Proc) (s : Sys) : Prop where
  inv : SchedInv s
  started : s.current ≠ none
  here : s.procs i = some p
  ready : p.state = .ready

/-- The step goes on with the process `p` of the slot `i`. -/
def Served (i : Nat) (p : Proc) (s : Sys) (_ : SchedOp) (t : Sys) : Prop :=
  t.current = some i ∧ ∃ r, t.log = r :: s.log ∧ r.serial = p.serial

namespace Waiting

variable {i : Nat} {p : Proc} {s : Sys}

theorem ne_current (h : Waiting i p s) : s.current ≠ some i := by
  intro hcur
  obtain ⟨-, ⟨q, hq, hrun⟩, -⟩ := h.inv.running hcur
  obtain rfl : p = q := Option.some.inj (h.here.symm.trans hq)
  rw [h.ready] at hrun
  simp at hrun

theorem isReady (h : Waiting i p s) : Context.isReady s.procs i = true := by
  simp [Context.isReady, h.here, h.ready]

theorem gc (h : Waiting i p s) : s.gc.procs i = some p := by
  simp [Sys.gc, procGcRun, h.here, h.ready]

theorem stays (h : Waiting i p s) {o : SchedOp} {t : Sys} (hstep : SchedOp.Step s o t) :
    t.procs i = some p ∨ t.current = some i := by
  have hne := h.ne_current
  have hspares : ∀ {procs : Nat → Option Proc}, procs i = some p → Spares i procs t →
      t.procs i = some p ∨ t.current = some i :=
    fun hp hs => hs.imp_left (·.trans hp)
  obtain ⟨hallowed, ht⟩ := hstep
  cases o with
  | exit => exact hspares h.here (exit_spares hne ht)
  | run cpu mem =>
    obtain rfl := Option.some.inj ht
    exact .inl h.here
  | create stale setup =>
    obtain rfl := Option.some.inj ht
    exact .inl (procCreate_spares stale setup h.here h.ready)
  | runFirst => exact absurd hallowed h.started
  | wakeup j =>
    obtain rfl := Option.some.inj ht
    exact .inl (schedWakeup_spares j h.here h.ready)
  | yield =>
    obtain rfl := Option.some.inj ht
    exact hspares h.gc (schedYield_spares hne)
  | block =>
    obtain rfl := Option.some.inj ht
    exact hspares h.here (schedBlock_spares hne)
  | tick =>
    obtain rfl := Option.some.inj ht
    exact hspares h.here (schedTick_spares hne)
  | timer scratch regs =>
    obtain rfl := Option.some.inj ht
    exact (timerIrq_spares hne scratch regs).elim (hspares h.here) (hspares h.gc)
  | gc =>
    obtain rfl := Option.some.inj ht
    exact .inl h.gc
  | resumed =>
    obtain rfl := Option.some.inj ht
    exact .inl (schedResumed_spares hne h.here)

theorem next (h : Waiting i p s) (hi : i < maxProcs) : ∃ j, FirstReady s.procs (s.currentIndex + 1) j := by
  rw [relieved_iff]
  intro hnone
  unfold nextReadyFrom at hnone
  rw [List.find?_eq_none] at hnone
  refine hnone i (List.mem_map.mpr ⟨ahead maxProcs s.currentIndex i, ?_, seat_ahead hi⟩) h.isReady
  exact List.mem_range.mpr (ahead_lt (by decide) _ _)

theorem step (h : Waiting i p s) (hi : i < maxProcs) {o : SchedOp} {t : Sys}
    (hstep : Guarded Relieved SchedOp.Step s o t) :
    Served i p s o t ∨ Waiting i p t ∧
      ahead maxProcs t.currentIndex i + (if o.switches then 1 else 0) ≤ ahead maxProcs s.currentIndex i := by
  obtain ⟨hrel, hallowed, ht⟩ := hstep
  obtain ⟨horder, hinv⟩ := sched_step h.inv ⟨hallowed, ht⟩
  have hinv := hinv hrel
  have hstays := h.stays ⟨hallowed, ht⟩
  obtain ⟨c, hcur⟩ := Option.ne_none_iff_exists'.mp h.started
  obtain ⟨hidx, -, -⟩ := h.inv.running hcur
  rcases horder with ⟨hsame, -⟩ | ⟨j, q, r, hfirst, hq, -, hj, hlog, hserial⟩
  · right
    have hcur' := hsame.trans hcur
    obtain ⟨hidx', -, -⟩ := hinv.running hcur'
    refine ⟨⟨hinv, by simp [hcur'], hstays.resolve_right ?_, h.ready⟩, ?_⟩
    · rw [hsame]
      exact h.ne_current
    · have hno : o.switches = false := by
        by_contra hyes
        exact switches_moves h.inv hcur (relieved_iff.mp (h.next hi)) (by simpa using hyes) ht hcur'
      rw [hidx', hidx, hno]
      simp
  · by_cases hji : j = i
    · subst hji
      obtain rfl : p = q := Option.some.inj (h.here.symm.trans hq)
      exact .inl ⟨hj, r, hlog, hserial⟩
    · right
      obtain ⟨hidx', -, -⟩ := hinv.running hj
      refine ⟨⟨hinv, by simp [hj], hstays.resolve_right ?_, h.ready⟩, ?_⟩
      · rw [hj]
        exact ne_of_moves hji
      · have hstart : o.start s = s.currentIndex + 1 := by
          cases o with
          | runFirst => exact absurd hallowed h.started
          | _ => rfl
        rw [hstart] at hfirst
        have hturn : Turn maxProcs (fun k => Context.isReady s.procs k = true) s.currentIndex j := by
          simpa [Turn, FirstReady] using hfirst
        have hnear : ahead maxProcs j i < ahead maxProcs s.currentIndex i := hturn.nearer hi h.isReady hji
        rw [hidx']
        split <;> omega

end Waiting

/-- A READY process is dispatched before 64 switches are over. Until then it is left as it is. -/
theorem ready_served {userTrampoline : Nat} {cpu : Cpu} {mem : Mem} {before : List SchedOp} {s : Sys}
    (h : Run (Guarded Relieved SchedOp.Step) (boot userTrampoline cpu mem) before s) (hstarted : s.current ≠ none)
    {i : Nat} (hi : i < maxProcs) {p : Proc} (hp : s.procs i = some p) (hready : p.state = .ready)
    {ops : List SchedOp} {t : Sys} (hrun : Run (Guarded Relieved SchedOp.Step) s ops t) :
    Run.Meets (Guarded Relieved SchedOp.Step) (Served i p) s ops t ∨
      t.procs i = some p ∧ ops.countP SchedOp.switches < maxProcs := by
  have hwait : Waiting i p s := ⟨schedInv_run h, hstarted, hp, hready⟩
  have hstep : ∀ s o t, Waiting i p s → Guarded Relieved SchedOp.Step s o t → Served i p s o t ∨ Waiting i p t ∧
      ahead maxProcs t.currentIndex i + (if o.switches then 1 else 0) ≤ ahead maxProcs s.currentIndex i :=
    fun _ _ _ hw hs => hw.step hi hs
  rcases hrun.meets hstep hwait with hmeets | ⟨ht, hle⟩
  · exact .inl hmeets
  · have hlt := ahead_lt (by decide : 0 < maxProcs) s.currentIndex i
    exact .inr ⟨ht.here, by omega⟩

/-- A second process, which waits while the first one runs. -/
def pairRun : List SchedOp :=
  [.create emptySlot (.kernel 0x10000 0x500 0 0 0 fun _ => 0),
  .create emptySlot (.kernel 0x20000 0x600 0 0 0 fun _ => 0),
    .runFirst]

def pair : Sys := (pairRun.foldl (fun s o => s.bind (SchedOp.apply · o)) (some booted)).getD booted

def second : Proc := (pair.procs 1).getD emptySlot

theorem run_pair : Run (Guarded Relieved SchedOp.Step) booted pairRun pair :=
  .cons ⟨trivial, trivial, rfl⟩ (.cons ⟨trivial, trivial, rfl⟩ (.cons ⟨trivial, rfl, rfl⟩ (.nil _)))

theorem ready_served_second :
    Run.Meets (Guarded Relieved SchedOp.Step) (Served 1 second) pair [.yield] (schedYield pair) ∨
      (schedYield pair).procs 1 = some second ∧ 1 < maxProcs :=
  ready_served run_pair (by decide +kernel) (by decide) (by rfl) (by decide +kernel)
    (.single ⟨trivial, trivial, rfl⟩)

end Siathos.Context
