import Siathos.Context.Preserve

/-!
# Who runs (`proc.c`)

Exactly one process is RUNNING, and the scheduler takes the next READY one in cyclic order. The
operations of the scheduler keep this, except a `sched_tick` that finds nobody else.
-/

open Lib

namespace Siathos.Context

/-- `sched_tick`. -/
def schedTick (s : Sys) : Sys :=
  match s.current with
  | none => s
  | some i =>
    match s.procs i with
    | none => s
    | some src =>
      if s.schedulerRunning && decide (src.state = .running) then
        let src := { src with state := .ready }
        let s := { s with procs := setProc s.procs i src }
        match nextReadyFrom s.procs (s.currentIndex + 1) with
        | none => s
        | some j =>
          if j = s.currentIndex then s
          else match s.procs j with
            | none => s
            | some dst => schedSwitch s i j src dst
      else s

/-- The end of `sched_switch`, when the process that called it runs again. -/
def schedResumed (s : Sys) : Sys :=
  match s.current with
  | none => s
  | some i => { s with procs := setState s.procs i .running }

/-- How the creation of a process ends. -/
inductive Setup
  | fail
  | kernel (stack entry argc argv cr3 : Nat) (args : Mem)
  | user (stack entry userRsp argc argv cr3 : Nat)

/-- A creation as a whole. Nothing where the table is full. -/
def procCreate (s : Sys) (stale : Proc) (setup : Setup) : Option Sys := do
  let i ← findFree s.procs
  let s ← procCreateBegin s stale
  let p ← s.procs i
  pure (match setup with
    | .fail => { s with procs := Function.update s.procs i none }
    | .kernel stack entry argc argv cr3 args => procSetupStack s i p stack entry argc argv cr3 args
    | .user stack entry userRsp argc argv cr3 => procEnterUser s i p stack entry userRsp argc argv cr3)

inductive SchedOp
  /-- Code of the current process, or of the boot. -/
  | run (cpu : Cpu) (mem : Mem)
  | create (stale : Proc) (setup : Setup)
  | runFirst
  | wakeup (i : Nat)
  | yield
  | block
  | tick
  | timer (scratch : Mem) (regs : Gprs)
  | exit
  | gc
  | resumed

namespace SchedOp

/-- Nothing where the operation does not return. -/
def apply (s : Sys) : SchedOp → Option Sys
  | .run cpu mem => some { s with cpu, mem }
  | .create stale setup => some ((procCreate s stale setup).getD s)
  | .runFirst => some (schedRunFirst s)
  | .wakeup i => some (schedWakeup s i)
  | .yield => some (schedYield s)
  | .block => some (schedBlock s)
  | .tick => some (schedTick s)
  | .timer scratch regs => some (timerIrq s scratch regs)
  | .exit => (procExit s).bind procExitSwitch
  | .gc => some s.gc
  | .resumed => some (schedResumed s)

def Allowed (s : Sys) : SchedOp → Prop
  | .runFirst => s.current = none
  | _ => True

def Step (s : Sys) (o : SchedOp) (t : Sys) : Prop := Allowed s o ∧ apply s o = some t

/-- Where the operation starts to look for the next process. -/
def start (s : Sys) : SchedOp → Nat
  | .runFirst => 0
  | _ => s.currentIndex + 1

end SchedOp

/-! ## What is claimed of a state and of a step -/

/-- One process is RUNNING: the current one, in the slot `current_index`. -/
def OneRunning (s : Sys) : Prop :=
  ∃ i p, s.current = some i ∧ s.currentIndex = i ∧ s.procs i = some p ∧ p.state = .running ∧
    ∀ k q, k ≠ i → s.procs k = some q → q.state ≠ .running

/-- The first READY process in cyclic order. -/
def FirstReady (procs : Nat → Option Proc) (start j : Nat) : Prop :=
  ∃ c < maxProcs, j = (start + c) % maxProcs ∧ isReady procs j = true ∧
    ∀ d < c, isReady procs ((start + d) % maxProcs) = false

/-- The step goes on with the same process, or dispatches the first that is READY. -/
def Orderly (s : Sys) (o : SchedOp) (t : Sys) : Prop :=
  (t.current = s.current ∧ t.log = s.log) ∨
    ∃ j p r, FirstReady s.procs (o.start s) j ∧ s.procs j = some p ∧ p.state = .ready ∧
      t.current = some j ∧ t.log = r :: s.log ∧ r.serial = p.serial

theorem nextReadyFrom_iff {procs : Nat → Option Proc} {start j : Nat} :
    nextReadyFrom procs start = some j ↔ FirstReady procs start j := by
  unfold nextReadyFrom FirstReady
  rw [List.find?_map, Option.map_eq_some_iff]
  constructor
  · rintro ⟨c, hc, rfl⟩
    obtain ⟨hready, hlt, hfirst⟩ := List.find?_range_eq_some.mp hc
    refine ⟨c, by simpa using hlt, rfl, hready, ?_⟩
    intro d hd
    simpa using hfirst d hd
  · rintro ⟨c, hlt, rfl, hready, hfirst⟩
    refine ⟨c, List.find?_range_eq_some.mpr ⟨hready, by simpa using hlt, ?_⟩, rfl⟩
    intro d hd
    simpa using hfirst d hd

/-! ## Tables in which nobody else runs -/

/-- Nobody but the process of slot `i` is RUNNING. -/
def Quiet (procs : Nat → Option Proc) (i : Nat) : Prop :=
  ∀ k q, k ≠ i → procs k = some q → q.state ≠ .running

section

variable {procs : Nat → Option Proc} {i : Nat}

theorem Quiet.gc (h : Quiet procs i) : Quiet (procGcRun procs) i := by
  intro k q hk hq
  exact h k q hk (Option.filter_eq_some_iff.mp hq).1

theorem Quiet.set (h : Quiet procs i) (p : Proc) : Quiet (setProc procs i p) i := by
  intro k q hk hq
  rw [setProc_of_ne p hk] at hq
  exact h k q hk hq

theorem Quiet.stop (h : Quiet procs i) {p : Proc} (hp : p.state ≠ .running) (j : Nat) :
    Quiet (setProc procs i p) j := by
  intro k q _ hq
  by_cases hk : k = i
  · subst hk
    rw [setProc_self] at hq
    rwa [← Option.some.inj hq]
  · rw [setProc_of_ne p hk] at hq
    exact h k q hk hq

end

theorem OneRunning.of_quiet {s : Sys} {i : Nat} {p : Proc} (hcur : s.current = some i)
    (hidx : s.currentIndex = i) (hp : s.procs i = some p) (hrun : p.state = .running)
    (hquiet : Quiet s.procs i) : OneRunning s :=
  ⟨i, p, hcur, hidx, hp, hrun, hquiet⟩

theorem resume_one {s : Sys} {j : Nat} (dst : Proc)
    (switch : Mem → Cpu → CpuContext → Cpu × CpuContext) (h : Quiet s.procs j) :
    OneRunning (resume s j dst switch) := by
  apply OneRunning.of_quiet rfl rfl (setProc_self _ _ _) rfl
  exact h.set _

/-! ## The invariant -/

/-- Before scheduling starts nobody is RUNNING, and from then on one process is. -/
structure SchedInv (s : Sys) : Prop where
  idle : s.current = none → ∀ k q, s.procs k = some q → q.state ≠ .running
  one : s.current ≠ none → OneRunning s
  started : s.current ≠ none → s.schedulerRunning = true
  index : s.currentIndex < maxProcs

namespace SchedInv

variable {s : Sys}

theorem boot (userTrampoline : Nat) (cpu : Cpu) (mem : Mem) :
    SchedInv (Context.boot userTrampoline cpu mem) := by
  refine ⟨?_, fun h => absurd rfl h, fun h => absurd rfl h, Nat.zero_lt_succ _⟩
  intro _ k q hq
  simp [Context.boot] at hq

theorem running (h : SchedInv s) {i : Nat} (hcur : s.current = some i) :
    s.currentIndex = i ∧ (∃ p, s.procs i = some p ∧ p.state = .running) ∧ Quiet s.procs i := by
  obtain ⟨k, p, hk, hidx, hp, hrun, hquiet⟩ := h.one (by simp [hcur])
  obtain rfl : i = k := Option.some.inj (hcur.symm.trans hk)
  exact ⟨hidx, ⟨p, hp, hrun⟩, hquiet⟩

theorem of_one (hone : OneRunning s) (hstarted : s.schedulerRunning = true)
    (hindex : s.currentIndex < maxProcs) : SchedInv s := by
  refine ⟨?_, fun _ => hone, fun _ => hstarted, hindex⟩
  intro hnone
  obtain ⟨i, p, hcur, -⟩ := hone
  rw [hnone] at hcur
  simp at hcur

theorem table (h : SchedInv s) {procs : Nat → Option Proc}
    (hidle : s.current = none → ∀ k q, procs k = some q → q.state ≠ .running)
    (hone : ∀ i, s.current = some i →
      (∃ p, procs i = some p ∧ p.state = .running) ∧ Quiet procs i) :
    SchedInv { s with procs } := by
  refine ⟨hidle, ?_, h.started, h.index⟩
  intro hsome
  obtain ⟨i, hcur⟩ := Option.ne_none_iff_exists'.mp hsome
  obtain ⟨⟨p, hp, hrun⟩, hquiet⟩ := hone i hcur
  exact OneRunning.of_quiet hcur (h.running hcur).1 hp hrun hquiet

theorem congr (h : SchedInv s) {t : Sys} (hprocs : t.procs = s.procs) (hcur : t.current = s.current)
    (hidx : t.currentIndex = s.currentIndex) (hrunning : t.schedulerRunning = s.schedulerRunning) :
    SchedInv t := by
  refine ⟨?_, ?_, ?_, ?_⟩
  · rw [hprocs, hcur]
    exact h.idle
  · unfold OneRunning
    rw [hprocs, hcur, hidx]
    exact h.one
  · rw [hcur, hrunning]
    exact h.started
  · rw [hidx]
    exact h.index

theorem gc (h : SchedInv s) : SchedInv s.gc := by
  apply h.table
  · intro hnone k q hq
    exact h.idle hnone k q (Option.filter_eq_some_iff.mp hq).1
  · intro i hcur
    obtain ⟨-, ⟨p, hp, hrun⟩, hquiet⟩ := h.running hcur
    refine ⟨⟨p, ?_, hrun⟩, hquiet.gc⟩
    simp [procGcRun, hp, hrun]

theorem other (h : SchedInv s) {i : Nat} (hi : s.current ≠ some i) (v : Option Proc)
    (hv : ∀ p ∈ v, p.state ≠ .running) : SchedInv { s with procs := Function.update s.procs i v } := by
  apply h.table
  · intro hnone k q hq
    by_cases hk : k = i
    · subst hk
      rw [Function.update_self] at hq
      exact hv q hq
    · rw [Function.update_of_ne hk] at hq
      exact h.idle hnone k q hq
  · intro c hcur
    obtain ⟨-, ⟨p, hp, hrun⟩, hquiet⟩ := h.running hcur
    have hne : c ≠ i := by
      rintro rfl
      exact hi hcur
    refine ⟨⟨p, by rw [Function.update_of_ne hne, hp], hrun⟩, ?_⟩
    intro k q hk hq
    by_cases hki : k = i
    · subst hki
      rw [Function.update_self] at hq
      exact hv q hq
    · rw [Function.update_of_ne hki] at hq
      exact hquiet k q hk hq

theorem back (h : SchedInv s) {i : Nat} (hcur : s.current = some i) (src p : Proc) :
    SchedInv { s with procs := setProc (setProc s.procs i src) i { p with state := .running } } := by
  rw [setProc_setProc]
  apply h.table
  · intro hnone
    rw [hnone] at hcur
    simp at hcur
  · intro k hk
    obtain rfl : i = k := Option.some.inj (hcur.symm.trans hk)
    exact ⟨⟨_, setProc_self _ _ _, rfl⟩, (h.running hcur).2.2.set _⟩

end SchedInv

/-! ## Dispatching -/

theorem SchedInv.next {s : Sys} (h : SchedInv s) {i j : Nat} (hcur : s.current = some i) {src : Proc}
    (hj : j ≠ i) (hnext : nextReadyFrom (setProc s.procs i src) (s.currentIndex + 1) = some j) :
    FirstReady s.procs (s.currentIndex + 1) j ∧ ∃ dst, s.procs j = some dst ∧ dst.state = .ready := by
  obtain ⟨-, ⟨p, hp, hrun⟩, -⟩ := h.running hcur
  have hnot : isReady s.procs i = false := by simp [isReady, hp, hrun]
  have hpre := nextReadyFrom_agree (fun k hk => isReady_setProc_of_ne _ hk) hnot hj hnext
  exact ⟨nextReadyFrom_iff.mp hpre, ready_of_next hpre⟩

theorem FirstReady.lt {procs : Nat → Option Proc} {start j : Nat} (h : FirstReady procs start j) :
    j < maxProcs := by
  obtain ⟨c, -, rfl, -⟩ := h
  exact Nat.mod_lt _ (by decide)

theorem firstReady_gc {procs : Nat → Option Proc} {start j : Nat} :
    FirstReady (procGcRun procs) start j ↔ FirstReady procs start j := by
  rw [← nextReadyFrom_iff, ← nextReadyFrom_iff, nextReadyFrom_gc]

/-- What `sched_switch` leaves. -/
theorem schedSwitch_one {s : Sys} {i : Nat} (h : Quiet s.procs i) (j : Nat) {src : Proc}
    (hsrc : src.state ≠ .running) (dst : Proc) : OneRunning (schedSwitch s i j src dst) := by
  apply resume_one
  rw [schedPrep_procs]
  refine h.stop ?_ j
  exact hsrc

@[simp] theorem schedPrep_log (s : Sys) (p : Proc) : (schedPrep s p).log = s.log := by
  unfold schedPrep
  split <;> rfl

@[simp] theorem schedPrep_schedulerRunning (s : Sys) (p : Proc) :
    (schedPrep s p).schedulerRunning = s.schedulerRunning := by
  unfold schedPrep
  split <;> rfl

theorem schedSwitch_log (s : Sys) (i j : Nat) (src dst : Proc) :
    ∃ r, (schedSwitch s i j src dst).log = r :: s.log ∧ r.serial = dst.serial := by
  unfold schedSwitch resume
  exact ⟨_, congrArg _ (schedPrep_log _ _), rfl⟩

theorem schedSwitch_started (s : Sys) (i j : Nat) (src dst : Proc) :
    (schedSwitch s i j src dst).schedulerRunning = s.schedulerRunning := by
  unfold schedSwitch resume
  simp

/-- What one operation does to a state with the invariant. -/
def Good (s : Sys) (o : SchedOp) (t : Sys) : Prop := SchedInv t ∧ Orderly s o t

theorem good_same {s t : Sys} {o : SchedOp} (h : SchedInv t) (hcur : t.current = s.current)
    (hlog : t.log = s.log) : Good s o t := ⟨h, Or.inl ⟨hcur, hlog⟩⟩

/-- The current process stops, and `sched_switch` goes on with the next one. -/
theorem good_switch {s : Sys} (h : SchedInv s) {o : SchedOp} (ho : o.start s = s.currentIndex + 1)
    {i j : Nat} (hcur : s.current = some i) (hj : j ≠ i) {old src dst : Proc}
    (hsrc : src.state ≠ .running)
    (hnext : nextReadyFrom (setProc s.procs i old) (s.currentIndex + 1) = some j)
    (hdst : s.procs j = some dst) :
    Good s o (schedSwitch { s with procs := setProc s.procs i old } i j src dst) := by
  obtain ⟨hfirst, dst', hdst', hready⟩ := h.next hcur hj hnext
  obtain rfl : dst = dst' := Option.some.inj (hdst.symm.trans hdst')
  have hquiet : Quiet (setProc s.procs i old) i := (h.running hcur).2.2.set old
  refine ⟨SchedInv.of_one (schedSwitch_one (s := { s with procs := setProc s.procs i old }) hquiet j hsrc dst) ?_
    hfirst.lt, Or.inr ⟨j, dst, ?_⟩⟩
  · rw [schedSwitch_started]
    exact h.started (by simp [hcur])
  · obtain ⟨r, hlog, hserial⟩ := schedSwitch_log { s with procs := setProc s.procs i old } i j src dst
    exact ⟨r, ho ▸ hfirst, hdst, hready, rfl, hlog, hserial⟩

theorem Good.of_gc {s t : Sys} {o : SchedOp} (h : Good s.gc o t) : Good s o t := by
  refine ⟨h.1, ?_⟩
  rcases h.2 with hsame | ⟨j, p, r, hfirst, hp, hready, hrest⟩
  · exact Or.inl hsame
  · right
    refine ⟨j, p, r, ?_, gc_procs hp, hready, hrest⟩
    have hstart : o.start s.gc = o.start s := by cases o <;> rfl
    rw [← hstart]
    exact firstReady_gc.mp hfirst

/-! ## Each operation -/

section

variable {s : Sys} (h : SchedInv s)

include h

theorem good_first {o : SchedOp} {j : Nat} {dst : Proc} (hcur : s.current = none)
    (hnext : nextReadyFrom s.procs (o.start s) = some j) (hdst : s.procs j = some dst) (cpu : Cpu) :
    Good s o (resume (schedPrep { s with cpu, schedulerRunning := true } dst) j dst contextSwitchFirst) := by
  obtain ⟨dst', hdst', hready⟩ := ready_of_next hnext
  obtain rfl : dst = dst' := Option.some.inj (hdst.symm.trans hdst')
  refine ⟨SchedInv.of_one ?_ ?_ (nextReadyFrom_iff.mp hnext).lt, Or.inr ⟨j, dst, ?_⟩⟩
  · apply resume_one
    rw [schedPrep_procs]
    exact fun k q _ hq => h.idle hcur k q hq
  · simp [resume]
  · unfold resume
    exact ⟨_, nextReadyFrom_iff.mp hnext, hdst, hready, rfl, congrArg _ (schedPrep_log _ _), rfl⟩

theorem good_yield : Good s .yield (schedYield s) := by
  have hgc := h.gc
  apply Good.of_gc
  unfold schedYield
  simp only
  split
  · exact good_same hgc rfl rfl
  next hrunning =>
  have hstarted : s.gc.schedulerRunning = true := by simpa using hrunning
  split
  · next hcur =>
    split
    · exact good_same hgc rfl rfl
    · next j hj =>
      obtain ⟨dst, hdst, -⟩ := ready_of_next hj
      simp only [hdst]
      have hfirst := good_first hgc (o := .yield) hcur hj hdst s.gc.cpu.cli
      rw [← hstarted] at hfirst
      exact hfirst
  · next i hcur =>
    obtain ⟨hidx, ⟨src, hsrc, hrun⟩, -⟩ := hgc.running hcur
    simp only [hsrc, hrun, if_true]
    split
    · exact good_same (hgc.back hcur _ _) rfl rfl
    · next j hj =>
      by_cases hji : j = i
      · rw [if_pos hji]
        exact good_same (hgc.back hcur _ _) rfl rfl
      · rw [if_neg hji]
        obtain ⟨-, dst, hdst, -⟩ := hgc.next hcur hji hj
        simp only [setProc_of_ne _ hji, hdst]
        exact good_switch hgc rfl hcur hji (by simp) hj hdst

theorem good_block : Good s .block (schedBlock s) := by
  unfold schedBlock
  split
  · exact good_same h rfl rfl
  next i hcur =>
  obtain ⟨hidx, ⟨src, hsrc, hrun⟩, -⟩ := h.running hcur
  simp only [hsrc]
  split
  · exact good_same (h.back hcur _ _) rfl rfl
  next j hj =>
  have hji : j ≠ i := by
    rintro rfl
    obtain ⟨p, hp, hready⟩ := ready_of_next hj
    rw [setProc_self] at hp
    rw [← Option.some.inj hp] at hready
    simp at hready
  obtain ⟨-, dst, hdst, -⟩ := h.next hcur hji hj
  simp only [setProc_of_ne _ hji, hdst]
  exact good_switch h rfl hcur hji (by simp) hj hdst

theorem next_before_current (src : Proc) {i : Nat} (hcur : s.current = some i)
    (hsome : nextReadyFrom s.procs (s.currentIndex + 1) ≠ none) :
    ∃ j, j ≠ i ∧ nextReadyFrom (setProc s.procs i src) (s.currentIndex + 1) = some j := by
  obtain ⟨hidx, ⟨p, hp, hrun⟩, -⟩ := h.running hcur
  have hlt := h.index
  obtain ⟨j, hj⟩ := Option.ne_none_iff_exists'.mp hsome
  obtain ⟨c, hc, hjc, hready, hfirst⟩ := nextReadyFrom_iff.mp hj
  have hji : j ≠ i := by
    rintro rfl
    simp [isReady, hp, hrun] at hready
  refine ⟨j, hji, nextReadyFrom_iff.mpr ⟨c, hc, hjc, ?_, ?_⟩⟩
  · rw [isReady_setProc_of_ne _ hji, hready]
  · intro d hd
    have hdi : (s.currentIndex + 1 + d) % maxProcs ≠ i := by
      unfold maxProcs at *
      omega
    rw [isReady_setProc_of_ne _ hdi, hfirst d hd]

theorem schedTick_cases {i : Nat} (hcur : s.current = some i) :
    (nextReadyFrom s.procs (s.currentIndex + 1) = none ∧
      schedTick s = { s with procs := setState s.procs i .ready }) ∨
    (nextReadyFrom s.procs (s.currentIndex + 1) ≠ none ∧ Good s .tick (schedTick s)) := by
  obtain ⟨hidx, ⟨src, hsrc, hrun⟩, -⟩ := h.running hcur
  have hstarted := h.started (by simp [hcur])
  have hstate := setState_eq hsrc .ready
  have hguard : (s.schedulerRunning && decide (src.state = .running)) = true := by
    simp [hstarted, hrun]
  unfold schedTick
  split
  · next hno =>
    rw [hcur] at hno
    simp at hno
  next k hk =>
  obtain rfl : i = k := Option.some.inj (hcur.symm.trans hk)
  simp only [hsrc]
  rw [if_pos hguard]
  by_cases hnone : nextReadyFrom s.procs (s.currentIndex + 1) = none
  · left
    refine ⟨hnone, ?_⟩
    rw [hstate]
    split
    · rfl
    · next j hj =>
      by_cases hji : j = i
      · rw [if_pos (hji.trans hidx.symm)]
      · have hfirst := nextReadyFrom_iff.mpr (h.next hcur hji hj).1
        rw [hnone] at hfirst
        simp at hfirst
  · right
    refine ⟨hnone, ?_⟩
    obtain ⟨j, hji, hj⟩ := next_before_current h { src with state := .ready } hcur hnone
    obtain ⟨-, dst, hdst, -⟩ := h.next hcur hji hj
    have hjidx : j ≠ s.currentIndex := by rwa [hidx]
    simp only [hj, if_neg hjidx, setProc_of_ne _ hji, hdst]
    exact good_switch h rfl hcur hji (by simp) hj hdst

theorem schedTick_one {i : Nat} (hcur : s.current = some i) :
    OneRunning (schedTick s) ↔ nextReadyFrom s.procs (s.currentIndex + 1) ≠ none := by
  rcases schedTick_cases h hcur with ⟨hnone, htick⟩ | ⟨hsome, hinv, horder⟩
  · rw [htick]
    refine iff_of_false ?_ (not_not_intro hnone)
    rintro ⟨k, p, hk, -, hp, hrun, -⟩
    obtain rfl : i = k := Option.some.inj (hcur.symm.trans hk)
    obtain ⟨q, -, rfl⟩ : ∃ q, s.procs i = some q ∧ { q with state := .ready } = p := by
      simpa [setState] using hp
    simp at hrun
  · refine iff_of_true (hinv.one ?_) hsome
    rcases horder with ⟨hsame, -⟩ | ⟨j, -, -, -, -, -, hj, -⟩
    · simp [hsame, hcur]
    · simp [hj]

theorem good_runFirst (hcur : s.current = none) : Good s .runFirst (schedRunFirst s) := by
  unfold schedRunFirst
  simp only
  split
  · exact ⟨⟨h.idle, fun hne => absurd hcur hne, fun _ => rfl, h.index⟩, Or.inl ⟨rfl, rfl⟩⟩
  · next j hj =>
    obtain ⟨dst, hdst, -⟩ := ready_of_next hj
    simp only [hdst]
    exact good_first h (o := .runFirst) hcur hj hdst s.cpu.cli

theorem good_wakeup (i : Nat) : Good s (.wakeup i) (schedWakeup s i) := by
  unfold schedWakeup
  split
  · exact good_same h rfl rfl
  next p hp =>
  split
  · next hblocked =>
    refine good_same (h.other ?_ _ (by simp)) rfl rfl
    intro hcur
    obtain ⟨-, ⟨q, hq, hrun⟩, -⟩ := h.running hcur
    obtain rfl : p = q := Option.some.inj (hp.symm.trans hq)
    rw [hblocked] at hrun
    simp at hrun
  · exact good_same h rfl rfl

theorem free_not_current {i : Nat} (hi : findFree s.procs = some i) : s.current ≠ some i := by
  intro hcur
  obtain ⟨-, ⟨p, hp, hrun⟩, -⟩ := h.running hcur
  have hfree := List.find?_some hi
  simp [isFree, hp, hrun] at hfree

theorem good_create (stale : Proc) (setup : Setup) :
    Good s (.create stale setup) ((procCreate s stale setup).getD s) := by
  unfold procCreate procCreateBegin
  cases hi : findFree s.procs with
  | none => exact good_same h rfl rfl
  | some i =>
    have hne := free_not_current h hi
    simp only [Option.bind_eq_bind, Option.bind_some, Option.pure_def, setProc_self, Option.getD_some]
    have hset : ∀ p : Proc, p.state = .ready → SchedInv { s with procs := setProc s.procs i p } :=
      fun p hp => h.other hne _ (by simp [hp])
    cases setup with
    | fail =>
      refine good_same ((h.other hne none (by simp)).congr ?_ rfl rfl rfl) rfl rfl
      exact Function.update_idem _ _ _
    | kernel stack entry argc argv cr3 args =>
      refine good_same ((hset _ ?_).congr (setProc_setProc _ _ _ _) rfl rfl rfl) rfl rfl
      rfl
    | user stack entry userRsp argc argv cr3 =>
      refine good_same ((hset _ ?_).congr (setProc_setProc _ _ _ _) rfl rfl rfl) rfl rfl
      rfl

theorem good_timer (scratch : Mem) (regs : Gprs) : Good s (.timer scratch regs) (timerIrq s scratch regs) := by
  unfold timerIrq
  -- only the memory differs when the handler is called
  generalize isrEntry s.tssRsp0 s.mem s.cpu = entry
  obtain ⟨mem, base⟩ := entry
  have hmem : SchedInv { s with mem := fun a => if a < base then scratch a else mem a } :=
    h.congr rfl rfl rfl rfl
  unfold irqCommonHandler
  dsimp only
  split
  case isFalse => exact good_same (hmem.congr rfl rfl rfl rfl) rfl rfl
  have hpick := schedPreemptPick_cases { s with mem := fun a => if a < base then scratch a else mem a }
  rcases hpick with hstay | ⟨i, j, hcur, hj, hnext, hswitch⟩
  · rw [hstay]
    exact good_same (hmem.gc.congr rfl rfl rfl rfl) rfl rfl
  have hgc := hmem.gc
  obtain ⟨hidx, ⟨src, hsrc, hrun⟩, hquiet⟩ := hgc.running hcur
  have hji : j ≠ i := fun hji => hj (hji.trans hidx.symm)
  rw [setState_eq hsrc] at hnext hswitch
  obtain ⟨hfirst, dst, hdst, hready⟩ := hgc.next hcur hji hnext
  rw [hswitch]
  simp only [isrCommonStub, setProc_self, setProc_of_ne _ hji, hdst]
  refine ⟨SchedInv.of_one ?_ ?_ hfirst.lt, Or.inr ⟨j, dst, ?_⟩⟩
  · apply resume_one
    rw [schedPrep_procs]
    refine (hquiet.set _).stop ?_ j
    simp
  · unfold resume
    rw [schedPrep_schedulerRunning]
    exact h.started (by
      rw [show s.current = some i from hcur]
      simp)
  · unfold resume
    exact ⟨_, firstReady_gc.mp hfirst, gc_procs hdst, hready, rfl, congrArg _ (schedPrep_log _ _), rfl⟩

theorem good_exit {t : Sys} (ht : (procExit s).bind procExitSwitch = some t) : Good s .exit t := by
  obtain ⟨u, hu, ht⟩ := Option.bind_eq_some_iff.mp ht
  unfold procExit at hu
  simp only [Option.bind_eq_bind, Option.bind_eq_some_iff, Option.pure_def, Option.some.injEq] at hu
  obtain ⟨i, hcur, j, hnext, dst, hdst, rfl⟩ := hu
  obtain ⟨-, ⟨src, hsrc, hrun⟩, hquiet⟩ := h.running hcur
  rw [setState_eq hsrc] at hnext hdst
  have hji : j ≠ i := by
    rintro rfl
    obtain ⟨p, hp, hready⟩ := ready_of_next hnext
    rw [setProc_self] at hp
    rw [← Option.some.inj hp] at hready
    simp at hready
  obtain ⟨hfirst, dst', hdst', hready⟩ := h.next hcur hji hnext
  rw [setProc_of_ne _ hji] at hdst
  obtain rfl : dst = dst' := Option.some.inj (hdst.symm.trans hdst')
  unfold procExitSwitch at ht
  simp only [schedPrep_current, schedPrep_procs, Option.bind_eq_bind, Option.bind_some, setProc_self,
    Option.pure_def, Option.some.injEq] at ht
  subst ht
  refine ⟨SchedInv.of_one ?_ ?_ hfirst.lt, Or.inr ⟨j, dst, ?_⟩⟩
  · apply resume_one
    dsimp only
    rw [setState_eq hsrc]
    exact (hquiet.stop (p := { src with state := .terminated }) (by simp) j).set _
  · simp only [resume, schedPrep_schedulerRunning]
    exact h.started (by simp [hcur])
  · refine ⟨_, hfirst, hdst, hready, rfl, congrArg _ (schedPrep_log _ _), rfl⟩

theorem good_resumed : Good s .resumed (schedResumed s) := by
  unfold schedResumed
  split
  · exact good_same h rfl rfl
  next i hcur =>
  obtain ⟨-, ⟨p, hp, hrun⟩, -⟩ := h.running hcur
  rw [setState_eq hp]
  have hback := h.back hcur p p
  rw [setProc_setProc] at hback
  exact good_same hback rfl rfl

end

/-! ## Runs -/

/-- A tick finds another process that is READY, once scheduling has started. -/
def Relieved (s : Sys) : SchedOp → Prop
  | .tick => s.current ≠ none → ∃ j, FirstReady s.procs (s.currentIndex + 1) j
  | _ => True

theorem relieved_iff {s : Sys} :
    (∃ j, FirstReady s.procs (s.currentIndex + 1) j) ↔ nextReadyFrom s.procs (s.currentIndex + 1) ≠ none := by
  simp only [← nextReadyFrom_iff]
  exact Option.ne_none_iff_exists'.symm

theorem sched_step {s t : Sys} (h : SchedInv s) {o : SchedOp} (hstep : SchedOp.Step s o t) :
    Orderly s o t ∧ (Relieved s o → SchedInv t) := by
  obtain ⟨hallowed, ht⟩ := hstep
  have hgood : Good s o t → Orderly s o t ∧ (Relieved s o → SchedInv t) := fun hg => ⟨hg.2, fun _ => hg.1⟩
  cases o with
  | exit => exact hgood (good_exit h ht)
  | tick =>
    obtain rfl := Option.some.inj ht
    cases hcur : s.current with
    | none =>
      have hsame : schedTick s = s := by simp [schedTick, hcur]
      rw [hsame]
      exact ⟨Or.inl ⟨rfl, rfl⟩, fun _ => h⟩
    | some i =>
      rcases schedTick_cases h hcur with ⟨hnone, htick⟩ | ⟨-, hg⟩
      · rw [htick]
        refine ⟨Or.inl ⟨rfl, rfl⟩, fun hrel => ?_⟩
        exact absurd hnone (relieved_iff.mp (hrel (by simp [hcur])))
      · exact hgood hg
  | run cpu mem =>
    obtain rfl := Option.some.inj ht
    exact hgood (good_same (h.congr rfl rfl rfl rfl) rfl rfl)
  | create stale setup =>
    obtain rfl := Option.some.inj ht
    exact hgood (good_create h stale setup)
  | runFirst =>
    obtain rfl := Option.some.inj ht
    exact hgood (good_runFirst h hallowed)
  | wakeup i =>
    obtain rfl := Option.some.inj ht
    exact hgood (good_wakeup h i)
  | yield =>
    obtain rfl := Option.some.inj ht
    exact hgood (good_yield h)
  | block =>
    obtain rfl := Option.some.inj ht
    exact hgood (good_block h)
  | timer scratch regs =>
    obtain rfl := Option.some.inj ht
    exact hgood (good_timer h scratch regs)
  | gc =>
    obtain rfl := Option.some.inj ht
    exact hgood (good_same h.gc rfl rfl)
  | resumed =>
    obtain rfl := Option.some.inj ht
    exact hgood (good_resumed h)

theorem schedInv_run {userTrampoline : Nat} {cpu : Cpu} {mem : Mem} {ops : List SchedOp} {s : Sys}
    (h : Run (Guarded Relieved SchedOp.Step) (boot userTrampoline cpu mem) ops s) : SchedInv s :=
  h.invariant (fun _ _ _ hs ⟨hrel, hstep⟩ => (sched_step hs hstep).2 hrel)
    (SchedInv.boot userTrampoline cpu mem)

/-- One process is RUNNING at any time where every tick finds another one, and the first that is READY is next. -/
theorem one_running {userTrampoline : Nat} {cpu : Cpu} {mem : Mem} {ops : List SchedOp} {s : Sys}
    (h : Run (Guarded Relieved SchedOp.Step) (boot userTrampoline cpu mem) ops s) :
    (s.current ≠ none → OneRunning s) ∧ (∀ o t, SchedOp.Step s o t → Orderly s o t) ∧
      (s.current ≠ none → (OneRunning (schedTick s) ↔ Relieved s .tick)) := by
  have hinv := schedInv_run h
  refine ⟨hinv.one, fun o t hstep => (sched_step hinv hstep).1, ?_⟩
  intro hcur
  obtain ⟨i, hi⟩ := Option.ne_none_iff_exists'.mp hcur
  rw [schedTick_one hinv hi, ← relieved_iff]
  exact ⟨fun hex _ => hex, fun hrel => hrel hcur⟩

/-- One kernel process, which starts to run. -/
def aloneRun : List SchedOp :=
  [.create emptySlot (.kernel 0x10000 0x500 0 0 0 fun _ => 0), .runFirst]

def alone : Sys := (aloneRun.foldl (fun s o => s.bind (SchedOp.apply · o)) (some booted)).getD booted

theorem run_alone : Run (Guarded Relieved SchedOp.Step) booted aloneRun alone :=
  .cons ⟨trivial, trivial, rfl⟩ (.cons ⟨trivial, rfl, rfl⟩ (.nil _))

theorem one_running_alone : OneRunning alone ∧ ∀ t, SchedOp.Step alone .yield t → Orderly alone .yield t := by
  have hall := one_running run_alone
  exact ⟨hall.1 (by decide +kernel), hall.2.1 .yield⟩

/-- A tick with one process leaves it READY while it runs. -/
theorem tick_leaves_none_running :
    ¬ ∀ (userTrampoline : Nat) (cpu : Cpu) (mem : Mem) (ops : List SchedOp) (s : Sys),
      Run SchedOp.Step (boot userTrampoline cpu mem) ops s →
        (s.current ≠ none → OneRunning s) ∧ ∀ o t, SchedOp.Step s o t → Orderly s o t := by
  intro h
  have hrun := run_alone.unguard.append (.single (⟨trivial, rfl⟩ : SchedOp.Step alone .tick (schedTick alone)))
  obtain ⟨i, p, hcur, -, hp, hrunning, -⟩ := (h _ _ _ _ _ hrun).1 (by decide +kernel)
  have hready : ((schedTick alone).current.bind (schedTick alone).procs).map (·.state) = some .ready := by
    decide +kernel
  rw [hcur, Option.bind_some, hp, Option.map_some, hrunning] at hready
  simp at hready

end Siathos.Context
