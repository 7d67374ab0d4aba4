import Siathos.Context.Resume

/-!
# The invariant of the scheduler

Each process that is not running can be resumed. The invariant is kept by changes of state, by
parking the running process and by resuming a parked one.
-/

open Lib Lib.Span

namespace Siathos.Context

/-! ## The table -/

/-- The processes of the first table are those of the second, up to their state. -/
def SubTable (procs' procs : Nat → Option Proc) : Prop :=
  ∀ i p', procs' i = some p' → p'.Built →
    ∃ p, procs i = some p ∧ p.Built ∧ p' = { p with state := p'.state }

theorem SubTable.refl (procs : Nat → Option Proc) : SubTable procs procs :=
  fun _ p hp hb => ⟨p, hp, hb, rfl⟩

theorem subTable_gc (procs : Nat → Option Proc) : SubTable (procGcRun procs) procs := by
  intro i p hp hb
  obtain ⟨hp, -⟩ := Option.filter_eq_some_iff.mp hp
  exact ⟨p, hp, hb, rfl⟩

theorem setProc_self (procs : Nat → Option Proc) (i : Nat) (p : Proc) :
    setProc procs i p i = some p := Function.update_self _ _ _

theorem setProc_of_ne {procs : Nat → Option Proc} {i k : Nat} (p : Proc) (h : k ≠ i) :
    setProc procs i p k = procs k := Function.update_of_ne h _ _

theorem SubTable.setProc {procs procs' : Nat → Option Proc} (h : SubTable procs' procs) {i : Nat}
    {p : Proc} (hp : procs i = some p) (hst : p.state ≠ .terminated) (st : ProcState) :
    SubTable (setProc procs' i { p with state := st }) procs := by
  intro k q hq hqb
  by_cases hk : k = i
  · subst hk
    rw [setProc_self] at hq
    obtain rfl := Option.some.inj hq
    exact ⟨p, hp, ⟨hst, hqb.2⟩, rfl⟩
  · rw [setProc_of_ne _ hk] at hq
    exact h k q hq hqb

theorem SubTable.unbuilt {procs procs' : Nat → Option Proc} (h : SubTable procs' procs) {i : Nat}
    {p : Proc} (hp : ¬ p.Built) : SubTable (Context.setProc procs' i p) procs := by
  intro k q hq hqb
  by_cases hk : k = i
  · subst hk
    rw [setProc_self] at hq
    obtain rfl := Option.some.inj hq
    exact absurd hqb hp
  · rw [setProc_of_ne _ hk] at hq
    exact h k q hq hqb

theorem isReady_gc (procs : Nat → Option Proc) (k : Nat) :
    isReady (procGcRun procs) k = isReady procs k := by
  unfold isReady procGcRun
  cases procs k with
  | none => rfl
  | some p =>
    by_cases hp : p.state = .terminated
    · simp [Option.filter, hp]
    · simp [Option.filter, hp]

theorem isReady_setProc_of_ne {procs : Nat → Option Proc} {i k : Nat} (p : Proc) (h : k ≠ i) :
    isReady (setProc procs i p) k = isReady procs k := by
  rw [isReady, setProc_of_ne p h, isReady]

theorem exists_ready {procs : Nat → Option Proc} {j : Nat} (h : isReady procs j = true) :
    ∃ p, procs j = some p ∧ p.state = .ready := by
  unfold isReady at h
  cases hp : procs j with
  | none => simp [hp] at h
  | some p => exact ⟨p, rfl, by simpa [hp] using h⟩

theorem ready_of_next {procs : Nat → Option Proc} {start j : Nat}
    (h : nextReadyFrom procs start = some j) : ∃ p, procs j = some p ∧ p.state = .ready :=
  exists_ready (List.find?_some h)

theorem find?_agree {p q : Nat → Bool} {i j : Nat} (hother : ∀ k, k ≠ i → q k = p k)
    (hi : p i = false) (hj : j ≠ i) {l : List Nat} (h : l.find? q = some j) : l.find? p = some j := by
  induction l with
  | nil => simp at h
  | cons k l ih =>
    rw [List.find?_cons] at h ⊢
    by_cases hk : k = i
    · subst hk
      rw [hi]
      cases hq : q k with
      | true =>
        rw [hq] at h
        exact absurd (Option.some.inj h).symm hj
      | false =>
        rw [hq] at h
        exact ih h
    · rw [hother k hk] at h
      cases hp : p k with
      | true => simpa [hp] using h
      | false => exact ih (by simpa [hp] using h)

theorem nextReadyFrom_agree {procs procs' : Nat → Option Proc} {i j start : Nat}
    (hother : ∀ k, k ≠ i → isReady procs' k = isReady procs k) (hi : isReady procs i = false)
    (hj : j ≠ i) (h : nextReadyFrom procs' start = some j) : nextReadyFrom procs start = some j :=
  find?_agree hother hi hj h

/-! ## The invariant -/

/-- An interrupt from ring 3 finds room on the kernel stack. -/
def KstackOk (p : Proc) : Prop :=
  p.userKstackTop ≠ 0 ∧ p.userKstackTop % 16 = 0 ∧ p.stack.base + 192 ≤ p.userKstackTop ∧
    p.userKstackTop ≤ p.stack.base + p.stack.len

/-- All processes but the busy one can be resumed. -/
structure Core (s : Sys) (busy : Option Nat) : Prop where
  apart : ∀ i j p q, s.procs i = some p → s.procs j = some q → p.Built → q.Built → i ≠ j →
    Apart p.stack q.stack
  kstack : ∀ i p, s.procs i = some p → p.Built → p.isUser = true → KstackOk p
  held : ∀ i p, s.procs i = some p → p.Built → busy ≠ some i → Held s.mem s.userTrampoline p
  cr3 : s.cpu.cr3 ≠ 0
  serial : ∀ i p, s.procs i = some p → p.Built → p.serial < s.born
  fresh : ∀ i p, s.procs i = some p → p.Built → p.park.isEntry = true →
    ∀ r ∈ s.log, r.park.isEntry = true → r.serial ≠ p.serial
  distinct : ∀ i j p q, s.procs i = some p → s.procs j = some q → p.Built → q.Built →
    p.park.isEntry = true → q.park.isEntry = true → p.serial = q.serial → i = j
  logged : ∀ r ∈ s.log, r.serial < s.born
  preserved : Preserved s

/-- The process that does not have to be resumed. -/
def Sys.busy (s : Sys) : Option Nat := if s.exiting then none else s.current

structure Inv (s : Sys) : Prop where
  core : Core s s.busy
  index : ∀ i, s.current = some i → s.currentIndex = i
  current : ∀ i, s.current = some i → ∃ p, s.procs i = some p ∧ p.state = .running
  busy : ∀ i p, s.busy = some i → s.procs i = some p → p.park = .running ∧ p.ctx.ran = 1
  tss : ∀ i p, s.current = some i → s.procs i = some p → p.Built → p.isUser = true →
    s.tssRsp0 = p.userKstackTop

theorem inv_boot (userTrampoline : Nat) (cpu : Cpu) (mem : Mem) (hcr3 : cpu.cr3 ≠ 0) :
    Inv (boot userTrampoline cpu mem) := by
  refine ⟨⟨?_, ?_, ?_, hcr3, ?_, ?_, ?_, ?_, ?_, ?_⟩, ?_, ?_, ?_, ?_⟩ <;> simp [boot, Sys.busy]

/-! ## What keeps the parked processes -/

theorem Core.change {s t : Sys} {busy : Option Nat} (h : Core s busy)
    (hsub : SubTable t.procs s.procs)
    (hmem : ∀ i p, s.procs i = some p → p.Built → busy ≠ some i → ∀ a ∈ p.stack, t.mem a = s.mem a)
    (htramp : t.userTrampoline = s.userTrampoline) (hborn : t.born = s.born) (hlog : t.log = s.log)
    (hcr3 : t.cpu.cr3 ≠ 0) : Core t busy := by
  refine ⟨?_, ?_, ?_, hcr3, ?_, ?_, ?_, ?_, ?_⟩
  · intro i j p q hp hq hpb hqb hij
    obtain ⟨p', hp', hpb', hpe⟩ := hsub i p hp hpb
    obtain ⟨q', hq', hqb', hqe⟩ := hsub j q hq hqb
    rw [hpe, hqe]
    exact h.apart i j p' q' hp' hq' hpb' hqb' hij
  · intro i p hp hpb hu
    obtain ⟨p', hp', hpb', hpe⟩ := hsub i p hp hpb
    rw [hpe] at hu ⊢
    exact h.kstack i p' hp' hpb' hu
  · intro i p hp hpb hbusy
    obtain ⟨p', hp', hpb', hpe⟩ := hsub i p hp hpb
    rw [hpe, htramp]
    exact (h.held i p' hp' hpb' hbusy).frame (hmem i p' hp' hpb' hbusy)
  · intro i p hp hpb
    obtain ⟨p', hp', hpb', hpe⟩ := hsub i p hp hpb
    rw [hpe, hborn]
    exact h.serial i p' hp' hpb'
  · intro i p hp hpb hentry
    obtain ⟨p', hp', hpb', hpe⟩ := hsub i p hp hpb
    rw [hpe] at hentry ⊢
    rw [hlog]
    exact h.fresh i p' hp' hpb' hentry
  · intro i j p q hp hq hpb hqb hpe hqe hserial
    obtain ⟨p', hp', hpb', hpe'⟩ := hsub i p hp hpb
    obtain ⟨q', hq', hqb', hqe'⟩ := hsub j q hq hqb
    rw [hpe'] at hpe hserial
    rw [hqe'] at hqe hserial
    exact h.distinct i j p' q' hp' hq' hpb' hqb' hpe hqe hserial
  · rw [hlog, hborn]
    exact h.logged
  · exact ⟨hlog ▸ h.preserved.continues, hlog ▸ h.preserved.once⟩

/-- The process of slot `i` is set up anew: parked, or just created. -/
theorem Core.set {s t : Sys} {busy busy' : Option Nat} {i : Nat} {src : Proc} (h : Core s busy)
    (hbusy : ∀ j, j ≠ i → busy' ≠ some j → busy ≠ some j) (hprocs : t.procs = setProc s.procs i src)
    (hmem : t.mem = s.mem)
    (htramp : t.userTrampoline = s.userTrampoline) (hlog : t.log = s.log) (hcr3 : t.cpu.cr3 ≠ 0)
    (hborn : s.born ≤ t.born)
    (hapart : ∀ j q, s.procs j = some q → q.Built → j ≠ i → Apart src.stack q.stack)
    (hkstack : src.isUser = true → KstackOk src)
    (hheld : Held s.mem s.userTrampoline src) (hserial : src.serial < t.born)
    (hentry : src.park.isEntry = true → src.serial = s.born) : Core t busy' := by
  have hcase : ∀ {j q}, t.procs j = some q → (j = i ∧ q = src) ∨ (j ≠ i ∧ s.procs j = some q) := by
    intro j q hq
    rw [hprocs] at hq
    by_cases hj : j = i
    · subst hj
      rw [setProc_self] at hq
      exact Or.inl ⟨rfl, (Option.some.inj hq).symm⟩
    · rw [setProc_of_ne _ hj] at hq
      exact Or.inr ⟨hj, hq⟩
  refine ⟨?_, ?_, ?_, hcr3, ?_, ?_, ?_, ?_, ?_⟩
  · intro j k p q hp hq hpb hqb hjk
    rcases hcase hp with ⟨rfl, rfl⟩ | ⟨hj, hp⟩ <;> rcases hcase hq with ⟨rfl, rfl⟩ | ⟨hk, hq⟩
    · exact absurd rfl hjk
    · exact hapart k q hq hqb hk
    · exact (hapart j p hp hpb hj).symm
    · exact h.apart j k p q hp hq hpb hqb hjk
  · intro j p hp hpb hu
    rcases hcase hp with ⟨rfl, rfl⟩ | ⟨hj, hp⟩
    · exact hkstack hu
    · exact h.kstack j p hp hpb hu
  · intro j p hp hpb hne
    rw [hmem, htramp]
    rcases hcase hp with ⟨rfl, rfl⟩ | ⟨hj, hp⟩
    · exact hheld
    · exact h.held j p hp hpb (hbusy j hj hne)
  · intro j p hp hpb
    rcases hcase hp with ⟨rfl, rfl⟩ | ⟨hj, hp⟩
    · exact hserial
    · exact Nat.lt_of_lt_of_le (h.serial j p hp hpb) hborn
  · intro j p hp hpb hpe r hr hre
    rw [hlog] at hr
    rcases hcase hp with ⟨rfl, rfl⟩ | ⟨hj, hp⟩
    · rw [hentry hpe]
      exact Nat.ne_of_lt (h.logged r hr)
    · exact h.fresh j p hp hpb hpe r hr hre
  · intro j k p q hp hq hpb hqb hpe hqe hpq
    rcases hcase hp with ⟨rfl, rfl⟩ | ⟨hj, hp⟩ <;> rcases hcase hq with ⟨rfl, rfl⟩ | ⟨hk, hq⟩
    · rfl
    · have := h.serial k q hq hqb
      rw [← hpq, hentry hpe] at this
      exact absurd this (Nat.lt_irrefl _)
    · have := h.serial j p hp hpb
      rw [hpq, hentry hqe] at this
      exact absurd this (Nat.lt_irrefl _)
    · exact h.distinct j k p q hp hq hpb hqb hpe hqe hpq
  · intro r hr
    rw [hlog] at hr
    exact Nat.lt_of_lt_of_le (h.logged r hr) hborn
  · exact ⟨hlog ▸ h.preserved.continues, hlog ▸ h.preserved.once⟩

theorem Core.resume {s : Sys} {j : Nat} {dst : Proc}
    {switch : Mem → Cpu → CpuContext → Cpu × CpuContext} (h : Core s none)
    (hdst : s.procs j = some dst) (hb : dst.Built) (hr : Restores switch s dst) :
    Core (resume s j dst switch) (some j) := by
  have hcase : ∀ {k q}, (Context.resume s j dst switch).procs k = some q →
      (k = j ∧ q.stack = dst.stack ∧ q.isUser = dst.isUser ∧
        q.userKstackTop = dst.userKstackTop ∧ q.serial = dst.serial ∧ q.park = .running) ∨
      (k ≠ j ∧ s.procs k = some q) := by
    intro k q hq
    by_cases hk : k = j
    · subst hk
      simp only [Context.resume, setProc_self, Option.some.injEq] at hq
      subst hq
      exact Or.inl ⟨rfl, rfl, rfl, rfl, rfl, rfl⟩
    · simp only [Context.resume, setProc_of_ne _ hk] at hq
      exact Or.inr ⟨hk, hq⟩
  refine ⟨?_, ?_, ?_, ?_, ?_, ?_, ?_, ?_, ?_⟩
  · intro k l p q hp hq hpb hqb hkl
    rcases hcase hp with ⟨rfl, hps, -⟩ | ⟨hk, hp'⟩ <;>
      rcases hcase hq with ⟨rfl, hqs, -⟩ | ⟨hl, hq'⟩
    · exact absurd rfl hkl
    · rw [hps]
      exact h.apart _ _ _ _ hdst hq' hb hqb hkl
    · rw [hqs]
      exact h.apart _ _ _ _ hp' hdst hpb hb hkl
    · exact h.apart _ _ _ _ hp' hq' hpb hqb hkl
  · intro k p hp hpb hu
    rcases hcase hp with ⟨rfl, hs, hu', ht, -⟩ | ⟨hk, hp⟩
    · have hok := h.kstack _ _ hdst hb (hu' ▸ hu)
      unfold KstackOk at hok ⊢
      rwa [hs, ht]
    · exact h.kstack _ _ hp hpb hu
  · intro k p hp hpb hne
    rcases hcase hp with ⟨rfl, -⟩ | ⟨hk, hp⟩
    · exact absurd rfl hne
    · exact h.held _ _ hp hpb (by simp)
  · show (settle s dst (switch s.mem s.cpu dst.ctx).1).cr3 ≠ 0
    rw [settle_cr3]
    exact hr.cr3
  · intro k p hp hpb
    rcases hcase hp with ⟨rfl, -, -, -, hs, -⟩ | ⟨hk, hp⟩
    · rw [hs]
      exact h.serial _ _ hdst hb
    · exact h.serial _ _ hp hpb
  · intro k p hp hpb hpe r hlog hre
    rcases hcase hp with ⟨rfl, -, -, -, -, hpark⟩ | ⟨hk, hp⟩
    · rw [hpark] at hpe
      exact absurd hpe (by decide)
    · rcases List.mem_cons.mp hlog with rfl | hlog
      · exact fun hs => hk (h.distinct _ _ _ _ hp hdst hpb hb hpe hre hs.symm)
      · exact h.fresh _ _ hp hpb hpe r hlog hre
  · intro k l p q hp hq hpb hqb hpe hqe hpq
    rcases hcase hp with ⟨rfl, -, -, -, -, hpark⟩ | ⟨hk, hp⟩
    · rw [hpark] at hpe
      exact absurd hpe (by decide)
    rcases hcase hq with ⟨rfl, -, -, -, -, hpark⟩ | ⟨hl, hq⟩
    · rw [hpark] at hqe
      exact absurd hqe (by decide)
    exact h.distinct _ _ _ _ hp hq hpb hqb hpe hqe hpq
  · intro r hlog
    rcases List.mem_cons.mp hlog with rfl | hlog
    · exact h.serial _ _ hdst hb
    · exact h.logged r hlog
  · refine ⟨fun r hlog => ?_, ?_⟩
    · rcases List.mem_cons.mp hlog with rfl | hlog
      · exact hr.continues
      · exact h.preserved.continues r hlog
    · simp only [Context.resume, List.filter_cons]
      split
      · rename_i hentry
        refine List.nodup_cons.mpr ⟨fun hmem => ?_, h.preserved.once⟩
        obtain ⟨r, hr', hs⟩ := List.mem_map.mp hmem
        obtain ⟨hlog, hre⟩ := List.mem_filter.mp hr'
        exact h.fresh _ _ hdst hb hentry r hlog hre hs
      · exact h.preserved.once

theorem Core.free {s : Sys} {i : Nat} (h : Core s (some i))
    (hend : ∀ p, s.procs i = some p → ¬ p.Built) : Core s none := by
  refine ⟨h.apart, h.kstack, ?_, h.cr3, h.serial, h.fresh, h.distinct, h.logged, h.preserved⟩
  intro j p hp hpb _
  refine h.held j p hp hpb ?_
  intro hj
  obtain rfl := Option.some.inj hj
  exact hend p hp hpb

/-! ## schedPrep -/

@[simp] theorem schedPrep_cpu (s : Sys) (p : Proc) : (schedPrep s p).cpu = s.cpu := by
  unfold schedPrep
  split <;> rfl

@[simp] theorem schedPrep_mem (s : Sys) (p : Proc) : (schedPrep s p).mem = s.mem := by
  unfold schedPrep
  split <;> rfl

@[simp] theorem schedPrep_procs (s : Sys) (p : Proc) : (schedPrep s p).procs = s.procs := by
  unfold schedPrep
  split <;> rfl

@[simp] theorem schedPrep_userTrampoline (s : Sys) (p : Proc) :
    (schedPrep s p).userTrampoline = s.userTrampoline := by
  unfold schedPrep
  split <;> rfl

@[simp] theorem schedPrep_current (s : Sys) (p : Proc) :
    (schedPrep s p).current = s.current := by
  unfold schedPrep
  split <;> rfl

@[simp] theorem schedPrep_currentIndex (s : Sys) (p : Proc) :
    (schedPrep s p).currentIndex = s.currentIndex := by
  unfold schedPrep
  split <;> rfl

@[simp] theorem schedPrep_exiting (s : Sys) (p : Proc) :
    (schedPrep s p).exiting = s.exiting := by
  unfold schedPrep
  split <;> rfl

theorem Core.schedPrep {s : Sys} {busy : Option Nat} (h : Core s busy) (p : Proc) :
    Core (schedPrep s p) busy := by
  unfold Context.schedPrep
  split
  · exact h.change (SubTable.refl _) (fun _ _ _ _ _ _ _ => rfl) rfl rfl rfl h.cr3
  · exact h

theorem schedPrep_tss {s : Sys} {p : Proc} (hu : p.isUser = true) (hk : KstackOk p) :
    (schedPrep s p).tssRsp0 = p.userKstackTop := by
  simp [schedPrep, hu, hk.1]

theorem inv_resume {s : Sys} {j : Nat} {dst : Proc}
    {switch : Mem → Cpu → CpuContext → Cpu × CpuContext} (h : Core s none)
    (hex : s.exiting = false) (hdst : s.procs j = some dst) (hb : dst.Built)
    (hr : Restores switch s dst) (htss : dst.isUser = true → s.tssRsp0 = dst.userKstackTop) :
    Inv (resume s j dst switch) := by
  have hbusy : (resume s j dst switch).busy = some j := by
    simp [resume, Sys.busy, hex]
  refine ⟨?_, ?_, ?_, ?_, ?_⟩
  · rw [hbusy]
    exact h.resume hdst hb hr
  · intro i hi
    exact Option.some.inj hi
  · intro i hi
    obtain rfl := Option.some.inj hi
    exact ⟨_, setProc_self _ _ _, rfl⟩
  · intro i p hi hp
    rw [hbusy] at hi
    obtain rfl := Option.some.inj hi
    simp only [resume, setProc_self, Option.some.injEq] at hp
    subst hp
    exact ⟨rfl, hr.ran⟩
  · intro i p hi hp _ hu
    obtain rfl := Option.some.inj hi
    simp only [resume, setProc_self, Option.some.injEq] at hp
    subst hp
    exact htss hu

theorem inv_prep_resume {s : Sys} {j : Nat} {dst : Proc}
    {switch : Mem → Cpu → CpuContext → Cpu × CpuContext} (h : Core s none)
    (hex : s.exiting = false) (hdst : s.procs j = some dst) (hb : dst.Built)
    (hr : Restores switch (schedPrep s dst) dst) :
    Inv (resume (schedPrep s dst) j dst switch) :=
  inv_resume (h.schedPrep dst) (by rwa [schedPrep_exiting]) (by rwa [schedPrep_procs]) hb hr
    fun hu => schedPrep_tss hu (h.kstack _ _ hdst hb hu)

/-! ## The condition on a step -/

/-- `context_switch_first` keeps the registers of the process that it resumes. -/
def FirstOk (p : Proc) : Prop :=
  p.ctx.ran = 0 ∨ p.ctx.style = 1 ∨ p.ctx.saved = ⟨0, 0, 0, 0, 0, 0⟩

/-- The ISR stub keeps the registers of the process that it resumes. -/
def IrqOk (s : Sys) (p : Proc) : Prop :=
  p.ctx.ran = 0 ∨ p.ctx.style = 1 ∨ p.ctx.saved = s.cpu.gprs.saved

/-- The next process is set up, and meets `ok`. -/
def NextResumes (s : Sys) (start : Nat) (ok : Proc → Prop) : Prop :=
  ∀ j p, nextReadyFrom s.procs start = some j → s.procs j = some p → p.park ≠ .unbuilt ∧ ok p

/-- The step resumes nobody half: its target is set up, has no saved registers to lose where the
way of the resume does not load them, and no timer interrupt switches inside `proc_exit`. -/
def Faithful (s : Sys) : Op → Prop
  | .yield => NextResumes s (s.currentIndex + 1) (fun p => s.current = none → FirstOk p)
  | .block => NextResumes s (s.currentIndex + 1) (fun _ => True)
  | .runFirst => NextResumes s 0 FirstOk
  | .timer _ _ =>
    if s.exiting then nextReadyFrom s.procs (s.currentIndex + 1) = none
    else NextResumes s (s.currentIndex + 1) (IrqOk s)
  | .exitSwitch => ∀ j p, s.current = some j → s.procs j = some p → p.park ≠ .unbuilt ∧ FirstOk p
  | _ => True

theorem built_of_ready {p : Proc} (h : p.state = .ready) (hp : p.park ≠ .unbuilt) : p.Built :=
  ⟨by simp [h], hp⟩

theorem Inv.running {s : Sys} (h : Inv s) (hex : s.exiting = false) {i : Nat}
    (hi : s.current = some i) :
    ∃ p, s.procs i = some p ∧ p.state = .running ∧ p.Built ∧ p.park = .running ∧ p.ctx.ran = 1 ∧
      (p.isUser = true → s.tssRsp0 = p.userKstackTop) := by
  obtain ⟨p, hp, hst⟩ := h.current i hi
  have hbusy : s.busy = some i := by simp [Sys.busy, hex, hi]
  obtain ⟨hpark, hran⟩ := h.busy i p hbusy hp
  have hb : p.Built := ⟨by simp [hst], by simp [hpark]⟩
  exact ⟨p, hp, hst, hb, hpark, hran, h.tss i p hi hp hb⟩

theorem Inv.change {s t : Sys} (h : Inv s) (hsub : SubTable t.procs s.procs)
    (hmem : KeepsStacks s t.mem) (htramp : t.userTrampoline = s.userTrampoline)
    (hborn : t.born = s.born) (hlog : t.log = s.log) (hcr3 : t.cpu.cr3 = s.cpu.cr3)
    (hcur : t.current = s.current) (hindex : t.currentIndex = s.currentIndex)
    (hex : t.exiting = s.exiting) (htss : t.tssRsp0 = s.tssRsp0)
    (hkeep : ∀ i, s.current = some i → t.procs i = s.procs i) : Inv t := by
  have hbusy : t.busy = s.busy := by simp [Sys.busy, hcur, hex]
  have hcurrent : ∀ {i}, s.busy = some i → s.current = some i := by
    intro i hi
    unfold Sys.busy at hi
    split at hi
    · exact absurd hi (by simp)
    · exact hi
  refine ⟨?_, ?_, ?_, ?_, ?_⟩
  · rw [hbusy]
    refine h.core.change hsub ?_ htramp hborn hlog (hcr3 ▸ h.core.cr3)
    intro i p hp hpb hne
    refine hmem i p ⟨hp, hpb, ?_⟩
    cases hexs : s.exiting with
    | true => exact Or.inr rfl
    | false => exact Or.inl (by simpa [Sys.busy, hexs] using hne)
  · intro i hi
    rw [hindex]
    exact h.index i (hcur ▸ hi)
  · intro i hi
    rw [hcur] at hi
    rw [hkeep i hi]
    exact h.current i hi
  · intro i p hi hp
    rw [hbusy] at hi
    rw [hkeep i (hcurrent hi)] at hp
    exact h.busy i p hi hp
  · intro i p hi hp
    rw [hcur] at hi
    rw [hkeep i hi] at hp
    rw [htss]
    exact h.tss i p hi hp

theorem keepsStacks_refl (s : Sys) : KeepsStacks s s.mem := fun _ _ _ _ _ => rfl

theorem Inv.gc {s : Sys} (h : Inv s) : Inv s.gc := by
  refine h.change (subTable_gc _) (keepsStacks_refl s) rfl rfl rfl rfl rfl rfl rfl rfl ?_
  intro i hi
  obtain ⟨p, hp, hst⟩ := h.current i hi
  simp [Sys.gc, procGcRun, hp, hst]

theorem nextReadyFrom_gc (procs : Nat → Option Proc) (start : Nat) :
    nextReadyFrom (procGcRun procs) start = nextReadyFrom procs start := by
  have h : isReady (procGcRun procs) = isReady procs := funext (isReady_gc procs)
  rw [nextReadyFrom, h, nextReadyFrom]

theorem gc_procs {s : Sys} {i : Nat} {p : Proc} (h : s.gc.procs i = some p) : s.procs i = some p :=
  (Option.filter_eq_some_iff.mp h).1

theorem NextResumes.gc {s : Sys} {start : Nat} {ok : Proc → Prop} (h : NextResumes s start ok) :
    NextResumes s.gc start ok := by
  intro j p hj hp
  refine h j p ?_ (gc_procs hp)
  rwa [← nextReadyFrom_gc]

end Siathos.Context
