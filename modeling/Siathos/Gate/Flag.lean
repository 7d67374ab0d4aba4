import Siathos.Context.Preserve

/-!
# The interrupt flag across context switches

Some processes must not be seen with interrupts on, nor be interrupted. `FlagOk` says so of a state
of the scheduler: such a process runs with interrupts off, or is parked in `context_switch`. Every
operation of the scheduler keeps it.
-/

open Lib Siathos.Context

namespace Siathos.Gate

/-- Parked in `context_switch`, after it ran. -/
def InSwitch (p : Proc) : Prop :=
  p.state ≠ .terminated ∧ (∃ c, p.park = .call c) ∧ p.ctx.style = 0 ∧ p.ctx.ran ≠ 0

/-- The processes `G` are parked in `context_switch`, and no interrupt stopped a process that never
ran. -/
structure TableOk (G : Nat → Prop) (procs : Nat → Option Proc) : Prop where
  style : ∀ i p, procs i = some p → p.ctx.style = 1 → p.ctx.ran ≠ 0
  parked : ∀ i, G i → ∃ p, procs i = some p ∧ InSwitch p

structure FlagOk (G : Nat → Prop) (s : Sys) : Prop where
  table : TableOk (fun i => G i ∧ s.busy ≠ some i) s.procs
  index : ∀ i, s.current = some i → s.currentIndex = i
  running : ∀ i, s.busy = some i →
    ∃ p, s.procs i = some p ∧ p.state = .running ∧ p.park = .running ∧ p.ctx.ran ≠ 0
  flag : ∀ i, G i → s.busy = some i → flagsIf s.cpu.rflags = false

theorem flagsIf_cli (c : Cpu) : flagsIf c.cli.rflags = false := by
  unfold Cpu.cli
  by_cases h : flagsIf c.rflags = true
  · rw [if_pos h]
    unfold flagsIf at h ⊢
    have hbit : c.rflags / 512 % 2 = 1 := of_decide_eq_true h
    have hclear : ¬ (c.rflags - 512) / 512 % 2 = 1 := by omega
    exact decide_eq_false hclear
  · rw [if_neg h]
    simpa using h

/-! ## The table -/

namespace TableOk

variable {G : Nat → Prop} {procs : Nat → Option Proc} {i : Nat} {p : Proc}

theorem mono {G' : Nat → Prop} (h : TableOk G procs) (hG : ∀ k, G' k → G k) : TableOk G' procs :=
  ⟨h.style, fun k hk => h.parked k (hG k hk)⟩

theorem gc (h : TableOk G procs) : TableOk G (procGcRun procs) := by
  refine ⟨fun k q hq => h.style k q (Option.filter_eq_some_iff.mp hq).1, fun k hk => ?_⟩
  obtain ⟨q, hq, hin⟩ := h.parked k hk
  refine ⟨q, ?_, hin⟩
  simp [procGcRun, hq, hin.1]

theorem other (h : TableOk G procs) (hi : ¬ G i) (v : Option Proc)
    (hv : ∀ q ∈ v, q.ctx.style = 1 → q.ctx.ran ≠ 0) : TableOk G (Function.update procs i v) := by
  constructor
  · intro k q hq
    by_cases hk : k = i
    · subst hk
      rw [Function.update_self] at hq
      exact hv q hq
    · rw [Function.update_of_ne hk] at hq
      exact h.style k q hq
  · intro k hk
    have hne : k ≠ i := by
      rintro rfl
      exact hi hk
    rw [Function.update_of_ne hne]
    exact h.parked k hk

theorem set (h : TableOk G procs) (hi : ¬ G i) (hp : p.ctx.style = 1 → p.ctx.ran ≠ 0) :
    TableOk G (setProc procs i p) := by
  apply h.other hi
  rintro q ⟨⟩
  exact hp

/-- The process of slot `i` joins those that are parked. -/
theorem park (h : TableOk (fun k => G k ∧ k ≠ i) procs) (hp : InSwitch p) :
    TableOk G (setProc procs i p) := by
  have hset := h.set (i := i) (p := p) (fun hk => hk.2 rfl) (fun _ => hp.2.2.2)
  refine ⟨hset.style, fun k hk => ?_⟩
  by_cases hki : k = i
  · subst hki
    exact ⟨p, setProc_self _ _ _, hp⟩
  · exact hset.parked k ⟨hk, hki⟩

theorem state (h : TableOk G procs) (hp : procs i = some p) {st : ProcState} (hst : st ≠ .terminated) :
    TableOk G (setProc procs i { p with state := st }) := by
  by_cases hi : G i
  · obtain ⟨q, hq, hin⟩ := h.parked i hi
    obtain rfl : q = p := Option.some.inj (hq.symm.trans hp)
    exact (h.mono fun k hk => hk.1).park ⟨hst, hin.2⟩
  · exact h.set hi (h.style i p hp)

end TableOk

/-! ## Resuming a process -/

/-- The three ways to resume: none turns interrupts on for a process that called `context_switch`. -/
structure Smooth (switch : Mem → Cpu → CpuContext → Cpu × CpuContext) : Prop where
  ran : ∀ mem c x, (x.style = 1 → x.ran ≠ 0) → (switch mem c x).2.ran ≠ 0
  call : ∀ mem c x, x.ran ≠ 0 → x.style ≠ 1 → (switch mem c x).1.rflags = c.rflags

theorem loadCr3_rflags (v : Nat) (c : Cpu) : (loadCr3 v c).rflags = c.rflags := by
  unfold loadCr3
  split <;> rfl

theorem smooth_restoreContext : Smooth restoreContext := by
  constructor
  · intro mem c x _
    unfold restoreContext
    split
    · exact Nat.one_ne_zero
    · split <;> assumption
  · intro mem c x hran hstyle
    unfold restoreContext
    rw [if_neg hran, if_neg hstyle]
    exact loadCr3_rflags _ _

theorem smooth_contextSwitchFirst : Smooth contextSwitchFirst := by
  constructor
  · intro mem c x h
    unfold contextSwitchFirst
    split
    · next hstyle => exact h hstyle
    · exact Nat.one_ne_zero
  · intro mem c x _ hstyle
    unfold contextSwitchFirst
    rw [if_neg hstyle]
    exact loadCr3_rflags _ _

theorem smooth_isrSwitch : Smooth isrSwitch := by
  constructor
  · intro mem c x _
    unfold isrSwitch
    split
    · exact Nat.one_ne_zero
    · next hran => split <;> exact hran
  · intro mem c x hran hstyle
    unfold isrSwitch
    rw [if_neg hran, if_neg hstyle]
    exact loadCr3_rflags _ _

section

variable {G : Nat → Prop} {s : Sys} {i j : Nat} {dst : Proc}

/-- With interrupts off, and all of `G` parked, any process may go on. -/
theorem flagOk_resume (h : TableOk G s.procs) (hdst : s.procs j = some dst)
    (hoff : flagsIf s.cpu.rflags = false) (hex : s.exiting = false)
    {switch : Mem → Cpu → CpuContext → Cpu × CpuContext} (hs : Smooth switch) :
    FlagOk G (resume s j dst switch) := by
  have hbusy : (resume s j dst switch).busy = some j := by
    simp [Sys.busy, resume, hex]
  have hran := hs.ran s.mem s.cpu dst.ctx (h.style j dst hdst)
  refine ⟨?_, ?_, ?_, ?_⟩
  · rw [hbusy]
    exact (h.mono fun k hk => hk.1).set (fun hj => hj.2 rfl) fun _ => hran
  · intro k hk
    exact Option.some.inj hk
  · intro k hk
    rw [hbusy] at hk
    obtain rfl := Option.some.inj hk
    exact ⟨_, setProc_self _ _ _, rfl, rfl, hran⟩
  · intro k hG hk
    rw [hbusy] at hk
    obtain rfl := Option.some.inj hk
    obtain ⟨q, hq, hin⟩ := h.parked j hG
    obtain rfl : q = dst := Option.some.inj (hq.symm.trans hdst)
    obtain ⟨-, -, hstyle, hran⟩ := hin
    have hcall := hs.call s.mem s.cpu q.ctx hran (by rw [hstyle]; exact Nat.zero_ne_one)
    show flagsIf (settle s q _).rflags = false
    rw [settle, if_neg fun h => hran h.1, hcall, hoff]

theorem flagOk_prep (h : TableOk G s.procs) (hdst : s.procs j = some dst)
    (hoff : flagsIf s.cpu.rflags = false) (hex : s.exiting = false)
    {switch : Mem → Cpu → CpuContext → Cpu × CpuContext} (hs : Smooth switch) :
    FlagOk G (resume (schedPrep s dst) j dst switch) := by
  apply flagOk_resume _ _ _ _ hs
  · rwa [schedPrep_procs]
  · rwa [schedPrep_procs]
  · rwa [schedPrep_cpu]
  · rwa [schedPrep_exiting]

theorem busy_of_current (hex : s.exiting = false) : s.busy = s.current := by
  unfold Sys.busy
  rw [hex]
  rfl

end

namespace FlagOk

variable {G : Nat → Prop} {s : Sys} {i j : Nat} {src dst : Proc}

theorem idle (h : FlagOk G s) (hbusy : s.busy = none) : TableOk G s.procs := by
  apply h.table.mono
  intro k hk
  rw [hbusy]
  exact ⟨hk, by simp⟩

theorem others (h : FlagOk G s) (hbusy : s.busy = some i) : TableOk (fun k => G k ∧ k ≠ i) s.procs := by
  apply h.table.mono
  rintro k ⟨hk, hne⟩
  rw [hbusy]
  exact ⟨hk, fun heq => hne (Option.some.inj heq).symm⟩

theorem tables (h : FlagOk G s) {procs : Nat → Option Proc}
    (htable : TableOk (fun k => G k ∧ s.busy ≠ some k) procs)
    (hrun : ∀ k, s.busy = some k → ∀ p, s.procs k = some p →
      ∃ q, procs k = some q ∧ q.state = p.state ∧ q.park = p.park ∧ q.ctx = p.ctx) :
    FlagOk G { s with procs } := by
  refine ⟨htable, h.index, ?_, h.flag⟩
  intro k hk
  obtain ⟨p, hp, hst, hpark, hran⟩ := h.running k hk
  obtain ⟨q, hq, hqst, hqpark, hqctx⟩ := hrun k hk p hp
  exact ⟨q, hq, hqst.trans hst, hqpark.trans hpark, by rwa [hqctx]⟩

theorem gc (h : FlagOk G s) : FlagOk G s.gc := by
  apply h.tables h.table.gc
  intro k hk p hp
  obtain ⟨q, hq, hst, -⟩ := h.running k hk
  obtain rfl : q = p := Option.some.inj (hq.symm.trans hp)
  refine ⟨q, ?_, rfl, rfl, rfl⟩
  simp [procGcRun, hq, hst]

theorem other (h : FlagOk G s) (hi : ¬ G i) (hbusy : s.busy ≠ some i) (v : Option Proc)
    (hv : ∀ q ∈ v, q.ctx.style = 1 → q.ctx.ran ≠ 0) :
    FlagOk G { s with procs := Function.update s.procs i v } := by
  apply h.tables (h.table.other (fun hk => hi hk.1) v hv)
  intro k hk p hp
  have hne : k ≠ i := by
    rintro rfl
    exact hbusy hk
  exact ⟨p, by rw [Function.update_of_ne hne, hp], rfl, rfl, rfl⟩

theorem back (h : FlagOk G s) (hbusy : s.busy = some i) (hp : s.procs i = some src) (old : Proc) :
    FlagOk G { s with procs := setProc (setProc s.procs i old) i { src with state := .running } } := by
  rw [setProc_setProc]
  obtain ⟨q, hq, -, hpark, hran⟩ := h.running i hbusy
  obtain rfl : q = src := Option.some.inj (hq.symm.trans hp)
  refine ⟨h.table.state hp (by simp), h.index, ?_, h.flag⟩
  intro k hk
  obtain rfl : i = k := Option.some.inj (hbusy.symm.trans hk)
  exact ⟨_, setProc_self _ _ _, rfl, hpark, hran⟩

theorem schedSwitch (h : FlagOk G s) (hex : s.exiting = false) (hbusy : s.busy = some i) (hj : j ≠ i)
    {old : Proc} (hran : src.ctx.ran ≠ 0) (hst : src.state ≠ .terminated) (hdst : s.procs j = some dst) :
    FlagOk G (Context.schedSwitch { s with procs := setProc s.procs i old } i j src dst) := by
  apply flagOk_prep
  · show TableOk G (setProc (setProc s.procs i old) i _)
    rw [setProc_setProc]
    exact (h.others hbusy).park ⟨hst, ⟨_, rfl⟩, rfl, hran⟩
  · show setProc (setProc s.procs i old) i _ j = some dst
    rwa [setProc_of_ne _ hj, setProc_of_ne _ hj]
  · exact flagsIf_cli _
  · exact hex
  · exact smooth_restoreContext

theorem next (h : FlagOk G s) (hbusy : s.busy = some i) (hj : j ≠ i)
    (hnext : nextReadyFrom (setProc s.procs i src) (s.currentIndex + 1) = some j) :
    ∃ dst, s.procs j = some dst := by
  obtain ⟨p, hp, hst, -⟩ := h.running i hbusy
  have hnot : isReady s.procs i = false := by simp [isReady, hp, hst]
  have hpre := nextReadyFrom_agree (fun k hk => isReady_setProc_of_ne _ hk) hnot hj hnext
  obtain ⟨dst, hdst, -⟩ := ready_of_next hpre
  exact ⟨dst, hdst⟩

theorem first (h : FlagOk G s) (hbusy : s.busy = none)
    (hdst : s.procs j = some dst) {t : Sys} (hprocs : t.procs = s.procs)
    (hoff : flagsIf t.cpu.rflags = false) (hex' : t.exiting = false) :
    FlagOk G (resume (schedPrep t dst) j dst contextSwitchFirst) := by
  apply flagOk_prep _ _ hoff hex' smooth_contextSwitchFirst
  · rw [hprocs]
    exact h.idle hbusy
  · rwa [hprocs]

/-! ## The operations of the scheduler -/

theorem yield (h : FlagOk G s) (hex : s.exiting = false) : FlagOk G (schedYield s) := by
  have hgc := h.gc
  have hexgc : s.gc.exiting = false := hex
  unfold schedYield
  simp only
  split
  · exact hgc
  split
  · next hcur =>
    have hbusy : s.gc.busy = none := by rw [busy_of_current hexgc, hcur]
    split
    · exact hgc
    · next j hj =>
      obtain ⟨dst, hdst, -⟩ := ready_of_next hj
      rw [hdst]
      exact hgc.first hbusy hdst rfl (flagsIf_cli _) hex
  · next i hcur =>
    have hbusy : s.gc.busy = some i := by rw [busy_of_current hexgc, hcur]
    obtain ⟨src, hsrc, hrun, -, hran⟩ := hgc.running i hbusy
    simp only [hsrc, hrun, if_true]
    split
    · exact hgc.back hbusy hsrc _
    · next j hj =>
      by_cases hji : j = i
      · rw [if_pos hji]
        exact hgc.back hbusy hsrc _
      · rw [if_neg hji]
        obtain ⟨dst, hdst⟩ := hgc.next hbusy hji hj
        simp only [setProc_of_ne _ hji, hdst]
        exact hgc.schedSwitch hexgc hbusy hji hran (by simp) hdst

theorem block (h : FlagOk G s) (hex : s.exiting = false) : FlagOk G (schedBlock s) := by
  unfold schedBlock
  split
  · exact h
  next i hcur =>
  have hbusy : s.busy = some i := by rw [busy_of_current hex, hcur]
  obtain ⟨src, hsrc, -, -, hran⟩ := h.running i hbusy
  simp only [hsrc]
  split
  · exact h.back hbusy hsrc _
  next j hj =>
  have hji : j ≠ i := by
    rintro rfl
    obtain ⟨p, hp, hready⟩ := ready_of_next hj
    rw [setProc_self] at hp
    rw [← Option.some.inj hp] at hready
    simp at hready
  obtain ⟨dst, hdst⟩ := h.next hbusy hji hj
  simp only [setProc_of_ne _ hji, hdst]
  exact h.schedSwitch hex hbusy hji hran (by simp) hdst

theorem wakeup (h : FlagOk G s) (i : Nat) : FlagOk G (schedWakeup s i) := by
  unfold schedWakeup
  split
  · exact h
  next p hp =>
  split
  · next hblocked =>
    apply h.tables (h.table.state hp (by simp))
    intro k hk q hq
    have hne : k ≠ i := by
      rintro rfl
      obtain ⟨r, hr, hrun, -⟩ := h.running k hk
      obtain rfl : r = p := Option.some.inj (hr.symm.trans hp)
      rw [hrun] at hblocked
      simp at hblocked
    exact ⟨q, by rw [setProc_of_ne _ hne, hq], rfl, rfl, rfl⟩
  · exact h

theorem runFirst (h : FlagOk G s) (hcur : s.current = none) (hex : s.exiting = false) :
    FlagOk G (schedRunFirst s) := by
  have hbusy : s.busy = none := by rw [busy_of_current hex, hcur]
  unfold schedRunFirst
  simp only
  split
  · exact ⟨h.table, h.index, h.running, h.flag⟩
  · next j hj =>
    obtain ⟨dst, hdst, -⟩ := ready_of_next hj
    have hdst' : s.procs j = some dst := hdst
    rw [hdst']
    exact h.first hbusy hdst' rfl (flagsIf_cli _) hex

theorem exit (h : FlagOk G s) {t : Sys} (ht : procExit s = some t) {i : Nat} (hex : s.exiting = false)
    (hcur : s.current = some i) : FlagOk (fun k => G k ∧ k ≠ i) t := by
  have hbusy : s.busy = some i := by rw [busy_of_current hex, hcur]
  obtain ⟨src, hsrc, -, -, hran⟩ := h.running i hbusy
  unfold procExit at ht
  rw [hcur] at ht
  simp only [Option.pure_def, Option.bind_eq_bind, Option.bind_some, Option.bind_eq_some_iff,
    Option.some.injEq] at ht
  obtain ⟨j, hj, dst, hdst, rfl⟩ := ht
  rw [setState_eq hsrc] at hdst ⊢
  have htable := (h.others hbusy).set (i := i) (p := { src with state := .terminated }) (fun hk => hk.2 rfl)
    fun _ => hran
  refine ⟨?_, ?_, ?_, ?_⟩
  · rw [schedPrep_procs]
    apply (htable.state hdst (by simp)).mono
    exact fun k hk => hk.1
  · intro k hk
    rw [schedPrep_current] at hk
    rw [schedPrep_currentIndex]
    exact Option.some.inj hk
  · intro k hk
    simp [Sys.busy] at hk
  · intro k _ hk
    simp [Sys.busy] at hk

theorem exitSwitch (h : FlagOk G s) {t : Sys} (hex : s.exiting = true) (ht : procExitSwitch s = some t) :
    FlagOk G t := by
  have hbusy : s.busy = none := by
    unfold Sys.busy
    rw [hex]
    rfl
  unfold procExitSwitch at ht
  simp only [Option.pure_def, Option.bind_eq_bind, Option.bind_eq_some_iff, Option.some.injEq] at ht
  obtain ⟨j, -, dst, hdst, rfl⟩ := ht
  exact flagOk_resume (s := { s with cpu := s.cpu.cli, exiting := false }) (h.idle hbusy) hdst
    (flagsIf_cli s.cpu) rfl smooth_contextSwitchFirst

theorem stub (h : FlagOk G s) (hex : s.exiting = false) (hbusy : s.busy = some i) (hG : ¬ G i)
    (hj : j ≠ i) (hnext : nextReadyFrom (setState s.procs i .ready) (s.currentIndex + 1) = some j)
    (mem : Mem) (base : Nat) (regs : Gprs) :
    FlagOk G (isrCommonStub { s with mem } base regs (some (i, j), setState s.procs i .ready)) := by
  obtain ⟨src, hsrc, -, -, hran⟩ := h.running i hbusy
  rw [setState_eq hsrc] at hnext ⊢
  obtain ⟨dst, hdst⟩ := h.next hbusy hj hnext
  unfold isrCommonStub
  simp only [setProc_self, setProc_of_ne _ hj, hdst]
  apply flagOk_prep
  · dsimp only
    rw [setProc_setProc]
    have hset := (h.others hbusy).set (i := i)
      (p := { src with state := .ready, ctx := parkIrq base s.cpu src.ctx, park := .irq s.cpu })
      (fun hk => hk.2 rfl) fun _ => hran
    apply hset.mono
    exact fun k hk => ⟨hk, fun heq => hG (heq ▸ hk)⟩
  · dsimp only
    rw [setProc_of_ne _ hj, setProc_of_ne _ hj, hdst]
  · exact flagsIf_cli s.cpu
  · exact hex
  · exact smooth_isrSwitch

theorem timer (h : FlagOk G s) (hex : s.exiting = false) (hcur : s.current ≠ none)
    (hon : flagsIf s.cpu.rflags = true) (scratch : Mem) (regs : Gprs) :
    FlagOk G (timerIrq s scratch regs) := by
  obtain ⟨i, hi⟩ := Option.ne_none_iff_exists'.mp hcur
  have hbusy : s.busy = some i := by rw [busy_of_current hex, hi]
  have hG : ¬ G i := fun hG => by simp [h.flag i hG hbusy] at hon
  -- no process of `G` runs here, whatever the flag becomes
  have hback : ∀ {t : Sys}, FlagOk G t → t.busy = some i → ∀ (cpu : Cpu) (mem : Mem),
      FlagOk G { t with cpu, mem } := by
    intro t ht hb cpu mem
    refine ⟨ht.table, ht.index, ht.running, fun k hk hkb => ?_⟩
    obtain rfl : i = k := Option.some.inj (hb.symm.trans hkb)
    exact absurd hk hG
  unfold timerIrq
  simp only
  generalize (isrEntry s.tssRsp0 s.mem s.cpu).2 = base
  generalize (fun a => if a < base then scratch a else (isrEntry s.tssRsp0 s.mem s.cpu).1 a) = mem
  unfold irqCommonHandler
  split
  case isFalse => exact hback h hbusy _ _
  rcases schedPreemptPick_cases { s with mem } with hpick | ⟨k, j, hk, hj, hnext, hpick⟩
  · rw [hpick]
    exact hback h.gc hbusy _ _
  · obtain rfl : i = k := Option.some.inj (hi.symm.trans hk)
    have hji : j ≠ i := fun heq => hj (heq.trans (h.index i hi).symm)
    rw [hpick]
    exact h.gc.stub hex hbusy hG hji hnext mem base regs

/-! ## New processes -/

theorem createBegin (h : FlagOk G s) {stale : Proc} {t : Sys} (ht : procCreateBegin s stale = some t)
    (hstale : stale.ctx.style = 1 → stale.ctx.ran ≠ 0) : FlagOk G t := by
  unfold procCreateBegin at ht
  obtain ⟨i, hi, ht⟩ := Option.bind_eq_some_iff.mp ht
  obtain rfl := Option.some.inj ht
  have hfree := List.find?_some hi
  have hbusy : s.busy ≠ some i := by
    intro hb
    obtain ⟨p, hp, hrun, -⟩ := h.running i hb
    simp [isFree, hp, hrun] at hfree
  apply h.other _ hbusy
  · rintro q ⟨⟩
    exact hstale
  · intro hG
    obtain ⟨p, hp, hin⟩ := h.table.parked i ⟨hG, hbusy⟩
    exact absurd (by simpa [isFree, hp] using hfree) hin.1

theorem unbuilt (h : FlagOk G s) {p : Proc} (hp : s.procs i = some p) (hpark : p.park = .unbuilt) :
    ¬ G i ∧ s.busy ≠ some i := by
  have hbusy : s.busy ≠ some i := by
    intro hb
    obtain ⟨q, hq, -, hrun, -⟩ := h.running i hb
    obtain rfl : q = p := Option.some.inj (hq.symm.trans hp)
    rw [hpark] at hrun
    simp at hrun
  refine ⟨fun hG => ?_, hbusy⟩
  obtain ⟨q, hq, -, ⟨c, hc⟩, -⟩ := h.table.parked i ⟨hG, hbusy⟩
  obtain rfl : q = p := Option.some.inj (hq.symm.trans hp)
  rw [hpark] at hc
  simp at hc

theorem created (h : FlagOk G s) {p : Proc} (hp : s.procs i = some p) (hpark : p.park = .unbuilt)
    (v : Option Proc) (hv : ∀ q ∈ v, q.ctx.style = 1 → q.ctx.ran ≠ 0) (mem : Mem) (born : Nat) :
    FlagOk G { s with mem, procs := Function.update s.procs i v, born } := by
  obtain ⟨hG, hbusy⟩ := h.unbuilt hp hpark
  have hother := h.other hG hbusy v hv
  exact ⟨hother.table, hother.index, hother.running, hother.flag⟩

end FlagOk

end Siathos.Gate
