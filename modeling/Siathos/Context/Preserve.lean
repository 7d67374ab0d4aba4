import Siathos.Context.Invariant

/-!
# Every resume continues where the process was parked

A switch parks the running process and resumes another one. The other steps leave the parked
processes alone.
-/

open Lib Lib.Span

namespace Siathos.Context

/-! ## sched_yield and sched_block -/

theorem setProc_setProc (procs : Nat → Option Proc) (i : Nat) (p q : Proc) :
    setProc (setProc procs i p) i q = setProc procs i q := Function.update_idem _ _ _

/-- The running process calls `sched_switch`. -/
theorem Inv.schedSwitch {s : Sys} (h : Inv s) (hex : s.exiting = false) {i j : Nat} {src dst : Proc}
    (hi : s.current = some i) (hsrc : s.procs i = some src)
    (hown : Within ⟨s.cpu.rsp, 8⟩ src.stack) (hj : j ≠ i) (hdst : s.procs j = some dst)
    (hb : dst.Built) (mid st : ProcState) :
    Inv (schedSwitch { s with procs := setProc s.procs i { src with state := mid } } i j
      { src with state := st } dst) := by
  obtain ⟨p, hp, -, hpb, -, hran, -⟩ := h.running hex hi
  obtain rfl : src = p := Option.some.inj (hsrc.symm.trans hp)
  have hbusy : s.busy = some i := by simp [Sys.busy, hex, hi]
  have hcore : Core s (some i) := hbusy ▸ h.core
  have hcr3 : s.cpu.cli.cr3 ≠ 0 := h.core.cr3
  unfold Context.schedSwitch
  refine inv_prep_resume (hcore.set (i := i) ?_ (setProc_setProc _ _ _ _) rfl rfl rfl hcr3
    (Nat.le_refl _) ?_ ?_ ?_ ?_ ?_) hex ?_ hb ?_
  · intro k hk _ hik
    exact hk (Option.some.inj hik).symm
  · intro k q hq hqb hk
    exact hcore.apart i k src q hsrc hq hpb hqb (Ne.symm hk)
  · exact fun hu => h.core.kstack i src hsrc hpb hu
  · exact ⟨hown, hran, rfl, hcr3, rfl, rfl, rfl, rfl⟩
  · exact hcore.serial i src hsrc hpb
  · exact fun hentry => Bool.noConfusion hentry
  · simp only [setProc_of_ne _ hj]
    exact hdst
  · refine restores_restoreContext ?_ (by simpa using hcr3)
    have hne : some i ≠ some j := fun hij => hj (Option.some.inj hij).symm
    simpa using hcore.held j dst hdst hb hne

theorem Inv.sameProc {s : Sys} (h : Inv s) (hex : s.exiting = false) {i : Nat} {src : Proc}
    (hi : s.current = some i) (hsrc : s.procs i = some src) (mid : ProcState) :
    Inv { s with
      procs := setProc (setProc s.procs i { src with state := mid }) i { src with state := .running } } := by
  obtain ⟨p, hp, hst, hpb, -⟩ := h.running hex hi
  obtain rfl : src = p := Option.some.inj (hsrc.symm.trans hp)
  have hsame : { src with state := .running } = src := by
    rw [← hst]
  have hprocs : setProc (setProc s.procs i { src with state := mid }) i
      { src with state := .running } = s.procs := by
    rw [setProc_setProc, hsame, setProc, ← hsrc, Function.update_eq_self]
  rw [hprocs]
  exact h

theorem next_other {s : Sys} (h : Inv s) {i j : Nat} {src : Proc}
    (hi : s.current = some i) (hj : j ≠ i)
    (hnext : nextReadyFrom (setProc s.procs i src) (s.currentIndex + 1) = some j) :
    nextReadyFrom s.procs (s.currentIndex + 1) = some j ∧
      ∃ dst, s.procs j = some dst ∧ dst.state = .ready := by
  obtain ⟨p, hp, hst⟩ := h.current i hi
  have hnot : isReady s.procs i = false := by simp [isReady, hp, hst]
  have hpre := nextReadyFrom_agree (fun k hk => isReady_setProc_of_ne _ hk) hnot hj hnext
  exact ⟨hpre, ready_of_next hpre⟩

theorem Inv.schedYield {s : Sys} (h : Inv s) (hex : s.exiting = false) (hown : OnOwnStack s)
    (hok : Faithful s .yield) : Inv (schedYield s) := by
  have hgc := h.gc
  have hnext : NextResumes s.gc (s.gc.currentIndex + 1) (fun p => s.current = none → FirstOk p) :=
    NextResumes.gc hok
  unfold Context.schedYield
  simp only
  split
  · exact hgc
  split
  case h_1 hcur =>
    have hcore : Core s.gc none := by
      have hc := hgc.core
      rwa [Sys.busy, hcur, ite_self] at hc
    split
    · exact hgc
    rename_i j hj
    obtain ⟨dst, hdst, hready⟩ := ready_of_next hj
    simp only [hdst]
    obtain ⟨hpark, hfirst⟩ := hnext j dst hj hdst
    have hb := built_of_ready hready hpark
    have hc : Core { s.gc with cpu := s.gc.cpu.cli } none :=
      hcore.change (SubTable.refl _) (fun _ _ _ _ _ _ _ => rfl) rfl rfl rfl hcore.cr3
    refine inv_prep_resume hc hex hdst hb (restores_contextSwitchFirst ?_ ?_ (hfirst hcur))
    · simpa using hcore.held j dst hdst hb (by simp)
    · rw [schedPrep_cpu]
      exact hcore.cr3
  case h_2 i hcur =>
    obtain ⟨src, hsrc, hst, hsrcb, -⟩ := hgc.running hex hcur
    simp only [hsrc, hst, if_true]
    split
    · exact hgc.sameProc hex hcur hsrc .ready
    rename_i j hj
    by_cases hji : j = i
    · rw [if_pos hji]
      exact hgc.sameProc hex hcur hsrc .ready
    · rw [if_neg hji]
      obtain ⟨hpre, dst, hdst, hready⟩ := next_other hgc hcur hji hj
      simp only [setProc_of_ne _ hji, hdst]
      have hb := built_of_ready hready (hnext j dst hpre hdst).1
      exact hgc.schedSwitch hex hcur hsrc (hown i src hcur (gc_procs hsrc)) hji hdst hb .ready .ready

theorem Inv.schedBlock {s : Sys} (h : Inv s) (hex : s.exiting = false) (hown : OnOwnStack s)
    (hok : Faithful s .block) : Inv (schedBlock s) := by
  unfold Context.schedBlock
  split
  case h_1 => exact h
  case h_2 i hcur =>
    obtain ⟨src, hsrc, -⟩ := h.running hex hcur
    simp only [hsrc]
    split
    · exact h.sameProc hex hcur hsrc .blocked
    rename_i j hj
    have hji : j ≠ i := by
      rintro rfl
      obtain ⟨p, hp, hready⟩ := ready_of_next hj
      rw [setProc_self] at hp
      obtain rfl := Option.some.inj hp
      exact absurd hready (by simp)
    obtain ⟨hpre, dst, hdst, hready⟩ := next_other h hcur hji hj
    simp only [setProc_of_ne _ hji, hdst]
    have hb := built_of_ready hready (hok j dst hpre hdst).1
    exact h.schedSwitch hex hcur hsrc (hown i src hcur hsrc) hji hdst hb .blocked .blocked

/-! ## The timer interrupt -/

theorem isrEntry_eq {tssRsp0 : Nat} {c : Cpu} (mem : Mem) (h : 176 ≤ isrTop tssRsp0 c) :
    isrEntry tssRsp0 mem c =
      (store mem (isrTop tssRsp0 c - 176) (isrFrame c), isrTop tssRsp0 c - 176) :=
  pushAll_eq h

theorem Inv.frame_within {s : Sys} (h : Inv s) (hroom : RoomForFrame s) (hex : s.exiting = false)
    {i : Nat} {src : Proc} (hi : s.current = some i) (hsrc : s.procs i = some src) :
    Within ⟨isrTop s.tssRsp0 s.cpu - 176, 176⟩ src.stack := by
  obtain ⟨p, hp, -, hpb, -, -, htss⟩ := h.running hex hi
  obtain rfl : src = p := Option.some.inj (hsrc.symm.trans hp)
  obtain ⟨hlow, -, hown⟩ := hroom
  obtain ⟨huser, hkernel⟩ := hown hex i src hi hsrc
  unfold isrTop at hlow ⊢
  by_cases hcs : s.cpu.cs % 4 = 3
  · obtain ⟨-, halign, hbase, htop⟩ := h.core.kstack i src hsrc hpb (huser hcs)
    rw [if_pos hcs, htss (huser hcs)]
    intro a ha
    rw [mem_def] at ha ⊢
    simp only at ha
    omega
  · rw [if_neg hcs] at hlow ⊢
    refine Within.trans ?_ (hkernel hcs)
    intro a ha
    rw [mem_def] at ha ⊢
    simp only at ha ⊢
    omega

theorem Inv.frame_apart {s : Sys} (h : Inv s) (hroom : RoomForFrame s) (hcur : s.current ≠ none)
    {j : Nat} {p : Proc} (hp : Parked s j p) :
    Apart ⟨isrTop s.tssRsp0 s.cpu - 176, 176⟩ p.stack := by
  obtain ⟨hproc, hpb, hnot⟩ := hp
  cases hex : s.exiting with
  | true =>
    obtain ⟨hlow, hexit, -⟩ := hroom
    obtain ⟨hcs, hapart⟩ := hexit hex
    refine (hapart j p ⟨hproc, hpb, hnot⟩).mono ?_ (Within.refl _)
    unfold isrTop at hlow ⊢
    rw [if_neg hcs] at hlow ⊢
    intro a ha
    rw [mem_def] at ha ⊢
    simp only at ha ⊢
    omega
  | false =>
    obtain ⟨i, hi⟩ := Option.ne_none_iff_exists'.mp hcur
    obtain ⟨src, hsrc, -, hsrcb, -⟩ := h.running hex hi
    have hij : i ≠ j := by
      rintro rfl
      rcases hnot with hnot | hnot
      · exact hnot hi
      · simp [hex] at hnot
    exact (h.core.apart i j src p hsrc hproc hsrcb hpb hij).mono
      (h.frame_within hroom hex hi hsrc) (Within.refl _)

/-- The memory when the stub decides: the frame, and below it what the C handlers left. -/
def isrMem (s : Sys) (scratch : Mem) : Mem := fun a =>
  if a < isrTop s.tssRsp0 s.cpu - 176 then scratch a
  else store s.mem (isrTop s.tssRsp0 s.cpu - 176) (isrFrame s.cpu) a

theorem holdsAt_isrMem (s : Sys) (scratch : Mem) :
    HoldsAt (isrMem s scratch) (isrTop s.tssRsp0 s.cpu - 176) (isrFrame s.cpu) := by
  refine (holdsAt_store s.mem _ _).congr fun a ha => ?_
  exact if_neg (Nat.not_lt.mpr ha.1)

theorem Inv.keepsStacks_isrMem {s : Sys} (h : Inv s) (hroom : RoomForFrame s)
    (hcur : s.current ≠ none) {scratch : Mem} (hscratch : KeepsStacks s scratch) :
    KeepsStacks s (isrMem s scratch) := by
  intro j p hp a ha
  unfold isrMem
  split
  · exact hscratch j p hp a ha
  · refine store_frame ?_
    rw [isrFrame_length]
    exact (h.frame_apart hroom hcur hp).symm a ha

/-- What `sched_preempt_pick` may answer. -/
theorem schedPreemptPick_cases (s : Sys) :
    schedPreemptPick s = (none, s.gc.procs) ∨
    ∃ i j, s.current = some i ∧ j ≠ s.currentIndex ∧
      nextReadyFrom (setState s.gc.procs i .ready) (s.currentIndex + 1) = some j ∧
      schedPreemptPick s = (some (i, j), setState s.gc.procs i .ready) := by
  unfold schedPreemptPick
  cases hcur : s.current with
  | none => exact Or.inl rfl
  | some i =>
    simp only
    split
    · exact Or.inl rfl
    split
    · exact Or.inl rfl
    rename_i j hj
    split
    · exact Or.inl rfl
    · rename_i hne
      exact Or.inr ⟨i, j, rfl, hne, hj, rfl⟩

theorem setState_eq {procs : Nat → Option Proc} {i : Nat} {p : Proc} (h : procs i = some p)
    (st : ProcState) : setState procs i st = setProc procs i { p with state := st } := by
  unfold setState setProc
  rw [h]
  rfl

theorem Inv.isrCommonStub {s : Sys} (h : Inv s) {base : Nat} {regs : Gprs}
    (hframe : HoldsAt s.mem base (isrFrame s.cpu))
    (hwithin : s.exiting = false → ∀ i src, s.current = some i → s.procs i = some src →
      Within ⟨base, 176⟩ src.stack)
    (hok : Faithful s (.timer s.mem regs)) :
    Inv (isrCommonStub s base regs (irqCommonHandler s)) := by
  unfold irqCommonHandler
  split
  case isFalse =>
    simp only [Context.isrCommonStub, popFrame_of_holdsAt hframe]
    exact h
  rcases schedPreemptPick_cases s with hstay | ⟨i, j, hi, hj, hnext, hswitch⟩
  · rw [hstay]
    simp only [Context.isrCommonStub, popFrame_of_holdsAt hframe]
    exact h.gc
  -- The next process is another one, so `proc_exit` is not under way.
  have hji : j ≠ i := fun hji => hj (hji.trans (h.index i hi).symm)
  obtain ⟨src, hsrc, hst⟩ := h.gc.current i hi
  rw [setState_eq hsrc] at hnext hswitch
  obtain ⟨hpre, dst, hdst, hready⟩ := next_other h.gc hi hji hnext
  have hpre : nextReadyFrom s.procs (s.currentIndex + 1) = some j := by
    rwa [← nextReadyFrom_gc]
  have hex : s.exiting = false := by
    cases hex : s.exiting with
    | false => rfl
    | true =>
      simp only [Faithful, hex, if_true, hpre] at hok
      exact absurd hok (by simp)
  simp only [Faithful, hex, Bool.false_eq_true, if_false] at hok
  obtain ⟨hpark, hirq⟩ := hok j dst hpre (gc_procs hdst)
  have hb := built_of_ready hready hpark
  obtain ⟨p, hp, -, hsrcb, -, hran, -⟩ := h.gc.running hex hi
  obtain rfl : src = p := Option.some.inj (hsrc.symm.trans hp)
  have hbusy : s.gc.busy = some i := by simp [Sys.busy, Sys.gc, hex, hi]
  have hcore : Core s.gc (some i) := hbusy ▸ h.gc.core
  rw [hswitch]
  simp only [Context.isrCommonStub, setProc_self, setProc_of_ne _ hji, hdst]
  refine inv_prep_resume (hcore.set (i := i) ?_ (setProc_setProc _ _ _ _) rfl rfl rfl h.core.cr3
    (Nat.le_refl _) ?_ ?_ ?_ ?_ ?_) hex ?_ hb ?_
  · intro k hk _ hik
    exact hk (Option.some.inj hik).symm
  · intro k q hq hqb hk
    exact hcore.apart i k src q hsrc hq hsrcb hqb (Ne.symm hk)
  · exact fun hu => hcore.kstack i src hsrc hsrcb hu
  · exact ⟨hwithin hex i src hi (gc_procs hsrc), hran, rfl, h.core.cr3, rfl, hframe⟩
  · exact hcore.serial i src hsrc hsrcb
  · exact fun hentry => Bool.noConfusion hentry
  · simp only [setProc_of_ne _ hji]
    exact hdst
  · have hne : some i ≠ some j := fun hij => hji (Option.some.inj hij).symm
    refine restores_isrSwitch ?_ ?_ ?_
    · rw [schedPrep_mem, schedPrep_userTrampoline]
      exact hcore.held j dst hdst hb hne
    · rw [schedPrep_cpu]
      exact h.core.cr3
    · rw [schedPrep_cpu]
      exact hirq

theorem Inv.timerIrq {s : Sys} (h : Inv s) {scratch : Mem} {regs : Gprs}
    (ha : Allowed s (.timer scratch regs)) (hok : Faithful s (.timer scratch regs)) :
    Inv (timerIrq s scratch regs) := by
  obtain ⟨hcur, -, hroom, hscratch⟩ := ha
  have hlow : 176 ≤ isrTop s.tssRsp0 s.cpu := by
    have := hroom.1
    omega
  have hkeeps := h.keepsStacks_isrMem hroom hcur hscratch
  have hframe := holdsAt_isrMem s scratch
  have hunfold : Context.timerIrq s scratch regs =
      Context.isrCommonStub { s with mem := isrMem s scratch } (isrTop s.tssRsp0 s.cpu - 176) regs
        (irqCommonHandler { s with mem := isrMem s scratch }) := by
    unfold Context.timerIrq
    rw [isrEntry_eq s.mem hlow]
    rfl
  rw [hunfold]
  generalize isrMem s scratch = mem at hkeeps hframe
  have hmem : Inv { s with mem } :=
    h.change (SubTable.refl _) hkeeps rfl rfl rfl rfl rfl rfl rfl rfl fun _ _ => rfl
  exact hmem.isrCommonStub hframe (fun hex i src hi hsrc => h.frame_within hroom hex hi hsrc) hok

/-! ## proc_exit and sched_run_first -/

theorem Inv.procExit {s t : Sys} (h : Inv s) (hex : s.exiting = false) (ht : procExit s = some t) :
    Inv t := by
  unfold Context.procExit at ht
  obtain ⟨i, hi, ht⟩ := Option.bind_eq_some_iff.mp ht
  obtain ⟨j, hj, ht⟩ := Option.bind_eq_some_iff.mp ht
  obtain ⟨dst, hdst, ht⟩ := Option.bind_eq_some_iff.mp ht
  obtain ⟨src, hsrc, hst, -⟩ := h.running hex hi
  rw [setState_eq hsrc] at hj hdst ht
  have hji : j ≠ i := by
    rintro rfl
    obtain ⟨p, hp, hready⟩ := ready_of_next hj
    rw [setProc_self] at hp
    obtain rfl := Option.some.inj hp
    exact absurd hready (by simp)
  have hbusy : s.busy = some i := by simp [Sys.busy, hex, hi]
  have hcore : Core s (some i) := hbusy ▸ h.core
  rw [setProc_of_ne _ hji] at hdst
  have hready : dst.state = .ready := by
    obtain ⟨p, hp, hready⟩ := ready_of_next hj
    rw [setProc_of_ne _ hji, hdst] at hp
    exact Option.some.inj hp ▸ hready
  have hend : ¬ { src with state := .terminated }.Built := fun hb => hb.1 rfl
  have hsub := ((SubTable.refl s.procs).unbuilt (i := i) hend).setProc hdst (by simp [hready]) .running
  have htable : Core { s with
      procs := setProc (setProc s.procs i { src with state := .terminated }) j
        { dst with state := .running }
      current := some j
      currentIndex := j
      exiting := true } none := by
    refine Core.free (i := i) ?_ ?_
    · exact hcore.change hsub (fun _ _ _ _ _ _ _ => rfl) rfl rfl rfl hcore.cr3
    · intro p hp
      simp only [setProc_of_ne _ (Ne.symm hji), setProc_self, Option.some.injEq] at hp
      subst hp
      exact hend
  obtain rfl := Option.some.inj ht
  refine ⟨?_, ?_, ?_, ?_, ?_⟩
  · rw [Sys.busy, schedPrep_exiting, if_pos rfl]
    exact htable.schedPrep _
  · intro k hk
    simpa using hk
  · intro k hk
    have hk : j = k := by simpa using hk
    subst hk
    exact ⟨_, by rw [schedPrep_procs]; exact setProc_self _ _ _, rfl⟩
  · intro k p hk
    simp [Sys.busy] at hk
  · intro k p hk hp hpb hu
    have hk : j = k := by simpa using hk
    subst hk
    have hp : { dst with state := .running } = p := by simpa [setProc_self] using hp
    subst hp
    exact schedPrep_tss hu (htable.kstack j _ (setProc_self _ _ _) hpb hu)

theorem Inv.procExitSwitch {s t : Sys} (h : Inv s) (hex : s.exiting = true)
    (hok : Faithful s .exitSwitch) (ht : procExitSwitch s = some t) : Inv t := by
  unfold Context.procExitSwitch at ht
  obtain ⟨j, hj, ht⟩ := Option.bind_eq_some_iff.mp ht
  obtain ⟨dst, hdst, ht⟩ := Option.bind_eq_some_iff.mp ht
  obtain rfl := Option.some.inj ht
  obtain ⟨p, hp, hst⟩ := h.current j hj
  obtain rfl : dst = p := Option.some.inj (hdst.symm.trans hp)
  obtain ⟨hpark, hfirst⟩ := hok j dst hj hdst
  have hb : dst.Built := ⟨by simp [hst], hpark⟩
  have hcore : Core s none := by
    have hc := h.core
    rwa [Sys.busy, if_pos hex] at hc
  have hc : Core { s with cpu := s.cpu.cli, exiting := false } none :=
    hcore.change (SubTable.refl _) (fun _ _ _ _ _ _ _ => rfl) rfl rfl rfl hcore.cr3
  exact inv_resume hc rfl hdst hb
    (restores_contextSwitchFirst (hcore.held j dst hdst hb (by simp)) hcore.cr3 hfirst)
    (h.tss j dst hj hdst hb)

theorem Inv.schedRunFirst {s : Sys} (h : Inv s) (hcur : s.current = none) (hex : s.exiting = false)
    (hok : Faithful s .runFirst) : Inv (schedRunFirst s) := by
  have hcore : Core s none := by
    have hc := h.core
    rwa [Sys.busy, hcur, ite_self] at hc
  have hrun : Inv { s with schedulerRunning := true } :=
    h.change (SubTable.refl _) (keepsStacks_refl s) rfl rfl rfl rfl rfl rfl rfl rfl fun _ _ => rfl
  unfold Context.schedRunFirst
  simp only
  split
  · exact hrun
  rename_i j hj
  obtain ⟨dst, hdst, hready⟩ := ready_of_next hj
  simp only [hdst]
  obtain ⟨hpark, hfirst⟩ := hok j dst hj hdst
  have hb := built_of_ready hready hpark
  have hc : Core { s with schedulerRunning := true, cpu := s.cpu.cli } none :=
    hcore.change (SubTable.refl _) (fun _ _ _ _ _ _ _ => rfl) rfl rfl rfl hcore.cr3
  refine inv_prep_resume hc hex hdst hb (restores_contextSwitchFirst ?_ ?_ hfirst)
  · rw [schedPrep_mem, schedPrep_userTrampoline]
    exact hcore.held j dst hdst hb (by simp)
  · rw [schedPrep_cpu]
    exact hcore.cr3

/-! ## The other steps -/

theorem Inv.schedWakeup {s : Sys} (h : Inv s) (i : Nat) : Inv (schedWakeup s i) := by
  unfold Context.schedWakeup
  split
  · exact h
  rename_i p hp
  split
  case isFalse => exact h
  case isTrue hst =>
    refine h.change ((SubTable.refl _).setProc hp (by simp [hst]) .ready) (keepsStacks_refl s)
      rfl rfl rfl rfl rfl rfl rfl rfl ?_
    intro k hk
    refine setProc_of_ne _ ?_
    rintro rfl
    obtain ⟨q, hq, hqst⟩ := h.current k hk
    obtain rfl := Option.some.inj (hp.symm.trans hq)
    simp [hst] at hqst

theorem Inv.ne_current {s : Sys} (h : Inv s) (hex : s.exiting = false) {i : Nat}
    (hi : ∀ p, s.procs i = some p → p.state = .terminated ∨ p.park = .unbuilt) {k : Nat}
    (hk : s.current = some k) : k ≠ i := by
  rintro rfl
  obtain ⟨p, hp, hst, -, hpark, -⟩ := h.running hex hk
  rcases hi p hp with hend | hun
  · simp [hst] at hend
  · simp [hpark] at hun

theorem Inv.procCreateBegin {s t : Sys} (h : Inv s) (hex : s.exiting = false) {stale : Proc}
    (ht : procCreateBegin s stale = some t) : Inv t := by
  obtain ⟨i, hi, ht⟩ := Option.bind_eq_some_iff.mp ht
  obtain rfl := Option.some.inj ht
  have hfree : isFree s.procs i = true := List.find?_some hi
  have hnot : ¬ { stale with state := .ready, park := .unbuilt }.Built := fun hb => hb.2 rfl
  refine h.change ((SubTable.refl _).unbuilt hnot) (keepsStacks_refl s) rfl rfl rfl rfl rfl rfl rfl
    rfl fun k hk => setProc_of_ne _ (h.ne_current hex (fun p hp => ?_) hk)
  left
  simpa [isFree, hp] using hfree

theorem Inv.procCreateFail {s : Sys} (h : Inv s) (hex : s.exiting = false) {i : Nat} {p : Proc}
    (hp : s.procs i = some p) (hpark : p.park = .unbuilt) :
    Inv { s with procs := Function.update s.procs i none } := by
  refine h.change ?_ (keepsStacks_refl s) rfl rfl rfl rfl rfl rfl rfl rfl
    fun k hk => Function.update_of_ne (h.ne_current hex (fun q hq => ?_) hk) _ _
  · intro k q hq hqb
    by_cases hk : k = i
    · subst hk
      simp at hq
    · have hq : s.procs k = some q := (Function.update_of_ne hk none s.procs).symm.trans hq
      exact ⟨q, hq, hqb, rfl⟩
  · obtain rfl := Option.some.inj (hp.symm.trans hq)
    exact Or.inr hpark

theorem Inv.create {s t : Sys} (h : Inv s) (hex : s.exiting = false) {i : Nat} {p new : Proc}
    (hp : s.procs i = some p) (hpark : p.park = .unbuilt) {stack : Nat} (hfresh : FreshStack s stack)
    (hprocs : t.procs = setProc s.procs i new) (htramp : t.userTrampoline = s.userTrampoline)
    (hborn : t.born = s.born + 1) (hlog : t.log = s.log) (hcpu : t.cpu = s.cpu)
    (hcur : t.current = s.current) (hindex : t.currentIndex = s.currentIndex)
    (hexit : t.exiting = s.exiting) (htss : t.tssRsp0 = s.tssRsp0)
    (hmem : ∀ a, a ∉ Span.mk stack procStackSize → t.mem a = s.mem a)
    (hstack : new.stack = ⟨stack, procStackSize⟩) (hserial : new.serial = s.born)
    (hkstack : new.isUser = true → KstackOk new) (hheld : Held t.mem s.userTrampoline new) :
    Inv t := by
  have hother : ∀ {k}, s.current = some k → k ≠ i := by
    intro k hk
    refine h.ne_current hex (fun q hq => ?_) hk
    obtain rfl := Option.some.inj (hp.symm.trans hq)
    exact Or.inr hpark
  have hkeep : Inv { s with mem := t.mem } := by
    refine h.change (SubTable.refl _) ?_ rfl rfl rfl rfl rfl rfl rfl rfl fun _ _ => rfl
    intro k q hq a ha
    exact hmem a fun hin => hfresh.2 k q hq.1 hq.2.1 a hin ha
  have hbusy : t.busy = s.busy := by simp [Sys.busy, hcur, hexit]
  have hbusy_cur : s.busy = s.current := by simp [Sys.busy, hex]
  have hlook : ∀ {k}, s.current = some k → t.procs k = s.procs k := by
    intro k hk
    rw [hprocs]
    exact setProc_of_ne _ (hother hk)
  refine ⟨?_, ?_, ?_, ?_, ?_⟩
  · rw [hbusy]
    refine hkeep.core.set (i := i) (fun k _ hk => hk) hprocs rfl htramp hlog ?_ ?_ ?_ hkstack hheld
      ?_ (fun _ => hserial)
    · rw [hcpu]
      exact h.core.cr3
    · rw [hborn]
      exact Nat.le_succ _
    · intro j q hq hqb _
      rw [hstack]
      exact hfresh.2 j q hq hqb
    · rw [hserial, hborn]
      exact Nat.lt_succ_self _
  · intro k hk
    rw [hindex]
    exact h.index k (hcur ▸ hk)
  · intro k hk
    rw [hcur] at hk
    rw [hlook hk]
    exact h.current k hk
  · intro k q hk hq
    rw [hbusy] at hk
    rw [hlook (hbusy_cur ▸ hk)] at hq
    exact h.busy k q hk hq
  · intro k q hk hq
    rw [hcur] at hk
    rw [hlook hk] at hq
    rw [htss]
    exact h.tss k q hk hq

theorem setupMem_frame {mem args : Mem} {stack entry a : Nat}
    (h : a ∉ Span.mk stack procStackSize) : setupMem mem stack entry args a = mem a := by
  have htop := stackTop_add stack
  unfold procStackSize at h htop
  simp only [mem_mk] at h
  have hargs : ¬ (stack ≤ a ∧ a < stack + procStackSize - 4096) := by
    unfold procStackSize
    omega
  rw [setupMem, Function.update_of_ne (by omega), if_neg hargs]

theorem setupMem_top (mem args : Mem) (stack entry : Nat) :
    setupMem mem stack entry args (stackTop stack) = entry := Function.update_self _ _ _

theorem Inv.createKernel {s : Sys} (h : Inv s) {i stack entry argc argv cr3 : Nat} {args : Mem}
    (ha : Allowed s (.createKernel i stack entry argc argv cr3 args)) {p : Proc}
    (hp : s.procs i = some p) : Inv (procSetupStack s i p stack entry argc argv cr3 args) := by
  obtain ⟨hex, ⟨q, hq, hpark⟩, hfresh, hne⟩ := ha
  obtain rfl := Option.some.inj (hp.symm.trans hq)
  refine h.create hex hp hpark hfresh rfl rfl rfl rfl rfl rfl rfl rfl rfl
    (fun a hout => setupMem_frame hout) rfl rfl ?_ ⟨?_, rfl, rfl, ?_⟩
  · exact fun hu => Bool.noConfusion hu
  · intro a hin
    have htop := stackTop_add stack
    unfold procStackSize at htop
    simp only [Proc.saveArea, Bool.false_eq_true, if_false, mem_mk, procStackSize] at hin ⊢
    omega
  · rw [if_neg Bool.false_ne_true]
    exact ⟨setupMem_top s.mem args stack entry, hne, rfl, rfl⟩

theorem userFrameMem_frame {mem : Mem} {stack entry userRsp trampoline argc argv a : Nat}
    (h : a ∉ Span.mk stack procStackSize) :
    userFrameMem mem (frameBase stack) entry userRsp trampoline argc argv a = mem a := by
  have hbase := frameBase_add stack
  unfold procStackSize at h hbase
  simp only [mem_mk] at h
  unfold userFrameMem
  rw [Function.update_of_ne (by omega), Function.update_of_ne (by omega),
    Function.update_of_ne (by omega)]
  refine store_frame ?_
  simp only [mem_mk, List.length_cons, List.length_nil]
  omega

theorem userFrameMem_holds (mem : Mem) {frame : Nat} (h : 24 ≤ frame)
    (entry userRsp trampoline argc argv : Nat) :
    let m := userFrameMem mem frame entry userRsp trampoline argc argv
    m (frame - 8) = trampoline ∧ m (frame - 8 + 8) = entry ∧ m (frame - 8 - 16) = argc ∧
      m (frame - 8 - 8) = argv := by
  have hentry : frame - 8 + 8 = frame := by omega
  have hargc : frame - 8 - 16 = frame - 24 := by omega
  have hargv : frame - 8 - 8 = frame - 16 := by omega
  rw [hentry, hargc, hargv]
  unfold userFrameMem
  refine ⟨?_, ?_, ?_, Function.update_self _ _ _⟩
  · rw [Function.update_of_ne (by omega), Function.update_of_ne (by omega), Function.update_self]
  · rw [Function.update_of_ne (by omega), Function.update_of_ne (by omega),
      Function.update_of_ne (by omega), store, Function.update_self]
  · rw [Function.update_of_ne (by omega), Function.update_self]

theorem Inv.createUser {s : Sys} (h : Inv s) {i stack entry userRsp argc argv cr3 : Nat}
    (ha : Allowed s (.createUser i stack entry userRsp argc argv cr3)) {p : Proc}
    (hp : s.procs i = some p) : Inv (procEnterUser s i p stack entry userRsp argc argv cr3) := by
  obtain ⟨hex, ⟨q, hq, hpark⟩, hfresh⟩ := ha
  obtain rfl := Option.some.inj (hp.symm.trans hq)
  have halign := hfresh.1
  have hbase := frameBase_add stack
  unfold procStackSize at hbase
  refine h.create hex hp hpark hfresh rfl rfl rfl rfl rfl rfl rfl rfl rfl
    (fun a hout => userFrameMem_frame hout) rfl rfl ?_ ⟨?_, rfl, rfl, ?_⟩
  · intro _
    simp only [KstackOk, procStackSize]
    omega
  · intro a hin
    simp only [Proc.saveArea, if_true, mem_mk, procStackSize] at hin ⊢
    omega
  · have hlow : 24 ≤ frameBase stack := by omega
    rw [if_pos rfl]
    refine ⟨?_, userFrameMem_holds s.mem hlow entry userRsp s.userTrampoline argc argv⟩
    exact Nat.le_sub_of_add_le hlow

theorem Inv.step {s t : Sys} {o : Op} (h : Inv s) (hstep : Guarded Faithful Step s o t) : Inv t := by
  obtain ⟨hok, ha, ht⟩ := hstep
  cases o with
  | run cpu mem =>
    obtain rfl := Option.some.inj ht
    obtain ⟨hex, hcr3, hkeeps⟩ := ha
    exact h.change (SubTable.refl _) hkeeps rfl rfl rfl hcr3 rfl rfl rfl rfl fun _ _ => rfl
  | createBegin stale => exact h.procCreateBegin ha ht
  | createFail i =>
    obtain rfl := Option.some.inj ht
    obtain ⟨hex, p, hp, hpark⟩ := ha
    exact h.procCreateFail hex hp hpark
  | createKernel i stack entry argc argv cr3 args =>
    obtain ⟨p, hp, rfl⟩ := Option.map_eq_some_iff.mp ht
    exact h.createKernel ha hp
  | createUser i stack entry userRsp argc argv cr3 =>
    obtain ⟨p, hp, rfl⟩ := Option.map_eq_some_iff.mp ht
    exact h.createUser ha hp
  | runFirst =>
    obtain rfl := Option.some.inj ht
    exact h.schedRunFirst ha.1 ha.2 hok
  | wakeup i =>
    obtain rfl := Option.some.inj ht
    exact h.schedWakeup i
  | yield =>
    obtain rfl := Option.some.inj ht
    exact h.schedYield ha.1 ha.2 hok
  | block =>
    obtain rfl := Option.some.inj ht
    exact h.schedBlock ha.1 ha.2 hok
  | timer scratch regs =>
    obtain rfl := Option.some.inj ht
    exact h.timerIrq ha hok
  | exit => exact h.procExit ha ht
  | exitSwitch => exact h.procExitSwitch ha hok ht

/-- In every run whose steps are faithful, every resume goes on where the process was parked. -/
theorem context_preserved (userTrampoline : Nat) (cpu : Cpu) (mem : Mem) (hcr3 : cpu.cr3 ≠ 0)
    {ops : List Op} {s : Sys}
    (h : Run (Guarded Faithful Step) (boot userTrampoline cpu mem) ops s) : Preserved s :=
  (h.invariant (fun _ _ _ hi hstep => hi.step hstep)
    (inv_boot userTrampoline cpu mem hcr3)).core.preserved

/-! ## A run that loses a register -/

instance (s : Sys) (start : Nat) (ok : Proc → Prop) [DecidablePred ok] :
    Decidable (NextResumes s start ok) :=
  decidable_of_iff (∀ p ∈ (nextReadyFrom s.procs start).bind s.procs, p.park ≠ .unbuilt ∧ ok p) (by
    simp only [NextResumes, Option.mem_def, Option.bind_eq_some_iff]
    exact ⟨fun h j p hj hp => h p ⟨j, hj, hp⟩, fun h p ⟨j, hj, hp⟩ => h j p hj hp⟩)

instance (s : Sys) : Decidable (OnOwnStack s) :=
  decidable_of_iff (∀ p ∈ s.current.bind s.procs, Within ⟨s.cpu.rsp, 8⟩ p.stack) (by
    simp only [OnOwnStack, Option.mem_def, Option.bind_eq_some_iff]
    exact ⟨fun h i p hi hp => h p ⟨i, hi, hp⟩, fun h p ⟨i, hi, hp⟩ => h i p hi hp⟩)

instance (p : Proc) : Decidable (FirstOk p) := inferInstanceAs (Decidable (_ ∨ _ ∨ _))

def after (s : Sys) (o : Op) : Sys := (apply s o).getD s

theorem step_after {s : Sys} {o : Op} (ha : Allowed s o) (hs : (apply s o).isSome = true) :
    Step s o (after s o) := by
  obtain ⟨t, ht⟩ := Option.isSome_iff_exists.mp hs
  exact ⟨ha, by rw [after, ht]; rfl⟩

def noGprs : Gprs := ⟨0, 0, 0, 0, 0, 0, 0, 0, 0, 0, 0, 0, 0, 0, 0⟩

def noContext : CpuContext := ⟨0, 0, 0, 0, 0, 0, 0, 0, 0, 0, 0, 0, 0, 0, 0, 0, 0, 0⟩

def emptySlot : Proc := ⟨.terminated, ⟨0, 0⟩, noContext, false, 0, .unbuilt, 0⟩

def booted : Sys := boot 0x700 ⟨noGprs, 0, 0, 0, 8, 16, 0x1000⟩ fun _ => 0

def oneBegun : Sys := after booted (.createBegin emptySlot)

def oneProcess : Sys := after oneBegun (.createKernel 0 0x10000 0x500 0 0 0 fun _ => 0)

def twoBegun : Sys := after oneProcess (.createBegin emptySlot)

def twoProcesses : Sys := after twoBegun (.createKernel 1 0x20000 0x600 0 0 0 fun _ => 0)

/-- The first process runs. -/
def started : Sys := after twoProcesses .runFirst

/-- The code of the first process. -/
def setRbx : Op := .run { started.cpu with gprs := { started.cpu.gprs with rbx := 5 } } started.mem

def rbxSet : Sys := after started setRbx

/-- The first process is parked, and the second one runs. -/
def firstParked : Sys := after rbxSet .yield

theorem freshStack_oneBegun : FreshStack oneBegun 0x10000 := by
  refine ⟨by decide, fun i p hp hb => ?_⟩
  have hprocs : oneBegun.procs = setProc (fun _ => none) 0 { emptySlot with state := .ready } := rfl
  rw [hprocs] at hp
  have hnot : ¬ { emptySlot with state := .ready }.Built := fun hb => hb.2 rfl
  obtain ⟨q, hq, -⟩ := (SubTable.refl _).unbuilt hnot i p hp hb
  exact absurd hq (by simp)

theorem freshStack_twoBegun : FreshStack twoBegun 0x20000 := by
  refine ⟨by decide, fun i p hp hb => ?_⟩
  have hprocs : twoBegun.procs = setProc oneProcess.procs 1 { emptySlot with state := .ready } := rfl
  have hnot : ¬ { emptySlot with state := .ready }.Built := fun hb => hb.2 rfl
  rw [hprocs] at hp
  obtain ⟨q, hq, -, hpq⟩ := (SubTable.refl _).unbuilt hnot i p hp hb
  have hstack : p.stack = q.stack := by rw [hpq]
  rw [hstack]
  by_cases hi : i = 0
  · subst hi
    have hfirst : (oneProcess.procs 0).map (·.stack) = some ⟨0x10000, procStackSize⟩ := by
      decide +kernel
    rw [hq] at hfirst
    have hqs : q.stack = ⟨0x10000, procStackSize⟩ := Option.some.inj hfirst
    rw [hqs, apart_iff]
    decide
  · have hone : oneProcess.procs i = oneBegun.procs i := setProc_of_ne _ hi
    have hnone : oneBegun.procs i = booted.procs i := setProc_of_ne _ hi
    rw [hone, hnone] at hq
    exact absurd hq (by simp [booted, boot])

theorem run_firstParked : Run (Guarded Faithful Step) booted
    [.createBegin emptySlot, .createKernel 0 0x10000 0x500 0 0 0 fun _ => 0,
      .createBegin emptySlot, .createKernel 1 0x20000 0x600 0 0 0 fun _ => 0, .runFirst, setRbx,
      .yield] firstParked := by
  refine .cons ⟨trivial, step_after rfl (by decide +kernel)⟩ (.cons ⟨trivial, step_after ⟨rfl, ?_,
    freshStack_oneBegun, by decide +kernel⟩ (by decide +kernel)⟩ (.cons ⟨trivial, step_after rfl
    (by decide +kernel)⟩ (.cons ⟨trivial, step_after ⟨rfl, ?_, freshStack_twoBegun, by decide +kernel⟩
    (by decide +kernel)⟩ (.cons ⟨?_, step_after ⟨rfl, rfl⟩ rfl⟩ (.cons ⟨trivial, step_after ⟨rfl, rfl,
    keepsStacks_refl _⟩ rfl⟩ (.cons ⟨?_, step_after ⟨rfl, ?_⟩ rfl⟩ (.nil _)))))))
  · exact ⟨_, rfl, rfl⟩
  · exact ⟨_, rfl, rfl⟩
  · show NextResumes twoProcesses 0 FirstOk
    decide +kernel
  · show NextResumes rbxSet (rbxSet.currentIndex + 1) fun p => rbxSet.current = none → FirstOk p
    decide +kernel
  · show OnOwnStack rbxSet
    decide +kernel

/-- The first process goes on by `sched_yield` of the second. -/
theorem context_preserved_yield : Preserved (after firstParked .yield) := by
  refine context_preserved 0x700 ⟨noGprs, 0, 0, 0, 8, 16, 0x1000⟩ (fun _ => 0) (by decide)
    (run_firstParked.append (.single ⟨?_, step_after ⟨rfl, ?_⟩ rfl⟩))
  · show NextResumes firstParked (firstParked.currentIndex + 1) fun p =>
      firstParked.current = none → FirstOk p
    decide +kernel
  · show OnOwnStack firstParked
    decide +kernel

/-- When the second process ends instead, the first one goes on with `rbx` cleared. -/
theorem context_lost_on_exit :
    ¬ ∀ (userTrampoline : Nat) (cpu : Cpu) (mem : Mem) (ops : List Op) (s : Sys), cpu.cr3 ≠ 0 →
      Run Step (boot userTrampoline cpu mem) ops s → Preserved s := by
  intro h
  have hexit : Step firstParked .exit (after firstParked .exit) := step_after rfl (by decide +kernel)
  have hswitch : Step (after firstParked .exit) .exitSwitch
      (after (after firstParked .exit) .exitSwitch) := step_after rfl (by decide +kernel)
  have hrun := run_firstParked.unguard.append (.cons hexit (.single hswitch))
  have hall := (h _ _ _ _ _ (by decide) hrun).continues
  have hlost : ∃ r ∈ (after (after firstParked .exit) .exitSwitch).log,
      ∃ d, r.park = .call d ∧ r.cpu.gprs.saved ≠ d.gprs.saved := by
    refine ⟨_, List.mem_cons_self, _, rfl, ?_⟩
    decide +kernel
  obtain ⟨r, hr, d, hpark, hne⟩ := hlost
  have hcont := hall r hr
  rw [hpark] at hcont
  exact hne hcont.2.2.2

end Siathos.Context
