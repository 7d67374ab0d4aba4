import Siathos.Context.Sched

/-!
# What a resume finds

`Held` says what the context and the stack of a parked process hold. Each of the three ways to
resume a process continues it from there, two of them only on a condition.
-/

open Lib Lib.Span

namespace Siathos.Context

/-- The words of an interrupt frame, lowest first. -/
def isrFrame (c : Cpu) : List Nat := (isrPushes c).reverse

theorem isrFrame_length (c : Cpu) : (isrFrame c).length = 22 := rfl

/-- The part of the stack that a resume reads. -/
def Proc.saveArea (p : Proc) : Span :=
  match p.park with
  | .entry _ _ _ => if p.isUser then ⟨p.ctx.rsp - 16, 64⟩ else ⟨p.ctx.rsp, 8⟩
  | .call _ => ⟨p.ctx.rsp, 8⟩
  | .irq _ => ⟨p.ctx.hwRsp, 176⟩
  | _ => ⟨0, 0⟩

/-- The context and the stack hold what the process needs to go on. -/
def Holds (mem : Mem) (userTrampoline : Nat) (p : Proc) : Prop :=
  match p.park with
  | .entry rip argc argv =>
    p.ctx.ran = 0 ∧ p.ctx.style = 0 ∧
      if p.isUser then 16 ≤ p.ctx.rsp ∧ mem p.ctx.rsp = userTrampoline ∧ mem (p.ctx.rsp + 8) = rip ∧
        mem (p.ctx.rsp - 16) = argc ∧ mem (p.ctx.rsp - 8) = argv
      else mem p.ctx.rsp = rip ∧ rip ≠ userTrampoline ∧ p.ctx.arg1 = argc ∧ p.ctx.arg2 = argv
  | .call d =>
    p.ctx.ran = 1 ∧ p.ctx.style = 0 ∧ d.cr3 ≠ 0 ∧ p.ctx.cr3 = d.cr3 ∧ mem p.ctx.rsp = d.rip ∧
      p.ctx.rsp + 8 = d.rsp ∧ p.ctx.saved = d.gprs.saved
  | .irq d =>
    p.ctx.ran = 1 ∧ p.ctx.style = 1 ∧ d.cr3 ≠ 0 ∧ p.ctx.cr3 = d.cr3 ∧
      HoldsAt mem p.ctx.hwRsp (isrFrame d)
  | .unbuilt => False
  | .running => False

/-- A parked process can be resumed. -/
def Held (mem : Mem) (userTrampoline : Nat) (p : Proc) : Prop :=
  Within p.saveArea p.stack ∧ Holds mem userTrampoline p

theorem Held.frame {mem mem' : Mem} {userTrampoline : Nat} {p : Proc}
    (h : Held mem userTrampoline p) (heq : ∀ a ∈ p.stack, mem' a = mem a) :
    Held mem' userTrampoline p := by
  obtain ⟨harea, hold⟩ := h
  refine ⟨harea, ?_⟩
  have hsame : ∀ a ∈ p.saveArea, mem' a = mem a := fun a ha => heq a (harea a ha)
  unfold Holds at hold ⊢
  unfold Proc.saveArea at hsame
  cases hpark : p.park with
  | unbuilt => simp [hpark] at hold
  | running => simp [hpark] at hold
  | entry rip argc argv =>
    simp only [hpark] at hold hsame ⊢
    by_cases hu : p.isUser = true
    · simp only [hu, if_true, mem_mk] at hold hsame ⊢
      obtain ⟨hran, hstyle, hrsp, hold⟩ := hold
      refine ⟨hran, hstyle, hrsp, ?_⟩
      rw [hsame _ ⟨by omega, by omega⟩, hsame _ ⟨by omega, by omega⟩,
        hsame _ ⟨by omega, by omega⟩, hsame _ ⟨by omega, by omega⟩]
      exact hold
    · simp only [hu, Bool.false_eq_true, if_false, mem_mk] at hold hsame ⊢
      rw [hsame _ ⟨by omega, by omega⟩]
      exact hold
  | call d =>
    simp only [hpark, mem_mk] at hold hsame ⊢
    rw [hsame _ ⟨by omega, by omega⟩]
    exact hold
  | irq d =>
    simp only [hpark] at hold hsame ⊢
    obtain ⟨hran, hstyle, hcr3, hcr3', hframe⟩ := hold
    exact ⟨hran, hstyle, hcr3, hcr3', hframe.congr hsame⟩

/-! ## The frame of an interrupt -/

theorem popFrame_of_holdsAt {mem : Mem} {base : Nat} {d : Cpu} (h : HoldsAt mem base (isrFrame d))
    (c : Cpu) : popFrame mem base c = { d with cr3 := c.cr3 } := by
  have hword : ∀ k (hk : k < 22), mem (base + 8 * k) = (isrFrame d).get ⟨k, hk⟩ := h
  have hgprs : popGprs mem base = d.gprs := by
    obtain ⟨⟨rdi, rsi, rcx, rdx, rbx, rbp, r8, r9, r10, r11, r12, r13, r14, r15, rax⟩, _⟩ := d
    simp only [popGprs, Gprs.mk.injEq]
    exact ⟨hword 0 (by decide), hword 1 (by decide), hword 2 (by decide), hword 3 (by decide),
      hword 4 (by decide), hword 5 (by decide), hword 6 (by decide), hword 7 (by decide),
      hword 8 (by decide), hword 9 (by decide), hword 10 (by decide), hword 11 (by decide),
      hword 12 (by decide), hword 13 (by decide), hword 14 (by decide)⟩
  obtain ⟨gprs, rsp, rip, rflags, cs, ss, cr3⟩ := d
  simp only [popFrame, iretq, hgprs, Cpu.mk.injEq, true_and, and_true]
  exact ⟨hword 20 (by decide), hword 17 (by decide), hword 19 (by decide), hword 18 (by decide),
    hword 21 (by decide)⟩

theorem loadCr3_of_ne {v : Nat} (h : v ≠ 0) (c : Cpu) : loadCr3 v c = { c with cr3 := v } :=
  if_neg h

theorem loadCr3_cr3_ne {v : Nat} {c : Cpu} (h : c.cr3 ≠ 0) : (loadCr3 v c).cr3 ≠ 0 := by
  unfold loadCr3
  split
  · exact h
  · assumption

@[simp] theorem loadCr3_gprs (v : Nat) (c : Cpu) : (loadCr3 v c).gprs = c.gprs := by
  unfold loadCr3
  split <;> rfl

@[simp] theorem loadCr3_rsp (v : Nat) (c : Cpu) : (loadCr3 v c).rsp = c.rsp := by
  unfold loadCr3
  split <;> rfl

@[simp] theorem settle_cr3 (s : Sys) (dst : Proc) (c : Cpu) : (settle s dst c).cr3 = c.cr3 := by
  unfold settle
  split <;> rfl

/-! ## The three ways to be resumed -/

/-- A process that never ran is entered by `ret`, with `rdi` and `rsi`. -/
theorem continues_entry {s : Sys} {dst : Proc} {c : Cpu} {rip argc argv : Nat}
    (h : Held s.mem s.userTrampoline dst) (hpark : dst.park = .entry rip argc argv)
    (hrip : c.rip = s.mem dst.ctx.rsp) (hrsp : c.rsp = dst.ctx.rsp + 8)
    (hrdi : c.gprs.rdi = dst.ctx.arg1) (hrsi : c.gprs.rsi = dst.ctx.arg2) :
    Continues dst.park (settle s dst c) := by
  obtain ⟨-, hold⟩ := h
  simp only [Holds, hpark] at hold
  obtain ⟨hran, -, hold⟩ := hold
  rw [hpark]
  by_cases hu : dst.isUser = true
  · rw [if_pos hu] at hold
    obtain ⟨hlow, htramp, hentry, hargc, hargv⟩ := hold
    have hrdi' : dst.ctx.rsp + 8 - 24 = dst.ctx.rsp - 16 := by omega
    have hrsi' : dst.ctx.rsp + 8 - 16 = dst.ctx.rsp - 8 := by omega
    rw [settle, if_pos ⟨hran, hrip.trans htramp⟩]
    simp only [Continues, enterUser, iretq, hrsp, hrdi', hrsi']
    exact ⟨hentry, hargc, hargv⟩
  · rw [if_neg hu] at hold
    obtain ⟨hentry, hne, hargc, hargv⟩ := hold
    have hout : ¬ (dst.ctx.ran = 0 ∧ c.rip = s.userTrampoline) := by
      rw [hrip, hentry]
      exact fun h => hne h.2
    rw [settle, if_neg hout]
    exact ⟨hrip.trans hentry, hrdi.trans hargc, hrsi.trans hargv⟩

theorem continues_call {s : Sys} {dst : Proc} {c d : Cpu}
    (h : Held s.mem s.userTrampoline dst) (hpark : dst.park = .call d)
    (hrip : c.rip = s.mem dst.ctx.rsp) (hrsp : c.rsp = dst.ctx.rsp + 8)
    (hcr3 : c.cr3 = dst.ctx.cr3) (hsaved : c.gprs.saved = dst.ctx.saved) :
    Continues dst.park (settle s dst c) := by
  obtain ⟨-, hold⟩ := h
  simp only [Holds, hpark] at hold
  obtain ⟨hran, -, -, hcr3', hret, hrsp', hsaved'⟩ := hold
  have hout : ¬ (dst.ctx.ran = 0 ∧ c.rip = s.userTrampoline) := by
    rw [hran]
    exact fun h => Nat.one_ne_zero h.1
  rw [hpark, settle, if_neg hout]
  exact ⟨hrip.trans hret, hrsp.trans hrsp', hcr3.trans hcr3', hsaved.trans hsaved'⟩

theorem continues_irq {s : Sys} {dst : Proc} {c d : Cpu}
    (h : Held s.mem s.userTrampoline dst) (hpark : dst.park = .irq d) (hcr3 : c.cr3 = dst.ctx.cr3) :
    Continues dst.park (settle s dst (popFrame s.mem dst.ctx.hwRsp c)) := by
  obtain ⟨-, hold⟩ := h
  simp only [Holds, hpark] at hold
  obtain ⟨hran, -, -, hcr3', hframe⟩ := hold
  have hout : ¬ (dst.ctx.ran = 0 ∧ (popFrame s.mem dst.ctx.hwRsp c).rip = s.userTrampoline) := by
    rw [hran]
    exact fun h => Nat.one_ne_zero h.1
  rw [hpark, settle, if_neg hout, popFrame_of_holdsAt hframe, hcr3, hcr3']
  rfl

/-- What a resume through `switch` has to give. -/
structure Restores (switch : Mem → Cpu → CpuContext → Cpu × CpuContext) (s : Sys) (dst : Proc) :
    Prop where
  continues : Continues dst.park (settle s dst (switch s.mem s.cpu dst.ctx).1)
  ran : (switch s.mem s.cpu dst.ctx).2.ran = 1
  cr3 : (switch s.mem s.cpu dst.ctx).1.cr3 ≠ 0

/-- `context_switch` always continues the process. -/
theorem restores_restoreContext {s : Sys} {dst : Proc} (h : Held s.mem s.userTrampoline dst)
    (hcr3 : s.cpu.cr3 ≠ 0) : Restores restoreContext s dst := by
  have hold := h.2
  cases hpark : dst.park with
  | unbuilt => simp [Holds, hpark] at hold
  | running => simp [Holds, hpark] at hold
  | entry rip argc argv =>
    simp only [Holds, hpark] at hold
    refine ⟨?_, ?_, ?_⟩ <;> simp only [restoreContext, hold.1, if_true]
    · exact continues_entry h hpark rfl rfl rfl rfl
    · exact loadCr3_cr3_ne hcr3
  | call d =>
    simp only [Holds, hpark] at hold
    obtain ⟨hran, hstyle, hd, hcr3', -, -, -⟩ := hold
    have hne : dst.ctx.cr3 ≠ 0 := hcr3' ▸ hd
    refine ⟨?_, ?_, ?_⟩ <;>
      simp only [restoreContext, hran, hstyle, Nat.one_ne_zero, Nat.zero_ne_one, if_false,
        loadCr3_of_ne hne]
    · exact continues_call h hpark rfl rfl rfl rfl
    · exact hne
  | irq d =>
    simp only [Holds, hpark] at hold
    obtain ⟨hran, hstyle, hd, hcr3', -⟩ := hold
    have hne : dst.ctx.cr3 ≠ 0 := hcr3' ▸ hd
    refine ⟨?_, ?_, ?_⟩ <;>
      simp only [restoreContext, hran, hstyle, Nat.one_ne_zero, if_false, if_true,
        loadCr3_of_ne hne]
    · exact continues_irq h hpark rfl
    · exact hne

theorem restores_contextSwitchFirst {s : Sys} {dst : Proc} (h : Held s.mem s.userTrampoline dst)
    (hcr3 : s.cpu.cr3 ≠ 0)
    (hok : dst.ctx.ran = 0 ∨ dst.ctx.style = 1 ∨ dst.ctx.saved = ⟨0, 0, 0, 0, 0, 0⟩) :
    Restores contextSwitchFirst s dst := by
  have hold := h.2
  cases hpark : dst.park with
  | unbuilt => simp [Holds, hpark] at hold
  | running => simp [Holds, hpark] at hold
  | entry rip argc argv =>
    simp only [Holds, hpark] at hold
    refine ⟨?_, ?_, ?_⟩ <;> simp only [contextSwitchFirst, hold.2.1, Nat.zero_ne_one, if_false]
    · refine continues_entry h hpark ?_ ?_ ?_ ?_ <;> simp [ret]
    · exact loadCr3_cr3_ne hcr3
  | call d =>
    simp only [Holds, hpark] at hold
    obtain ⟨hran, hstyle, hd, hcr3', -, -, -⟩ := hold
    have hne : dst.ctx.cr3 ≠ 0 := hcr3' ▸ hd
    have hzero : dst.ctx.saved = ⟨0, 0, 0, 0, 0, 0⟩ := by simpa [hran, hstyle] using hok
    refine ⟨?_, ?_, ?_⟩ <;>
      simp only [contextSwitchFirst, hstyle, Nat.zero_ne_one, if_false, loadCr3_of_ne hne]
    · exact continues_call h hpark rfl rfl rfl hzero.symm
    · exact hne
  | irq d =>
    simp only [Holds, hpark] at hold
    obtain ⟨hran, hstyle, hd, hcr3', -⟩ := hold
    have hne : dst.ctx.cr3 ≠ 0 := hcr3' ▸ hd
    refine ⟨?_, ?_, ?_⟩ <;> simp only [contextSwitchFirst, hstyle, if_true, loadCr3_of_ne hne]
    · exact continues_irq h hpark rfl
    · exact hran
    · exact hne

theorem restores_isrSwitch {s : Sys} {dst : Proc} (h : Held s.mem s.userTrampoline dst)
    (hcr3 : s.cpu.cr3 ≠ 0)
    (hok : dst.ctx.ran = 0 ∨ dst.ctx.style = 1 ∨ dst.ctx.saved = s.cpu.gprs.saved) :
    Restores isrSwitch s dst := by
  have hold := h.2
  cases hpark : dst.park with
  | unbuilt => simp [Holds, hpark] at hold
  | running => simp [Holds, hpark] at hold
  | entry rip argc argv =>
    simp only [Holds, hpark] at hold
    refine ⟨?_, ?_, ?_⟩ <;> simp only [isrSwitch, hold.1, if_true]
    · exact continues_entry h hpark rfl rfl rfl rfl
    · exact loadCr3_cr3_ne hcr3
  | call d =>
    simp only [Holds, hpark] at hold
    obtain ⟨hran, hstyle, hd, hcr3', -, -, -⟩ := hold
    have hne : dst.ctx.cr3 ≠ 0 := hcr3' ▸ hd
    have hsame : dst.ctx.saved = s.cpu.gprs.saved := by simpa [hran, hstyle] using hok
    refine ⟨?_, ?_, ?_⟩ <;>
      simp only [isrSwitch, hran, hstyle, Nat.one_ne_zero, Nat.zero_ne_one, if_false,
        loadCr3_of_ne hne]
    · exact continues_call h hpark rfl rfl rfl hsame.symm
    · exact hne
  | irq d =>
    simp only [Holds, hpark] at hold
    obtain ⟨hran, hstyle, hd, hcr3', -⟩ := hold
    have hne : dst.ctx.cr3 ≠ 0 := hcr3' ▸ hd
    refine ⟨?_, ?_, ?_⟩ <;>
      simp only [isrSwitch, hran, hstyle, Nat.one_ne_zero, if_false, if_true, loadCr3_of_ne hne]
    · exact continues_irq h hpark rfl
    · exact hne

end Siathos.Context
