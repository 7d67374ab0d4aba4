import Siathos.Gate.Flag
import Siathos.Gate.Irqs
import Siathos.Session.Pointers

/-!
# No preemption inside the gate (`usermode.asm`, `proc.c`)

Processes of ring 3 enter system calls by `int 0x80`, and the scheduler and the timer come between.
Interrupts stay off in a call until it returns, unless it hashes a password. One more way to lose
is the timer in the middle of a `proc_exit`.
-/

open Lib Siathos.Context
open Siathos.Syscall (Machine Env Kernel U64 procGet)

namespace Siathos.Gate

/-- A system call: its number, its arguments, and the tables that it finds. -/
structure SysCall where
  m : Machine
  env : Env
  kernel : Kernel
  nr : U64
  a1 : U64
  a2 : U64
  a3 : U64
  a4 : U64

def SysCall.irqs (c : SysCall) (cur : Nat) : List IrqOp :=
  (irqDispatch c.m c.env cur c.nr c.a1 c.a2 c.a3 c.a4 c.kernel).trace

def SysCall.Hashes (c : SysCall) (cur : Nat) : Prop :=
  ReachesHash c.env cur c.nr c.a1 c.a2 c.a3 c.kernel

/-- The scheduler, and by slot what is left of the call that the process is in. `left` has what the
PCB of each slot last held. -/
structure System where
  sys : Sys
  calls : Nat → Option (List IrqOp)
  left : Nat → CpuContext

def boot (userTrampoline : Nat) (cpu : Cpu) (mem : Mem) : System where
  sys := Context.boot userTrampoline cpu mem
  calls := fun _ => none
  left := fun _ => noContext

/-- `sti`. -/
def sti (c : Cpu) : Cpu := { c with rflags := if flagsIf c.rflags then c.rflags else c.rflags + 512 }

/-- What the CPU pushes on `int 0x80`, and then `syscall_gate`. -/
def gatePushes (c : Cpu) : List Nat :=
  [c.ss, c.rsp, c.rflags, c.cs, c.rip, c.gprs.r15, c.gprs.r14, c.gprs.r13, c.gprs.r12, c.gprs.r11,
    c.gprs.r10, c.gprs.r9, c.gprs.r8, c.gprs.rbp, c.gprs.rdi, c.gprs.rsi, c.gprs.rdx, c.gprs.rcx,
    c.gprs.rbx, c.gprs.rax]

/-- `int 0x80`: the gate is an interrupt gate, which clears the flag. -/
def int80 (s : Sys) (gate : Nat) : Sys :=
  let r := pushAll s.mem (isrTop s.tssRsp0 s.cpu) (gatePushes s.cpu)
  { s with mem := r.1, cpu := { s.cpu.cli with rsp := r.2, rip := gate, cs := 8, ss := 0 } }

@[simp] theorem int80_busy (s : Sys) (gate : Nat) : (int80 s gate).busy = s.busy := by
  unfold int80 Sys.busy
  rfl

@[simp] theorem int80_procs (s : Sys) (gate : Nat) : (int80 s gate).procs = s.procs := by
  unfold int80
  rfl

@[simp] theorem int80_current (s : Sys) (gate : Nat) : (int80 s gate).current = s.current := by
  unfold int80
  rfl

@[simp] theorem int80_currentIndex (s : Sys) (gate : Nat) :
    (int80 s gate).currentIndex = s.currentIndex := by
  unfold int80
  rfl

theorem int80_rflags (s : Sys) (gate : Nat) : (int80 s gate).cpu.rflags = s.cpu.cli.rflags := by
  unfold int80
  rfl

/-- `proc_waitpid` goes on waiting. -/
def waits (k : Kernel) (cur pid : Nat) : Bool :=
  (k.proc cur).waitPid ≠ pid && (procGet k pid).any fun kid => kid.state ≠ .terminated

inductive Op
  /-- `int 0x80`, whose gate is at the address `gate`. -/
  | enter (c : SysCall) (gate : Nat)
  /-- The call goes on to the next change of the flag, or gives the processor away. -/
  | next (k : Kernel)
  /-- Code of the call that leaves the flag alone. -/
  | code (cpu : Cpu) (mem : Mem)
  /-- `iretq`. -/
  | leave
  | sched (o : Context.Op)
  | gc

/-- What the PCBs hold, also those of free slots. -/
def System.save (g : System) : Nat → CpuContext := fun i => (g.sys.procs i).elim (g.left i) (·.ctx)

/-- The process of slot `i` goes on in its call, at `o`, with `l` after it. -/
def next (g : System) (i : Nat) (k : Kernel) (o : IrqOp) (l : List IrqOp) : Option System :=
  let rest (sys : Sys) (l : List IrqOp) : System :=
    ⟨sys, Function.update g.calls i (some l), g.save⟩
  let ifWas := flagsIf g.sys.cpu.rflags
  match o with
  | .disable => some (rest { g.sys with cpu := g.sys.cpu.cli } l)
  | .enable => some (rest { g.sys with cpu := sti g.sys.cpu } l)
  | .restore b => some (rest (if b then { g.sys with cpu := sti g.sys.cpu } else g.sys) l)
  | .yield => some (rest (schedYield g.sys) (.restore ifWas :: l))
  | .wait pid =>
    if waits k i pid then some (rest (schedBlock g.sys) (.restore ifWas :: .wait pid :: l))
    else some (rest g.sys l)
  | .exit => (procExit g.sys).map fun sys => ⟨sys, Function.update g.calls i none, g.save⟩

/-- Nothing where the operation does not return. -/
def apply (g : System) : Op → Option System
  | .enter c gate => g.sys.busy.map fun i =>
    ⟨int80 g.sys gate, Function.update g.calls i (some (c.irqs i)), g.save⟩
  | .next k => do
    let i ← g.sys.busy
    match g.calls i with
    | some (o :: l) => next g i k o l
    | _ => none
  | .code cpu mem => some { g with sys := { g.sys with cpu, mem } }
  | .leave => g.sys.busy.map fun i =>
    ⟨{ g.sys with cpu := iretq g.sys.mem g.sys.cpu }, Function.update g.calls i none, g.save⟩
  | .sched o => (Context.apply g.sys o).map fun sys => { g with sys, left := g.save }
  | .gc => some { g with sys := g.sys.gc, left := g.save }

/-- What may also come while a process is in a call: the creation of processes and wakeups are part
of calls, and interrupts come by themselves. -/
def anytime : Context.Op → Bool
  | .createBegin _ | .createFail _ | .createKernel _ _ _ _ _ _ _ | .createUser _ _ _ _ _ _ _
  | .wakeup _ | .timer _ _ | .exitSwitch => true
  | _ => false

/-- A new process starts with the PCB as it was left. -/
def Recycles (g : System) : Context.Op → Prop
  | .createBegin stale => ∀ i ∈ findFree g.sys.procs, stale.ctx = g.save i
  | _ => True

def Allowed (g : System) : Op → Prop
  | .enter _ _ => g.sys.cpu.cs % 4 = 3 ∧ ∃ i, g.sys.busy = some i ∧ g.calls i = none
  | .next _ => True
  | .code cpu _ =>
    flagsIf cpu.rflags = flagsIf g.sys.cpu.rflags ∧ ∃ i l, g.sys.busy = some i ∧ g.calls i = some l
  | .leave => ∃ i, g.sys.busy = some i ∧ g.calls i = some []
  | .sched o =>
    Context.Allowed g.sys o ∧ Recycles g o ∧
      (anytime o = true ∨ ∀ i, g.sys.busy = some i → g.calls i = none)
  | .gc => g.sys.exiting = false

def Step (g : System) (o : Op) (t : System) : Prop := Allowed g o ∧ apply g o = some t

/-- A process in a call runs with interrupts off, and no interrupt has stopped it. -/
structure Closed (g : System) : Prop where
  flag : ∀ i l, g.calls i = some l → g.sys.busy = some i → flagsIf g.sys.cpu.rflags = false
  parked : ∀ i l p c, g.calls i = some l → g.sys.procs i = some p → p.park ≠ .irq c

/-- No call that begins reaches `auth_hash_password`, and the timer does not come between the end of
a process and the start of the next one. -/
def Calm (g : System) : Op → Prop
  | .enter c _ => ∀ i, g.sys.busy = some i → ¬ c.Hashes i
  | .sched (.timer _ _) => g.sys.exiting = false
  | _ => True

/-! ## The invariant -/

structure GateOk (g : System) : Prop where
  flag : FlagOk (fun i => g.calls i ≠ none) g.sys
  quiet : ∀ i l, g.calls i = some l → Quiet l
  left : ∀ i, (g.left i).style = 1 → (g.left i).ran ≠ 0

namespace GateOk

variable {g t : System} {i : Nat}

theorem boot (userTrampoline : Nat) (cpu : Cpu) (mem : Mem) : GateOk (Gate.boot userTrampoline cpu mem) := by
  refine ⟨⟨⟨?_, ?_⟩, ?_, ?_, ?_⟩, ?_, ?_⟩ <;> simp [Gate.boot, Context.boot, Sys.busy, noContext]

theorem closed (h : GateOk g) : Closed g := by
  constructor
  · intro i l hl hbusy
    exact h.flag.flag i (by rw [hl]; simp) hbusy
  · intro i l p c hl hp hpark
    by_cases hbusy : g.sys.busy = some i
    · obtain ⟨q, hq, -, hrun, -⟩ := h.flag.running i hbusy
      obtain rfl : q = p := Option.some.inj (hq.symm.trans hp)
      rw [hpark] at hrun
      simp at hrun
    · obtain ⟨q, hq, -, ⟨d, hd⟩, -⟩ := h.flag.table.parked i ⟨by rw [hl]; simp, hbusy⟩
      obtain rfl : q = p := Option.some.inj (hq.symm.trans hp)
      rw [hpark] at hd
      simp at hd

theorem save (h : GateOk g) (i : Nat) : (g.save i).style = 1 → (g.save i).ran ≠ 0 := by
  unfold System.save
  cases hp : g.sys.procs i with
  | none => exact h.left i
  | some p => exact h.flag.table.style i p hp

theorem same (h : GateOk g) {sys : Sys} (hs : FlagOk (fun i => g.calls i ≠ none) sys) :
    GateOk { g with sys, left := g.save } := ⟨hs, h.quiet, h.save⟩

/-- The process of slot `i`, in a call, has `l` left of it. -/
theorem update (h : GateOk g) (hi : g.calls i ≠ none) {sys : Sys}
    (hs : FlagOk (fun k => g.calls k ≠ none) sys) {l : List IrqOp} (hl : Quiet l) :
    GateOk ⟨sys, Function.update g.calls i (some l), g.save⟩ := by
  have hcalls : (fun k => Function.update g.calls i (some l) k ≠ none) = fun k => g.calls k ≠ none := by
    funext k
    by_cases hk : k = i
    · subst hk
      simp [hi]
    · rw [Function.update_of_ne hk]
  refine ⟨by rw [hcalls]; exact hs, fun k l' hk => ?_, h.save⟩
  dsimp only at hk
  by_cases hki : k = i
  · subst hki
    rw [Function.update_self] at hk
    rwa [← Option.some.inj hk]
  · rw [Function.update_of_ne hki] at hk
    exact h.quiet k l' hk

/-- The process of slot `i` leaves its call. -/
theorem remove (h : GateOk g) {sys : Sys} (hs : FlagOk (fun k => g.calls k ≠ none ∧ k ≠ i) sys) :
    GateOk ⟨sys, Function.update g.calls i none, g.save⟩ := by
  have hcalls : (fun k => Function.update g.calls i none k ≠ none) = fun k => g.calls k ≠ none ∧ k ≠ i := by
    funext k
    by_cases hk : k = i
    · subst hk
      simp
    · rw [Function.update_of_ne hk]
      simp [hk]
  refine ⟨by rw [hcalls]; exact hs, fun k l' hk => ?_, h.save⟩
  dsimp only at hk
  by_cases hki : k = i
  · subst hki
    simp at hk
  · rw [Function.update_of_ne hki] at hk
    exact h.quiet k l' hk

theorem exiting_of_busy {s : Sys} {i : Nat} (h : s.busy = some i) : s.exiting = false ∧ s.current = some i := by
  unfold Sys.busy at h
  split at h
  · simp at h
  · next hex => exact ⟨by simpa using hex, h⟩

theorem next (h : GateOk g) {i : Nat} {k : Kernel} {o : IrqOp} {l : List IrqOp} (hbusy : g.sys.busy = some i)
    (hcall : g.calls i = some (o :: l)) (ht : Gate.next g i k o l = some t) : GateOk t := by
  have hi : g.calls i ≠ none := by rw [hcall]; simp
  obtain ⟨hex, hcur⟩ := exiting_of_busy hbusy
  have hoff := h.flag.flag i hi hbusy
  obtain ⟨hne, hnr⟩ := h.quiet i _ hcall
  have hl : Quiet l := ⟨fun hmem => hne (List.mem_cons_of_mem o hmem), fun hmem => hnr (List.mem_cons_of_mem o hmem)⟩
  have hlater : ∀ o', o' ≠ .enable → o' ≠ .restore true → ∀ {l'}, Quiet l' → Quiet (o' :: l') := by
    intro o' h1 h2 l' hl'
    exact ⟨by simp [h1.symm, hl'.1], by simp [h2.symm, hl'.2]⟩
  have hrestore : ∀ {l'}, Quiet l' → Quiet (.restore (flagsIf g.sys.cpu.rflags) :: l') :=
    hlater _ (by simp) (by rw [hoff]; simp)
  cases o with
  | disable =>
    obtain rfl := Option.some.inj ht
    have hflag : FlagOk (fun k => g.calls k ≠ none) { g.sys with cpu := g.sys.cpu.cli } :=
      ⟨h.flag.table, h.flag.index, h.flag.running, fun _ _ _ => flagsIf_cli g.sys.cpu⟩
    exact h.update hi hflag hl
  | enable => exact absurd List.mem_cons_self hne
  | restore b =>
    obtain rfl := Option.some.inj ht
    cases b with
    | true => exact absurd List.mem_cons_self hnr
    | false => exact h.update hi h.flag hl
  | yield =>
    obtain rfl := Option.some.inj ht
    exact h.update hi (h.flag.yield hex) (hrestore hl)
  | wait pid =>
    unfold Gate.next at ht
    dsimp only at ht
    split at ht
    · obtain rfl := Option.some.inj ht
      exact h.update hi (h.flag.block hex) (hrestore (hlater _ (by simp) (by simp) hl))
    · obtain rfl := Option.some.inj ht
      exact h.update hi h.flag hl
  | exit =>
    obtain ⟨sys, hsys, rfl⟩ := Option.map_eq_some_iff.mp ht
    exact h.remove (h.flag.exit hsys hex hcur)

theorem enter (h : GateOk g) {c : SysCall} {gate : Nat} {i : Nat} (hbusy : g.sys.busy = some i)
    (hquiet : Quiet (c.irqs i)) :
    GateOk ⟨int80 g.sys gate, Function.update g.calls i (some (c.irqs i)), g.save⟩ := by
  refine ⟨⟨?_, ?_, ?_, fun _ _ _ => ?_⟩, ?_, h.save⟩
  · rw [int80_procs]
    apply h.flag.table.mono
    rintro k ⟨hk, hne⟩
    rw [int80_busy] at hne
    dsimp only at hk
    have hki : k ≠ i := by
      rintro rfl
      exact hne hbusy
    rw [Function.update_of_ne hki] at hk
    exact ⟨hk, hne⟩
  · rw [int80_current, int80_currentIndex]
    exact h.flag.index
  · rw [int80_busy, int80_procs]
    exact h.flag.running
  · rw [int80_rflags]
    exact flagsIf_cli _
  · intro k l hk
    dsimp only at hk
    by_cases hki : k = i
    · subst hki
      rw [Function.update_self] at hk
      rwa [← Option.some.inj hk]
    · rw [Function.update_of_ne hki] at hk
      exact h.quiet k l hk

theorem run (h : GateOk g) (hout : ∀ i, g.sys.busy = some i → g.calls i = none) (cpu : Cpu) (mem : Mem) :
    FlagOk (fun i => g.calls i ≠ none) { g.sys with cpu, mem } :=
  ⟨h.flag.table, h.flag.index, h.flag.running, fun i hi hbusy => absurd (hout i hbusy) hi⟩

theorem sched (h : GateOk g) {o : Context.Op} {sys : Sys} (ha : Context.Allowed g.sys o)
    (hrec : Recycles g o) (hout : anytime o = true ∨ ∀ i, g.sys.busy = some i → g.calls i = none)
    (hcalm : Calm g (.sched o)) (ht : Context.apply g.sys o = some sys) :
    FlagOk (fun i => g.calls i ≠ none) sys := by
  have hidle : anytime o = false → ∀ i, g.sys.busy = some i → g.calls i = none := by
    intro hany
    rw [hany] at hout
    simpa using hout
  cases o with
  | run cpu mem =>
    obtain rfl := Option.some.inj ht
    exact h.run (hidle rfl) cpu mem
  | createBegin stale =>
    refine h.flag.createBegin ht ?_
    unfold Context.apply procCreateBegin at ht
    obtain ⟨i, hi, -⟩ := Option.bind_eq_some_iff.mp ht
    rw [hrec i hi]
    exact h.save i
  | createFail i =>
    obtain rfl := Option.some.inj ht
    obtain ⟨-, p, hp, hpark⟩ := ha
    exact h.flag.created hp hpark none (by simp) _ _
  | createKernel i stack entry argc argv cr3 args =>
    obtain ⟨p, hp, rfl⟩ := Option.map_eq_some_iff.mp ht
    obtain ⟨-, ⟨q, hq, hpark⟩, -⟩ := ha
    obtain rfl : q = p := Option.some.inj (hq.symm.trans hp)
    refine h.flag.created hp hpark (some _) ?_ _ _
    rintro r ⟨⟩ hstyle
    simp at hstyle
  | createUser i stack entry userRsp argc argv cr3 =>
    obtain ⟨p, hp, rfl⟩ := Option.map_eq_some_iff.mp ht
    obtain ⟨-, ⟨q, hq, hpark⟩, -⟩ := ha
    obtain rfl : q = p := Option.some.inj (hq.symm.trans hp)
    refine h.flag.created hp hpark (some _) ?_ _ _
    rintro r ⟨⟩ hstyle
    simp at hstyle
  | runFirst =>
    obtain rfl := Option.some.inj ht
    exact h.flag.runFirst ha.1 ha.2
  | wakeup i =>
    obtain rfl := Option.some.inj ht
    exact h.flag.wakeup i
  | yield =>
    obtain rfl := Option.some.inj ht
    exact h.flag.yield ha.1
  | block =>
    obtain rfl := Option.some.inj ht
    exact h.flag.block ha.1
  | timer scratch regs =>
    obtain rfl := Option.some.inj ht
    exact h.flag.timer hcalm ha.1 ha.2.1 scratch regs
  | exit =>
    have hcur : ∃ i, g.sys.current = some i := by
      unfold Context.apply procExit at ht
      obtain ⟨i, hi, -⟩ := Option.bind_eq_some_iff.mp ht
      exact ⟨i, hi⟩
    obtain ⟨i, hi⟩ := hcur
    have hnone := hidle rfl i (by rw [busy_of_current ha, hi])
    have hexit := h.flag.exit ht ha hi
    have hsame : (fun k => g.calls k ≠ none ∧ k ≠ i) = fun k => g.calls k ≠ none := by
      funext k
      apply propext
      refine ⟨And.left, fun hk => ⟨hk, ?_⟩⟩
      rintro rfl
      exact hk hnone
    rwa [hsame] at hexit
  | exitSwitch => exact h.flag.exitSwitch ha ht

theorem step {o : Op} (h : GateOk g) (hstep : Guarded Calm Step g o t) : GateOk t := by
  obtain ⟨hcalm, ha, ht⟩ := hstep
  cases o with
  | enter c gate =>
    obtain ⟨i, hbusy, rfl⟩ := Option.map_eq_some_iff.mp ht
    apply h.enter hbusy
    exact (irqDispatch_hashes c.m c.env i c.kernel c.nr c.a1 c.a2 c.a3 c.a4).2 (hcalm i hbusy)
  | next k =>
    obtain ⟨i, hbusy, ht⟩ := Option.bind_eq_some_iff.mp ht
    split at ht
    · next o l hcall => exact h.next hbusy hcall ht
    · simp at ht
  | code cpu mem =>
    obtain rfl := Option.some.inj ht
    refine ⟨⟨h.flag.table, h.flag.index, h.flag.running, fun i hi hbusy => ?_⟩, h.quiet, h.left⟩
    show flagsIf cpu.rflags = false
    rw [ha.1]
    exact h.flag.flag i hi hbusy
  | leave =>
    obtain ⟨i, hbusy, rfl⟩ := Option.map_eq_some_iff.mp ht
    apply h.remove
    refine ⟨?_, h.flag.index, h.flag.running, fun k hk hb => ?_⟩
    · exact h.flag.table.mono fun k hk => ⟨hk.1.1, hk.2⟩
    · exact absurd (Option.some.inj (hb.symm.trans hbusy)) hk.2
  | sched o =>
    obtain ⟨sys, hsys, rfl⟩ := Option.map_eq_some_iff.mp ht
    exact h.same (h.sched ha.1 ha.2.1 ha.2.2 hcalm hsys)
  | gc =>
    obtain rfl := Option.some.inj ht
    exact h.same h.flag.gc

end GateOk

/-! ## A call that hashes a password -/

theorem flagsIf_sti (c : Cpu) : flagsIf (sti c).rflags = true := by
  unfold sti
  by_cases h : flagsIf c.rflags = true
  · rw [if_pos h, h]
  · rw [if_neg h]
    unfold flagsIf at h ⊢
    rw [decide_eq_true_eq] at h ⊢
    dsimp only
    omega

theorem hashes_opens {g : System} {c : SysCall} {gate i : Nat} (ha : Allowed g (.enter c gate))
    (hbusy : g.sys.busy = some i) (hhash : c.Hashes i) :
    ∃ t, Run Step g [.enter c gate, .next c.kernel, .next c.kernel] t ∧ ¬ Closed t := by
  obtain ⟨rest, hrest⟩ := (irqDispatch_hashes c.m c.env i c.kernel c.nr c.a1 c.a2 c.a3 c.a4).1 hhash
  have hirqs : c.irqs i = .disable :: .enable :: rest := hrest
  obtain ⟨g₁, henter, hbusy₁, hcalls₁⟩ : ∃ g₁, Step g (.enter c gate) g₁ ∧ g₁.sys.busy = some i ∧
      g₁.calls i = some (.disable :: .enable :: rest) := by
    refine ⟨⟨int80 g.sys gate, Function.update g.calls i (some (c.irqs i)), g.save⟩, ⟨ha, ?_⟩, ?_, ?_⟩
    · simp only [apply, hbusy, Option.map_some]
    · rw [int80_busy, hbusy]
    · rw [← hirqs]
      exact Function.update_self _ _ _
  obtain ⟨g₂, hdisable, hbusy₂, hcalls₂⟩ : ∃ g₂, Step g₁ (.next c.kernel) g₂ ∧ g₂.sys.busy = some i ∧
      g₂.calls i = some (.enable :: rest) := by
    refine ⟨⟨{ g₁.sys with cpu := g₁.sys.cpu.cli }, Function.update g₁.calls i (some (.enable :: rest)),
      g₁.save⟩, ⟨trivial, ?_⟩, hbusy₁, Function.update_self _ _ _⟩
    simp only [apply, hbusy₁, Option.bind_eq_bind, Option.bind_some, hcalls₁]
    rfl
  obtain ⟨g₃, henable, hbusy₃, hcalls₃, hon⟩ : ∃ g₃, Step g₂ (.next c.kernel) g₃ ∧
      g₃.sys.busy = some i ∧ g₃.calls i = some rest ∧ flagsIf g₃.sys.cpu.rflags = true := by
    refine ⟨⟨{ g₂.sys with cpu := sti g₂.sys.cpu }, Function.update g₂.calls i (some rest), g₂.save⟩,
      ⟨trivial, ?_⟩, hbusy₂, Function.update_self _ _ _, flagsIf_sti _⟩
    simp only [apply, hbusy₂, Option.bind_eq_bind, Option.bind_some, hcalls₂]
    rfl
  refine ⟨g₃, .cons henter (.cons hdisable (.single henable)), fun hclosed => ?_⟩
  have hoff := hclosed.flag i rest hcalls₃ hbusy₃
  rw [hon] at hoff
  simp at hoff

/-- In a run of calm steps no interrupt stops a call, and in a call that is not calm interrupts are on. -/
theorem gate_closed (userTrampoline : Nat) (cpu : Cpu) (mem : Mem) {ops : List Op} {g : System}
    (h : Run (Guarded Calm Step) (boot userTrampoline cpu mem) ops g) :
    Closed g ∧ ∀ c gate, Allowed g (.enter c gate) → ¬ Calm g (.enter c gate) →
      ∃ ops' t, Run Step g (.enter c gate :: ops') t ∧ ¬ Closed t := by
  have hok : GateOk g := h.invariant (fun _ _ _ hi hstep => hi.step hstep) (GateOk.boot _ _ _)
  refine ⟨hok.closed, fun c gate ha hnot => ?_⟩
  unfold Calm at hnot
  simp only [not_forall, not_not] at hnot
  obtain ⟨i, hbusy, hhash⟩ := hnot
  obtain ⟨t, ht, hopen⟩ := hashes_opens ha hbusy hhash
  exact ⟨_, t, ht, hopen⟩

/-! ## Runs of two processes -/

def after (g : System) (o : Op) : System := (apply g o).getD g

theorem step_after {g : System} {o : Op} (ha : Allowed g o) (hs : (apply g o).isSome = true) :
    Step g o (after g o) := by
  obtain ⟨t, ht⟩ := Option.isSome_iff_exists.mp hs
  exact ⟨ha, by rw [after, ht]; rfl⟩

/-- A kernel process in slot 0 and a process of ring 3 in slot 1, which runs after a `sched_yield`. -/
def startOps : List Op :=
  [.sched (.createBegin emptySlot), .sched (.createKernel 0 0x10000 0x500 0 0 0 fun _ => 0),
    .sched (.createBegin emptySlot), .sched (.createUser 1 0x20000 0x600 0x9000 0 0 0), .sched .runFirst,
    .sched .yield]

def idle : System := boot 0x700 ⟨noGprs, 0, 0, 0, 8, 16, 0x1000⟩ fun _ => 0

def ring3 : System := startOps.foldl after idle

theorem run_ring3 : Run (Guarded Calm Step) idle startOps ring3 := by
  refine .cons ⟨trivial, step_after ⟨rfl, ?_, Or.inl rfl⟩ (by decide +kernel)⟩ (.cons ⟨trivial, step_after
    ⟨⟨rfl, ?_, freshStack_oneBegun, by decide +kernel⟩, trivial, Or.inl rfl⟩ (by decide +kernel)⟩ (.cons
    ⟨trivial, step_after ⟨rfl, ?_, Or.inl rfl⟩ (by decide +kernel)⟩ (.cons ⟨trivial, step_after
    ⟨⟨rfl, ?_, freshStack_twoBegun⟩, trivial, Or.inl rfl⟩ (by decide +kernel)⟩ (.cons ⟨trivial, step_after
    ⟨⟨rfl, rfl⟩, trivial, Or.inr fun _ _ => rfl⟩ rfl⟩ (.cons ⟨trivial, step_after
    ⟨⟨rfl, ?_⟩, trivial, Or.inr fun _ _ => rfl⟩ rfl⟩ (.nil _))))))
  · show ∀ i ∈ findFree idle.sys.procs, emptySlot.ctx = idle.save i
    decide +kernel
  · exact ⟨_, rfl, rfl⟩
  · let g := (startOps.take 2).foldl after idle
    show ∀ i ∈ findFree g.sys.procs, emptySlot.ctx = g.save i
    decide +kernel
  · exact ⟨_, rfl, rfl⟩
  · show OnOwnStack _
    decide +kernel

/-- The process of ring 3 asks for its number. -/
def getpid : SysCall := ⟨Session.smallMachine, Session.callEnv [] 0, Session.sessionStart.kernel, 10, 0, 0, 0, 0⟩

/-- It makes the first account instead. -/
def firstAccount : SysCall :=
  ⟨Session.smallMachine, Session.callEnv [(0x200000000000, ascii "bob"), (0x200000000100, ascii "senha")] 0,
    Session.sessionStart.kernel, 18, 0x200000000000, 0x200000000100, 0, 0⟩

theorem enter_ring3 (c : SysCall) : Allowed ring3 (.enter c 0x800) := by
  refine ⟨by decide +kernel, 1, by decide +kernel, by decide +kernel⟩

/-- While the process asks for its number, interrupts are off. -/
theorem gate_closed_getpid :
    Closed (after ring3 (.enter getpid 0x800)) := by
  refine (gate_closed 0x700 ⟨noGprs, 0, 0, 0, 8, 16, 0x1000⟩ (fun _ => 0)
    (run_ring3.append (.single ⟨?_, step_after (enter_ring3 getpid) (by decide +kernel)⟩))).1
  rintro i - ⟨-, hargs⟩
  exact hargs

/-- The first account is made with interrupts on. -/
theorem account_opens_gate :
    ¬ ∀ (userTrampoline : Nat) (cpu : Cpu) (mem : Mem) (ops : List Op) (g : System),
      Run Step (boot userTrampoline cpu mem) ops g → Closed g := by
  intro h
  have hhash : firstAccount.Hashes 1 := by
    refine ⟨by decide +kernel, by decide +kernel, ascii "bob", ?_, ascii "senha", ?_, by decide, by decide⟩
    · decide +kernel
    · decide +kernel
  obtain ⟨t, ht, hopen⟩ := hashes_opens (enter_ring3 firstAccount) (by decide +kernel : ring3.sys.busy = some 1) hhash
  exact hopen (h _ _ _ _ t (run_ring3.unguard.append ht))

end Siathos.Gate
