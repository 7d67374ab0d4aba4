import Siathos.Proc.Wait

/-!
# What parents hear of their children

A parent has one slot for the end of a child. It hears of each child, once, as long as no second end
meets a full slot and no entry is collected before its parent has heard.
-/

open Lib

namespace Siathos.Proc.Wait

/-- What `SYS_WAITPID` returned to the parent for this child, the oldest first. -/
def Sys.results (s : Sys) (p c : Nat) : List (BitVec 64) :=
  (s.returned.filter fun e => e.1 = p ∧ e.2.1 = c).map (·.2.2)

def Exited (s : Sys) (c : Nat) : Prop := ∃ code, (c, code) ∈ s.exited

def Live (p : Pcb) : Prop := p.present = true ∧ p.state ≠ .terminated

/-- The first call returned what the child passed to `SYS_EXIT`, the later ones an error. -/
def CodeOnce (s : Sys) (p c : Nat) : Prop :=
  match s.results p c with
  | [] => True
  | r :: rest => (c, r) ∈ s.exited ∧ ∀ r' ∈ rest, r' = err

instance (s : Sys) (p c : Nat) : Decidable (CodeOnce s p c) := by
  unfold CodeOnce
  split <;> infer_instance

/-- Parents get the codes of their children once, none sleeps on a child that has ended, and no absent
entry is read. -/
structure Answered (s : Sys) : Prop where
  codes : ∀ p c, (p, c) ∈ s.children → CodeOnce s p c
  awake : ∀ i c, Live (s.procs i) → (s.procs i).wait = some c → Exited s c → (s.procs i).state ≠ .blocked
  noFault : s.fault = false

/-- The parent of this process has not left its code unheard, unless it is about to hear it. -/
def Heard (s : Sys) (i : Nat) : Prop :=
  ∀ j ∈ procGet s (s.procs i).parent, (s.procs j).state ≠ .terminated →
    (s.procs j).waitPid = (s.procs i).pid → (s.procs j).wait = some (s.procs i).pid

/-- `SYS_WAITPID` can return this code: it gives every `int` below zero as the error. -/
def Fits (code : BitVec 64) : Prop := code.toNat < 2 ^ 31 ∨ code = err

instance (code : BitVec 64) : Decidable (Fits code) := inferInstanceAs (Decidable (_ ∨ _))

/-- A process ends with a code that fits, into an empty slot of its parent; and an entry goes to
the collector, or to a new process, only when its parent has heard. -/
def Timely (s : Sys) : Op → Prop
  | .exit cur code => Fits code ∧
    ∀ j ∈ procGet s (s.procs cur).parent, (s.procs j).state ≠ .terminated → (s.procs j).waitPid = 0
  | .gc => ∀ i < maxProcs, (s.procs i).present = true → (s.procs i).state = .terminated → Heard s i
  | .create _ _ _ => ∀ i ∈ findFree s, (s.procs i).present = true → Heard s i
  | _ => True

instance (s : Sys) (i : Nat) : Decidable (Heard s i) := by
  unfold Heard
  infer_instance

instance (s : Sys) : (o : Op) → Decidable (Timely s o)
  | .exit .. => inferInstanceAs (Decidable (_ ∧ ∀ _ ∈ _, _))
  | .gc => inferInstanceAs (Decidable (∀ i < maxProcs, _ → _ → Heard s i))
  | .create .. => inferInstanceAs (Decidable (∀ i ∈ _, _ → Heard s i))
  | .message _ | .block _ | .waitpid .. | .resume .. => isTrue trivial

/-! ## Slots -/

@[simp] theorem Sys.set_same (s : Sys) (i : Nat) (p : Pcb) : (s.set i p).procs i = p := if_pos rfl

theorem Sys.set_other {s : Sys} {i j : Nat} (p : Pcb) (h : j ≠ i) : (s.set i p).procs j = s.procs j := if_neg h

theorem procGet_some {s : Sys} {pid j : Nat} (h : procGet s pid = some j) :
    j < maxProcs ∧ (s.procs j).present = true ∧ (s.procs j).pid = pid := by
  unfold procGet at h
  have hmem := List.mem_range.mp (List.mem_of_find?_eq_some h)
  have hp := List.find?_some h
  simp only [Bool.and_eq_true, decide_eq_true_eq] at hp
  exact ⟨hmem, hp⟩

theorem procGet_none {s : Sys} {pid i : Nat} (h : procGet s pid = none) (hi : i < maxProcs)
    (hpresent : (s.procs i).present = true) : (s.procs i).pid ≠ pid := by
  unfold procGet at h
  have := List.find?_eq_none.mp h i (List.mem_range.mpr hi)
  simpa [hpresent] using this

theorem findFree_some {s : Sys} {j : Nat} (h : findFree s = some j) :
    j < maxProcs ∧ ((s.procs j).present = true → (s.procs j).state = .terminated) := by
  unfold findFree at h
  have hmem := List.mem_range.mp (List.mem_of_find?_eq_some h)
  have hp := List.find?_some h
  refine ⟨hmem, fun hpresent => ?_⟩
  simpa [hpresent] using hp

theorem wake_state (p : Pcb) : (wake p).state = .terminated ↔ p.state = .terminated := by
  unfold wake
  split
  · simp_all
  · rfl

theorem wake_not_blocked (p : Pcb) : (wake p).state ≠ .blocked := by
  unfold wake
  split
  · simp
  · assumption

theorem wake_eq (p : Pcb) : wake p = { p with state := (wake p).state } := by
  unfold wake
  split <;> rfl

/-! ## The invariant -/

structure Inv (s : Sys) : Prop where
  noFault : s.fault = false
  positive : 0 < s.nextPid
  unique : ∀ i j, (s.procs i).present = true → (s.procs j).present = true → (s.procs i).pid = (s.procs j).pid → i = j
  bound : ∀ i, (s.procs i).present = true → i < maxProcs
  numbered : ∀ i, (s.procs i).present = true → 0 < (s.procs i).pid ∧ (s.procs i).pid < s.nextPid
  older : ∀ p c, (p, c) ∈ s.children → p < c ∧ c < s.nextPid
  parent : ∀ p c i, (p, c) ∈ s.children → (s.procs i).present = true → (s.procs i).pid = c → (s.procs i).parent = p
  born : ∀ i, (s.procs i).present = true → (s.procs i).parent ≠ 0 →
    ((s.procs i).parent, (s.procs i).pid) ∈ s.children
  code : ∀ c code, (c, code) ∈ s.exited → c < s.nextPid ∧ Fits code ∧
    ∀ code', (c, code') ∈ s.exited → code = code'
  dead : ∀ i, (s.procs i).present = true → ((s.procs i).state = .terminated ↔ Exited s (s.procs i).pid)
  kept : ∀ p c, (p, c) ∈ s.children → ¬ Exited s c → ∃ i, (s.procs i).present = true ∧ (s.procs i).pid = c
  result : ∀ p c, s.results p c ≠ [] → Exited s c
  slot : ∀ i c code, Live (s.procs i) → ((s.procs i).pid, c) ∈ s.children → (c, code) ∈ s.exited →
    s.results (s.procs i).pid c = [] → (s.procs i).waitPid = c ∧ (s.procs i).waitCode = code.setWidth 32
  free : ∀ i, Live (s.procs i) → (s.procs i).waitPid ≠ 0 →
    ((s.procs i).pid, (s.procs i).waitPid) ∈ s.children ∧ Exited s (s.procs i).waitPid ∧
      s.results (s.procs i).pid (s.procs i).waitPid = []
  reach : ∀ i c, Live (s.procs i) → ((s.procs i).pid, c) ∈ s.children → Exited s c →
    s.results (s.procs i).pid c = [] →
      (∃ j, (s.procs j).present = true ∧ (s.procs j).pid = c) ∨ (s.procs i).wait = some c
  waits : ∀ i c, Live (s.procs i) → (s.procs i).wait = some c →
    ((s.procs i).pid, c) ∈ s.children ∧ s.results (s.procs i).pid c = [] ∧
      (Exited s c → (s.procs i).state ≠ .blocked)
  codes : ∀ p c, (p, c) ∈ s.children → CodeOnce s p c

/-- The part about numbers and parents. -/
structure Census (s : Sys) : Prop where
  positive : 0 < s.nextPid
  unique : ∀ i j, (s.procs i).present = true → (s.procs j).present = true → (s.procs i).pid = (s.procs j).pid → i = j
  bound : ∀ i, (s.procs i).present = true → i < maxProcs
  numbered : ∀ i, (s.procs i).present = true → 0 < (s.procs i).pid ∧ (s.procs i).pid < s.nextPid
  older : ∀ p c, (p, c) ∈ s.children → p < c ∧ c < s.nextPid
  parent : ∀ p c i, (p, c) ∈ s.children → (s.procs i).present = true → (s.procs i).pid = c → (s.procs i).parent = p
  born : ∀ i, (s.procs i).present = true → (s.procs i).parent ≠ 0 →
    ((s.procs i).parent, (s.procs i).pid) ∈ s.children

theorem Inv.census {s : Sys} (h : Inv s) : Census s := { h with }

theorem Census.keep {s t : Sys} (h : Census s)
    (hentry : ∀ i, (t.procs i).present = true → (s.procs i).present = true ∧ (t.procs i).pid = (s.procs i).pid ∧
      (t.procs i).parent = (s.procs i).parent)
    (hchildren : t.children = s.children) (hnext : t.nextPid = s.nextPid) : Census t := by
  refine ⟨?_, ?_, ?_, ?_, ?_, ?_, ?_⟩
  · rw [hnext]
    exact h.positive
  · intro i j hi hj heq
    obtain ⟨hi, hpi, -⟩ := hentry i hi
    obtain ⟨hj, hpj, -⟩ := hentry j hj
    rw [hpi, hpj] at heq
    exact h.unique i j hi hj heq
  · intro i hi
    exact h.bound i (hentry i hi).1
  · intro i hi
    obtain ⟨hi, hpid, -⟩ := hentry i hi
    rw [hpid, hnext]
    exact h.numbered i hi
  · rw [hchildren, hnext]
    exact h.older
  · intro p c i hmem hi hic
    obtain ⟨hi, hpid, hparent⟩ := hentry i hi
    rw [hchildren] at hmem
    rw [hpid] at hic
    rw [hparent]
    exact h.parent p c i hmem hi hic
  · intro i hi hne
    obtain ⟨hi, hpid, hparent⟩ := hentry i hi
    rw [hparent] at hne ⊢
    rw [hpid, hchildren]
    exact h.born i hi hne

theorem Inv.answered {s : Sys} (h : Inv s) : Answered s where
  codes := h.codes
  awake i c hlive hwait := (h.waits i c hlive hwait).2.2
  noFault := h.noFault

theorem inv_boot : Inv boot := by
  have hproc : ∀ i, (boot.procs i).present = true → i = 0 := by
    intro i hi
    by_contra hne
    simp [boot, hne, emptySlot] at hi
  have hwait : ∀ i, (boot.procs i).wait = none ∧ (boot.procs i).waitPid = 0 := by
    intro i
    unfold boot
    dsimp only
    split <;> exact ⟨rfl, rfl⟩
  refine ⟨rfl, by decide, ?_, ?_, ?_, ?_, ?_, ?_, ?_, ?_, ?_, ?_, ?_, ?_, ?_, ?_, ?_⟩
  · intro i j hi hj _
    rw [hproc i hi, hproc j hj]
  · intro i hi
    rw [hproc i hi]
    decide
  · intro i hi
    rw [hproc i hi]
    decide
  · rintro p c ⟨⟩
  · rintro p c i ⟨⟩
  · intro i hi hparent
    rw [hproc i hi] at hparent
    exact absurd rfl hparent
  · rintro c code ⟨⟩
  · intro i hi
    rw [hproc i hi]
    refine iff_of_false (by decide) ?_
    rintro ⟨code, ⟨⟩⟩
  · rintro p c ⟨⟩
  · intro p c hne
    exact absurd rfl hne
  · rintro i c code - ⟨⟩
  · intro i _ hne
    exact absurd (hwait i).2 hne
  · rintro i c - ⟨⟩
  · intro i c _ hsome
    rw [(hwait i).1] at hsome
    cases hsome
  · rintro p c ⟨⟩

/-! ## Steps that keep the table -/

/-- The two entries differ at most in how they are scheduled. -/
structure Similar (p q : Pcb) : Prop where
  present : p.present = q.present
  pid : p.pid = q.pid
  parent : p.parent = q.parent
  waitPid : p.waitPid = q.waitPid
  waitCode : p.waitCode = q.waitCode
  ended : p.state = .terminated ↔ q.state = .terminated

theorem Similar.refl (p : Pcb) : Similar p p := ⟨rfl, rfl, rfl, rfl, rfl, Iff.rfl⟩

theorem Similar.live {p q : Pcb} (h : Similar p q) (hlive : Live p) : Live q :=
  ⟨h.present ▸ hlive.1, fun hend => hlive.2 (h.ended.mpr hend)⟩

theorem Inv.set_similar {s : Sys} {i : Nat} {p : Pcb} (h : Inv s) (hp : Similar p (s.procs i))
    (hkeep : ∀ c, (s.procs i).wait = some c → p.wait = some c)
    (hwaits : ∀ c, Live p → p.wait = some c →
      (p.pid, c) ∈ s.children ∧ s.results p.pid c = [] ∧ (Exited s c → p.state ≠ .blocked)) :
    Inv (s.set i p) := by
  have hsim : ∀ j, Similar ((s.set i p).procs j) (s.procs j) := by
    intro j
    rcases eq_or_ne j i with rfl | hne
    · rwa [Sys.set_same]
    · rw [Sys.set_other p hne]
      exact Similar.refl _
  have hwait : ∀ (j : Nat) (c : Nat), (s.procs j).wait = some c → ((s.set i p).procs j).wait = some c := by
    intro j c hsome
    rcases eq_or_ne j i with rfl | hne
    · rw [Sys.set_same]
      exact hkeep c hsome
    · rwa [Sys.set_other p hne]
  have hcensus : Census (s.set i p) :=
    h.census.keep (fun j hj => ⟨(hsim j).present ▸ hj, (hsim j).pid, (hsim j).parent⟩) rfl rfl
  refine { hcensus with
    noFault := h.noFault, code := h.code, dead := ?_, kept := ?_, result := h.result, slot := ?_, free :=
      ?_, reach := ?_
    waits := ?_, codes := h.codes }
  · intro j hj
    rw [(hsim j).present] at hj
    rw [(hsim j).ended, (hsim j).pid]
    exact h.dead j hj
  · intro a c hmem hex
    obtain ⟨j, hj, hpid⟩ := h.kept a c hmem hex
    exact ⟨j, by rwa [(hsim j).present], by rwa [(hsim j).pid]⟩
  · intro j c code hlive hmem hex hres
    rw [(hsim j).pid] at hmem hres
    rw [(hsim j).waitPid, (hsim j).waitCode]
    exact h.slot j c code ((hsim j).live hlive) hmem hex hres
  · intro j hlive hne
    rw [(hsim j).waitPid] at hne ⊢
    rw [(hsim j).pid]
    exact h.free j ((hsim j).live hlive) hne
  · intro j c hlive hmem hex hres
    rw [(hsim j).pid] at hmem hres
    rcases h.reach j c ((hsim j).live hlive) hmem hex hres with ⟨k, hk, hpid⟩ | hsome
    · exact .inl ⟨k, by rwa [(hsim k).present], by rwa [(hsim k).pid]⟩
    · exact .inr (hwait j c hsome)
  · intro j c hlive hsome
    rcases eq_or_ne j i with rfl | hne
    · rw [Sys.set_same] at hlive hsome ⊢
      exact hwaits c hlive hsome
    · rw [Sys.set_other p hne] at hlive hsome ⊢
      exact h.waits j c hlive hsome

theorem similar_wake (p : Pcb) : Similar (wake p) p := by
  rw [wake_eq]
  exact ⟨rfl, rfl, rfl, rfl, rfl, wake_state p⟩

theorem inv_message {s : Sys} (h : Inv s) (pid : Nat) : Inv (schedWakeup pid s) := by
  unfold schedWakeup
  cases procGet s pid with
  | none => exact h
  | some j =>
    have hwait : (wake (s.procs j)).wait = (s.procs j).wait := by rw [wake_eq]
    refine h.set_similar (similar_wake _) (fun c hsome => hwait ▸ hsome) fun c hlive hsome => ?_
    rw [hwait] at hsome
    obtain ⟨hmem, hres, -⟩ := h.waits j c ((similar_wake _).live hlive) hsome
    rw [(similar_wake _).pid]
    exact ⟨hmem, hres, fun _ => wake_not_blocked _⟩

theorem inv_block {s : Sys} {cur : Nat} (h : Inv s) (hrun : Runnable (s.procs cur))
    (hnone : (s.procs cur).wait = none) : Inv (s.set cur { s.procs cur with state := .blocked }) := by
  refine h.set_similar ⟨rfl, rfl, rfl, rfl, rfl, ?_⟩ (fun c hsome => hsome) fun c _ hsome => ?_
  · simp [hrun.2]
  · change (s.procs cur).wait = some c at hsome
    rw [hnone] at hsome
    cases hsome

theorem Runnable.live {p : Pcb} (h : Runnable p) : Live p := ⟨h.1, by simp [h.2]⟩

/-! ## Returning from `proc_waitpid` -/

theorem results_leave_same {s : Sys} {cur pid waitPid : Nat} {r : BitVec 64}
    (h : ((s.procs cur).pid, pid) ∈ s.children) :
    (leave cur pid waitPid r s).results (s.procs cur).pid pid = s.results (s.procs cur).pid pid ++ [r] := by
  simp [Sys.results, leave, h]

theorem results_leave_other {s : Sys} {cur pid waitPid p c : Nat} {r : BitVec 64}
    (h : ((s.procs cur).pid, pid) ∉ s.children ∨ ((s.procs cur).pid, pid) ≠ (p, c)) :
    (leave cur pid waitPid r s).results p c = s.results p c := by
  by_cases hmem : ((s.procs cur).pid, pid) ∈ s.children
  · have hne : ¬ ((s.procs cur).pid = p ∧ pid = c) := by
      rintro ⟨rfl, rfl⟩
      rcases h with h | h
      · exact h hmem
      · exact h rfl
    simp [Sys.results, leave, hmem, hne]
  · simp [Sys.results, leave, hmem]

theorem results_leave_nil {s : Sys} {cur pid waitPid p c : Nat} {r : BitVec 64}
    (h : (leave cur pid waitPid r s).results p c = []) :
    s.results p c = [] ∧ (((s.procs cur).pid, pid) ∈ s.children → ((s.procs cur).pid, pid) ≠ (p, c)) := by
  by_cases heq : ((s.procs cur).pid, pid) ∈ s.children ∧ ((s.procs cur).pid, pid) = (p, c)
  · obtain ⟨hmem, heq⟩ := heq
    cases heq
    rw [results_leave_same hmem] at h
    simp at h
  · have hother : ((s.procs cur).pid, pid) ∉ s.children ∨ ((s.procs cur).pid, pid) ≠ (p, c) := by tauto
    rw [results_leave_other hother] at h
    exact ⟨h, fun hmem heq' => heq ⟨hmem, heq'⟩⟩

theorem CodeOnce.leave {s : Sys} {cur pid waitPid : Nat} {r : BitVec 64} {p c : Nat} (h : CodeOnce s p c)
    (hfirst : ((s.procs cur).pid, pid) ∈ s.children →
      s.results (s.procs cur).pid pid = [] ∧ (pid, r) ∈ s.exited ∨ s.results (s.procs cur).pid pid ≠ [] ∧ r = err) :
    CodeOnce (leave cur pid waitPid r s) p c := by
  by_cases heq : ((s.procs cur).pid, pid) ∈ s.children ∧ ((s.procs cur).pid, pid) = (p, c)
  · obtain ⟨hmem, heq⟩ := heq
    cases heq
    unfold CodeOnce at h ⊢
    rw [results_leave_same hmem]
    cases hres : s.results (s.procs cur).pid pid with
    | nil =>
      rcases hfirst hmem with ⟨-, hex⟩ | ⟨hne, -⟩
      · exact ⟨hex, by simp⟩
      · exact absurd hres hne
    | cons r0 rest =>
      rw [hres] at h
      rcases hfirst hmem with ⟨hnil, -⟩ | ⟨-, rfl⟩
      · rw [hres] at hnil
        cases hnil
      · refine ⟨h.1, fun r' hr' => ?_⟩
        rcases List.mem_append.mp hr' with hr' | hr'
        · exact h.2 r' hr'
        · exact List.mem_singleton.mp hr'
  · have hother : ((s.procs cur).pid, pid) ∉ s.children ∨ ((s.procs cur).pid, pid) ≠ (p, c) := by tauto
    unfold CodeOnce at h ⊢
    rw [results_leave_other hother]
    exact h

theorem leave_entry (s : Sys) (cur pid waitPid : Nat) (r : BitVec 64) (j : Nat) :
    ((leave cur pid waitPid r s).procs j).present = (s.procs j).present ∧
      ((leave cur pid waitPid r s).procs j).pid = (s.procs j).pid ∧
      ((leave cur pid waitPid r s).procs j).parent = (s.procs j).parent ∧
      ((leave cur pid waitPid r s).procs j).state = (s.procs j).state := by
  unfold leave Sys.set
  dsimp only
  split
  · rename_i heq
    subst heq
    exact ⟨rfl, rfl, rfl, rfl⟩
  · exact ⟨rfl, rfl, rfl, rfl⟩

theorem Inv.leave {s : Sys} {cur pid waitPid : Nat} {r : BitVec 64} (h : Inv s)
    (hpresent : (s.procs cur).present = true)
    (hwait : ∀ c, (s.procs cur).wait = some c → c = pid ∧ ((s.procs cur).pid, pid) ∈ s.children)
    (hfirst : ((s.procs cur).pid, pid) ∈ s.children → Exited s pid ∧
      (s.results (s.procs cur).pid pid = [] ∧ (pid, r) ∈ s.exited ∨ s.results (s.procs cur).pid pid ≠ [] ∧ r = err))
    (hslot : waitPid = 0 ∧ (s.procs cur).waitPid = pid ∧ ((s.procs cur).pid, pid) ∈ s.children ∨
      waitPid = (s.procs cur).waitPid ∧
        (((s.procs cur).pid, pid) ∈ s.children → s.results (s.procs cur).pid pid ≠ [])) :
    Inv (leave cur pid waitPid r s) := by
  have hsame := leave_entry s cur pid waitPid r
  have hother : ∀ j, j ≠ cur → (Wait.leave cur pid waitPid r s).procs j = s.procs j := fun j hne => if_neg hne
  have hcur : (Wait.leave cur pid waitPid r s).procs cur = { s.procs cur with waitPid, wait := none } := if_pos rfl
  have hlive : ∀ j, Live ((Wait.leave cur pid waitPid r s).procs j) → Live (s.procs j) := by
    rintro j ⟨hp, hst⟩
    rw [(hsame j).1] at hp
    rw [(hsame j).2.2.2] at hst
    exact ⟨hp, hst⟩
  have hpids : ∀ j, j ≠ cur → (s.procs j).present = true → (s.procs cur).pid ≠ (s.procs j).pid :=
    fun j hne hj heq => hne (h.unique cur j hpresent hj heq).symm
  have hcensus : Census (Wait.leave cur pid waitPid r s) :=
    h.census.keep (fun j hj => ⟨(hsame j).1 ▸ hj, (hsame j).2.1, (hsame j).2.2.1⟩) rfl rfl
  refine { hcensus with
    noFault := h.noFault, code := h.code, dead := ?_, kept := ?_, result := ?_, slot := ?_, free := ?_, reach := ?_
    waits := ?_, codes := ?_ }
  · intro j hj
    rw [(hsame j).1] at hj
    rw [(hsame j).2.2.2, (hsame j).2.1]
    exact h.dead j hj
  · intro a c hmem hex
    obtain ⟨j, hj, hpid⟩ := h.kept a c hmem hex
    exact ⟨j, by rwa [(hsame j).1], by rwa [(hsame j).2.1]⟩
  · intro p c hne
    by_cases heq : ((s.procs cur).pid, pid) ∈ s.children ∧ ((s.procs cur).pid, pid) = (p, c)
    · obtain ⟨hmem, heq⟩ := heq
      cases heq
      exact (hfirst hmem).1
    · rw [results_leave_other (by tauto)] at hne
      exact h.result p c hne
  · intro j c code hl hmem hex hres
    rw [(hsame j).2.1] at hmem hres
    obtain ⟨hnil, hne⟩ := results_leave_nil hres
    have hold := h.slot j c code (hlive j hl) hmem hex hnil
    rcases eq_or_ne j cur with rfl | hj
    · rw [hcur]
      rcases hslot with ⟨-, hpid, hchild⟩ | ⟨rfl, -⟩
      · exact absurd (by rw [← hold.1, hpid]) (hne hchild)
      · exact hold
    · rwa [hother j hj]
  · intro j hl hne
    rcases eq_or_ne j cur with rfl | hj
    · rw [hcur] at hne ⊢
      rcases hslot with ⟨rfl, -, -⟩ | ⟨rfl, hres⟩
      · exact absurd rfl hne
      · obtain ⟨hmem, hex, hnil⟩ := h.free j (hlive j hl) hne
        refine ⟨hmem, hex, ?_⟩
        refine (results_leave_other (.inr fun heq => ?_)).trans hnil
        have heq' : pid = (s.procs j).waitPid := congrArg Prod.snd heq
        rw [← heq'] at hmem hnil
        exact hres hmem hnil
    · rw [hother j hj] at hne ⊢
      obtain ⟨hmem, hex, hnil⟩ := h.free j (hlive j hl) hne
      refine ⟨hmem, hex, (results_leave_other (.inr fun heq => ?_)).trans hnil⟩
      exact hpids j hj (hlive j hl).1 (congrArg Prod.fst heq)
  · intro j c hl hmem hex hres
    rw [(hsame j).2.1] at hmem hres
    obtain ⟨hnil, hne⟩ := results_leave_nil hres
    rcases h.reach j c (hlive j hl) hmem hex hnil with ⟨k, hk, hpid⟩ | hsome
    · exact .inl ⟨k, by rwa [(hsame k).1], by rwa [(hsame k).2.1]⟩
    · rcases eq_or_ne j cur with rfl | hj
      · obtain ⟨rfl, hchild⟩ := hwait c hsome
        exact absurd rfl (hne hchild)
      · exact .inr (by rwa [hother j hj])
  · intro j c hl hsome
    rcases eq_or_ne j cur with rfl | hj
    · rw [hcur] at hsome
      cases hsome
    · rw [hother j hj] at hl hsome ⊢
      obtain ⟨hmem, hnil, hst⟩ := h.waits j c hl hsome
      refine ⟨hmem, (results_leave_other (.inr fun heq => ?_)).trans hnil, hst⟩
      exact hpids j hj hl.1 (congrArg Prod.fst heq)
  · intro p c hmem
    exact (h.codes p c hmem).leave fun hchild => (hfirst hchild).2

/-! ## `proc_waitpid` -/

theorem waitResult_code {code : BitVec 64} (h : Fits code) : waitResult (code.setWidth 32) = code := by
  rcases h with hsmall | rfl
  · have hmsb : (code.setWidth 32).msb = false := by
      rw [BitVec.msb_eq_false_iff_two_mul_lt, BitVec.toNat_setWidth]
      omega
    unfold waitResult
    rw [hmsb]
    apply BitVec.eq_of_toNat_eq
    simp
    omega
  · decide

theorem Inv.unheard {s : Sys} {i c : Nat} (h : Inv s) (hlive : Live (s.procs i))
    (hmem : ((s.procs i).pid, c) ∈ s.children) (hres : s.results (s.procs i).pid c = [])
    (hne : (s.procs i).waitPid ≠ c) : ¬ Exited s c := by
  rintro ⟨code, hex⟩
  exact hne (h.slot i c code hlive hmem hex hres).1

theorem inv_waitTurn {s : Sys} {cur pid : Nat} {alone : Bool} (h : Inv s) (hrun : Runnable (s.procs cur))
    (hmem : ((s.procs cur).pid, pid) ∈ s.children)
    (hnone : procGet s pid = none → s.results (s.procs cur).pid pid = [])
    (hwait : ∀ c, (s.procs cur).wait = some c → c = pid) :
    Inv (waitTurn cur pid (procGet s pid) alone s) := by
  have hlive := hrun.live
  have hpos := h.older _ _ hmem
  unfold waitTurn
  dsimp only
  split
  · rename_i hslot
    obtain ⟨-, ⟨code, hex⟩, hnil⟩ := h.free cur hlive (by omega)
    rw [hslot] at hex hnil
    have hcode := (h.slot cur pid code hlive hmem hex hnil).2
    rw [hcode, waitResult_code (h.code pid code hex).2.1]
    exact h.leave hrun.1 (fun c hc => ⟨hwait c hc, hmem⟩) (fun _ => ⟨⟨code, hex⟩, .inl ⟨hnil, hex⟩⟩)
      (.inl ⟨rfl, hslot, hmem⟩)
  · rename_i hslot
    cases hkid : procGet s pid with
    | none =>
      -- neither collected, for then the slot were full, nor still in the table
      have hex := h.unheard hlive hmem (hnone hkid) hslot
      obtain ⟨k, hk, hpid⟩ := h.kept _ _ hmem hex
      exact absurd hpid (procGet_none hkid (h.bound k hk) hk)
    | some j =>
      obtain ⟨-, hj, hjpid⟩ := procGet_some hkid
      have hdead := h.dead j hj
      rw [hjpid] at hdead
      dsimp only
      split
      · rename_i hend
        have hex : Exited s pid := hdead.mp (by simpa [hj] using hend)
        have hres : s.results (s.procs cur).pid pid ≠ [] := fun hnil => h.unheard hlive hmem hnil hslot hex
        exact h.leave hrun.1 (fun c hc => ⟨hwait c hc, hmem⟩) (fun _ => ⟨hex, .inr ⟨hres, rfl⟩⟩)
          (.inr ⟨rfl, fun _ => hres⟩)
      · rename_i hend
        have hex : ¬ Exited s pid := fun hex => hend (by simp [hdead.mpr hex])
        refine h.set_similar ⟨rfl, rfl, rfl, rfl, rfl, ?_⟩ (fun c hc => by rw [hwait c hc]) fun c _ hc => ?_
        · cases alone <;> simp [hrun.2]
        · obtain rfl := Option.some.inj hc
          exact ⟨hmem, of_not_not fun hne => hex (h.result _ _ hne), fun hex' => absurd hex' hex⟩

theorem inv_waitpid {s : Sys} {cur : Nat} {a1 : BitVec 64} {alone : Bool} (h : Inv s)
    (hrun : Runnable (s.procs cur)) (hnone : (s.procs cur).wait = none) : Inv (sysWaitpid cur a1 alone s) := by
  have hlive := hrun.live
  have hwait : ∀ c pid, (s.procs cur).wait = some c → c = pid ∧ ((s.procs cur).pid, pid) ∈ s.children := by
    intro c pid hc
    rw [hnone] at hc
    cases hc
  unfold sysWaitpid
  dsimp only
  split
  · rename_i hzero
    have hchild : ((s.procs cur).pid, a1.toNat % 2 ^ 32) ∉ s.children := by
      intro hmem
      have := h.older _ _ hmem
      simp [hzero] at this
    exact h.leave hrun.1 (fun c => hwait c _) (fun hmem => absurd hmem hchild)
      (.inr ⟨rfl, fun hmem => absurd hmem hchild⟩)
  · cases hkid : procGet s (a1.toNat % 2 ^ 32) with
    | none =>
      -- a child that is not in the table has ended, and its parent has heard
      have hgone : ((s.procs cur).pid, a1.toNat % 2 ^ 32) ∈ s.children →
          Exited s (a1.toNat % 2 ^ 32) ∧ s.results (s.procs cur).pid (a1.toNat % 2 ^ 32) ≠ [] := by
        intro hmem
        have habsent : ¬ ∃ k, (s.procs k).present = true ∧ (s.procs k).pid = a1.toNat % 2 ^ 32 := by
          rintro ⟨k, hk, hpid⟩
          exact procGet_none hkid (h.bound k hk) hk hpid
        have hex : Exited s (a1.toNat % 2 ^ 32) := of_not_not fun hex => habsent (h.kept _ _ hmem hex)
        refine ⟨hex, fun hnil => ?_⟩
        rcases h.reach cur _ hlive hmem hex hnil with hk | hsome
        · exact habsent hk
        · rw [hnone] at hsome
          cases hsome
      exact h.leave hrun.1 (fun c => hwait c _) (fun hmem => ⟨(hgone hmem).1, .inr ⟨(hgone hmem).2, rfl⟩⟩)
        (.inr ⟨rfl, fun hmem => (hgone hmem).2⟩)
    | some j =>
      obtain ⟨-, hj, hpid⟩ := procGet_some hkid
      dsimp only
      split
      · rename_i hparent
        have hchild : ((s.procs cur).pid, a1.toNat % 2 ^ 32) ∉ s.children :=
          fun hmem => hparent (h.parent _ _ j hmem hj hpid)
        exact h.leave hrun.1 (fun c => hwait c _) (fun hmem => absurd hmem hchild)
          (.inr ⟨rfl, fun hmem => absurd hmem hchild⟩)
      · rename_i hparent
        have hparent : (s.procs j).parent = (s.procs cur).pid := of_not_not hparent
        have hmem := h.born j hj (by
          have := h.numbered cur hrun.1
          omega)
        rw [hparent, hpid] at hmem
        rw [← hkid]
        refine inv_waitTurn h hrun hmem (fun hno => ?_) fun c hc => (hwait c _ hc).1
        rw [hkid] at hno
        cases hno

theorem inv_resume {s : Sys} {cur : Nat} {alone : Bool} (h : Inv s) (hrun : Runnable (s.procs cur)) :
    Inv (resume cur alone s) := by
  unfold resume
  cases hwait : (s.procs cur).wait with
  | none => exact h
  | some pid =>
    obtain ⟨hmem, hnil, -⟩ := h.waits cur pid hrun.live hwait
    refine inv_waitTurn h hrun hmem (fun _ => hnil) fun c hc => ?_
    rw [hwait] at hc
    exact (Option.some.inj hc).symm

/-! ## `proc_exit` -/

/-- What `proc_exit` does to the entries: one of them ends, and the slot of the other, which is the
parent, takes the code. -/
structure Ends (s t : Sys) (cur : Nat) (code : BitVec 64) : Prop where
  entry : ∀ i, (t.procs i).present = (s.procs i).present ∧ (t.procs i).pid = (s.procs i).pid ∧
    (t.procs i).parent = (s.procs i).parent ∧ (t.procs i).wait = (s.procs i).wait
  ended : ∀ i, (t.procs i).state = .terminated ↔ (s.procs i).state = .terminated ∨ i = cur
  told : ∀ i, (s.procs i).present = true → (s.procs i).pid = (s.procs cur).parent →
    (t.procs i).waitPid = (s.procs cur).pid ∧ (t.procs i).waitCode = code.setWidth 32 ∧ (t.procs i).state ≠ .blocked
  other : ∀ i, (s.procs i).present = true → (s.procs i).pid ≠ (s.procs cur).parent →
    (t.procs i).waitPid = (s.procs i).waitPid ∧ (t.procs i).waitCode = (s.procs i).waitCode ∧
      (i ≠ cur → (t.procs i).state = (s.procs i).state)
  children : t.children = s.children
  exited : t.exited = ((s.procs cur).pid, code) :: s.exited
  returned : t.returned = s.returned
  nextPid : t.nextPid = s.nextPid
  fault : t.fault = s.fault

theorem Inv.not_own_parent {s : Sys} {i : Nat} (h : Inv s) (hi : (s.procs i).present = true) :
    (s.procs i).parent ≠ (s.procs i).pid := by
  intro heq
  have hpos := h.numbered i hi
  have := h.older _ _ (h.born i hi (by omega))
  omega

theorem procExit_ends {s : Sys} {cur : Nat} {code : BitVec 64} (h : Inv s) (hrun : Runnable (s.procs cur)) :
    Ends s (procExit cur code s) cur code := by
  have hown := h.not_own_parent hrun.1
  unfold procExit
  dsimp only
  cases hget : procGet s (s.procs cur).parent with
  | none =>
    have hno : ∀ i, (s.procs i).present = true → (s.procs i).pid ≠ (s.procs cur).parent :=
      fun i hi => procGet_none hget (h.bound i hi) hi
    refine ⟨fun i => ?_, fun i => ?_, fun i hi hpid => absurd hpid (hno i hi), fun i _ _ => ?_, rfl, rfl, rfl, rfl, rfl⟩
    all_goals
      rcases eq_or_ne i cur with rfl | hne
      · simp
      · simp [Sys.set_other _ hne, hne]
  | some j =>
    obtain ⟨-, hj, hpid⟩ := procGet_some hget
    have hjc : j ≠ cur := by
      rintro rfl
      exact hown hpid.symm
    have hparent : ∀ i, (s.procs i).present = true → ((s.procs i).pid = (s.procs cur).parent ↔ i = j) := by
      intro i hi
      constructor
      · intro heq
        exact h.unique i j hi hj (heq.trans hpid.symm)
      · rintro rfl
        exact hpid
    refine ⟨fun i => ?_, fun i => ?_, fun i hi heq => ?_, fun i hi heq => ?_, rfl, rfl, rfl, rfl, rfl⟩
    · dsimp only
      rcases eq_or_ne i cur with rfl | hne
      · simp [Sys.set_other _ hjc.symm]
      · rcases eq_or_ne i j with rfl | hnj
        · rw [Sys.set_other _ hne, Sys.set_same, wake_eq]
          exact ⟨rfl, rfl, rfl, rfl⟩
        · simp [Sys.set_other _ hne, Sys.set_other _ hnj]
    · dsimp only
      rcases eq_or_ne i cur with rfl | hne
      · simp
      · rcases eq_or_ne i j with rfl | hnj
        · simp [Sys.set_other _ hne, wake_state, hne]
        · simp [Sys.set_other _ hne, Sys.set_other _ hnj, hne]
    · obtain rfl := (hparent i hi).mp heq
      dsimp only
      rw [Sys.set_other _ hjc, Sys.set_same]
      refine ⟨?_, ?_, wake_not_blocked _⟩
      all_goals rw [wake_eq]
    · have hnj : i ≠ j := fun h => heq ((hparent i hi).mpr h)
      dsimp only
      rcases eq_or_ne i cur with rfl | hne
      · simp [Sys.set_other _ hnj]
      · simp [Sys.set_other _ hne, Sys.set_other _ hnj]

namespace Ends

variable {s t : Sys} {cur : Nat} {code : BitVec 64}

theorem exited_iff (hends : Ends s t cur code) (c : Nat) : Exited t c ↔ c = (s.procs cur).pid ∨ Exited s c := by
  simp [Exited, hends.exited, exists_or]

theorem results (hends : Ends s t cur code) (p c : Nat) : t.results p c = s.results p c := by
  rw [Sys.results, Sys.results, hends.returned]

theorem live (hends : Ends s t cur code) {i : Nat} (hl : Live (t.procs i)) : Live (s.procs i) ∧ i ≠ cur := by
  obtain ⟨hp, hst⟩ := hl
  rw [(hends.entry i).1] at hp
  rw [ne_eq, hends.ended, not_or] at hst
  exact ⟨⟨hp, hst.1⟩, hst.2⟩

theorem code_new (hends : Ends s t cur code) (h : Inv s) (hrun : Runnable (s.procs cur)) (hcode : Fits code)
    (hfresh : ¬ Exited s (s.procs cur).pid) {c : Nat} {x : BitVec 64} (hmem : (c, x) ∈ t.exited) :
    c < t.nextPid ∧ Fits x ∧ ∀ x', (c, x') ∈ t.exited → x = x' := by
  rw [hends.exited] at hmem ⊢
  rw [hends.nextPid]
  rcases List.mem_cons.mp hmem with heq | hold
  · cases heq
    refine ⟨(h.numbered cur hrun.1).2, hcode, fun x' hx' => ?_⟩
    rcases List.mem_cons.mp hx' with heq | hx'
    · cases heq
      rfl
    · exact absurd ⟨x', hx'⟩ hfresh
  · obtain ⟨hlt, hsmall, huniq⟩ := h.code c x hold
    refine ⟨hlt, hsmall, fun x' hx' => ?_⟩
    rcases List.mem_cons.mp hx' with heq | hx'
    · cases heq
      exact absurd ⟨x, hold⟩ hfresh
    · exact huniq x' hx'

theorem slot_filled (hends : Ends s t cur code) (h : Inv s)
    (hparent : ∀ i, ((s.procs i).pid, (s.procs cur).pid) ∈ s.children → (s.procs i).pid = (s.procs cur).parent)
    (hempty : ∀ i, Live (s.procs i) → (s.procs i).pid = (s.procs cur).parent → (s.procs i).waitPid = 0) {i c : Nat}
    {x : BitVec 64} (hl : Live (t.procs i)) (hmem : ((t.procs i).pid, c) ∈ t.children) (hex : (c, x) ∈ t.exited)
    (hnil : t.results (t.procs i).pid c = []) : (t.procs i).waitPid = c ∧ (t.procs i).waitCode = x.setWidth 32 := by
  rw [(hends.entry i).2.1, hends.children] at hmem
  rw [(hends.entry i).2.1, hends.results] at hnil
  rw [hends.exited] at hex
  obtain ⟨hl, -⟩ := hends.live hl
  rcases List.mem_cons.mp hex with heq | hold
  · cases heq
    obtain ⟨hpid, hcode, -⟩ := hends.told i hl.1 (hparent i hmem)
    exact ⟨hpid, hcode⟩
  · have hfull := h.slot i c x hl hmem hold hnil
    by_cases hpid : (s.procs i).pid = (s.procs cur).parent
    · have := hempty i hl hpid
      have := h.older _ _ hmem
      omega
    · obtain ⟨hpid, hcode, -⟩ := hends.other i hl.1 hpid
      rwa [hpid, hcode]

theorem slot_owed (hends : Ends s t cur code) (h : Inv s) (hrun : Runnable (s.procs cur))
    (hfresh : ¬ Exited s (s.procs cur).pid) {i : Nat} (hl : Live (t.procs i)) (hne : (t.procs i).waitPid ≠ 0) :
    ((t.procs i).pid, (t.procs i).waitPid) ∈ t.children ∧ Exited t (t.procs i).waitPid ∧
      t.results (t.procs i).pid (t.procs i).waitPid = [] := by
  rw [(hends.entry i).2.1, hends.children, hends.exited_iff, hends.results]
  obtain ⟨hl, -⟩ := hends.live hl
  by_cases hpid : (s.procs i).pid = (s.procs cur).parent
  · have hmem := h.born cur hrun.1 (by
      have := h.numbered i hl.1
      omega)
    rw [(hends.told i hl.1 hpid).1, hpid]
    exact ⟨hmem, .inl rfl, of_not_not fun hne => hfresh (h.result _ _ hne)⟩
  · rw [(hends.other i hl.1 hpid).1] at hne ⊢
    obtain ⟨hmem, hex, hnil⟩ := h.free i hl hne
    exact ⟨hmem, .inr hex, hnil⟩

theorem wait_open (hends : Ends s t cur code) (h : Inv s)
    (hparent : ∀ i, ((s.procs i).pid, (s.procs cur).pid) ∈ s.children → (s.procs i).pid = (s.procs cur).parent)
    {i c : Nat} (hl : Live (t.procs i)) (hsome : (t.procs i).wait = some c) :
    ((t.procs i).pid, c) ∈ t.children ∧ t.results (t.procs i).pid c = [] ∧
      (Exited t c → (t.procs i).state ≠ .blocked) := by
  rw [(hends.entry i).2.2.2] at hsome
  rw [(hends.entry i).2.1, hends.children, hends.exited_iff, hends.results]
  obtain ⟨hl, hic⟩ := hends.live hl
  obtain ⟨hmem, hnil, hst⟩ := h.waits i c hl hsome
  refine ⟨hmem, hnil, fun hex => ?_⟩
  by_cases hpid : (s.procs i).pid = (s.procs cur).parent
  · exact (hends.told i hl.1 hpid).2.2
  · rw [(hends.other i hl.1 hpid).2.2 hic]
    rcases hex with rfl | hex
    · exact absurd (hparent i hmem) hpid
    · exact hst hex

end Ends

theorem Inv.slot_empty {s : Sys} {cur : Nat} {code : BitVec 64} (h : Inv s) (htimely : Timely s (.exit cur code))
    {i : Nat} (hl : Live (s.procs i)) (hpid : (s.procs i).pid = (s.procs cur).parent) : (s.procs i).waitPid = 0 := by
  cases hget : procGet s (s.procs cur).parent with
  | none => exact absurd hpid (procGet_none hget (h.bound i hl.1) hl.1)
  | some j =>
    obtain ⟨-, hj, hjpid⟩ := procGet_some hget
    obtain rfl := h.unique i j hl.1 hj (hpid.trans hjpid.symm)
    exact htimely.2 i hget hl.2

theorem inv_exit {s t : Sys} {cur : Nat} {code : BitVec 64} (h : Inv s) (hrun : Runnable (s.procs cur))
    (htimely : Timely s (.exit cur code)) (hends : Ends s t cur code) : Inv t := by
  have hfresh : ¬ Exited s (s.procs cur).pid := by
    rw [← h.dead cur hrun.1]
    simp [hrun.2]
  have hparent : ∀ i, ((s.procs i).pid, (s.procs cur).pid) ∈ s.children → (s.procs i).pid = (s.procs cur).parent :=
    fun i hmem => (h.parent _ _ cur hmem hrun.1 rfl).symm
  have hcensus : Census t :=
    h.census.keep (fun i hi => ⟨(hends.entry i).1 ▸ hi, (hends.entry i).2.1, (hends.entry i).2.2.1⟩) hends.children
      hends.nextPid
  refine { hcensus with
    noFault := hends.fault.trans h.noFault
    code := fun _ _ => hends.code_new h hrun htimely.1 hfresh
    slot := fun _ _ _ => hends.slot_filled h hparent fun _ => h.slot_empty htimely
    free := fun _ => hends.slot_owed h hrun hfresh
    waits := fun _ _ => hends.wait_open h hparent
    dead := ?_, kept := ?_, result := ?_, reach := ?_, codes := ?_ }
  · intro i hi
    rw [(hends.entry i).1] at hi
    rw [(hends.entry i).2.1, hends.ended, hends.exited_iff, h.dead i hi, or_comm]
    refine or_congr_left ⟨?_, fun heq => h.unique i cur hi hrun.1 heq⟩
    rintro rfl
    rfl
  · intro p c hmem hex
    rw [hends.children] at hmem
    rw [hends.exited_iff, not_or] at hex
    obtain ⟨i, hi, hpid⟩ := h.kept p c hmem hex.2
    exact ⟨i, by rwa [(hends.entry i).1], by rwa [(hends.entry i).2.1]⟩
  · intro p c hne
    rw [hends.results] at hne
    exact (hends.exited_iff c).mpr (.inr (h.result p c hne))
  · intro i c hl hmem hex hnil
    rw [(hends.entry i).2.1, hends.children] at hmem
    rw [(hends.entry i).2.1, hends.results] at hnil
    rw [(hends.entry i).2.2.2]
    obtain ⟨hl, -⟩ := hends.live hl
    rcases (hends.exited_iff c).mp hex with rfl | hold
    · exact .inl ⟨cur, by rw [(hends.entry cur).1]; exact hrun.1, (hends.entry cur).2.1⟩
    · rcases h.reach i c hl hmem hold hnil with ⟨k, hk, hpid⟩ | hsome
      · exact .inl ⟨k, by rwa [(hends.entry k).1], by rwa [(hends.entry k).2.1]⟩
      · exact .inr hsome
  · intro p c hmem
    rw [hends.children] at hmem
    have hold := h.codes p c hmem
    unfold CodeOnce at hold ⊢
    rw [hends.results, hends.exited]
    split
    · trivial
    · rename_i r rest heq
      rw [heq] at hold
      exact ⟨List.mem_cons_of_mem _ hold.1, hold.2⟩

/-! ## Collecting and reusing entries -/

theorem Inv.heard {s : Sys} {i k : Nat} (h : Inv s) (hlive : Live (s.procs i)) (hk : (s.procs k).present = true)
    (hheard : Heard s k) (hmem : ((s.procs i).pid, (s.procs k).pid) ∈ s.children)
    (hex : Exited s (s.procs k).pid) (hnil : s.results (s.procs i).pid (s.procs k).pid = []) :
    (s.procs i).wait = some (s.procs k).pid := by
  have hparent := h.parent _ _ k hmem hk rfl
  obtain ⟨code, hcode⟩ := hex
  cases hget : procGet s (s.procs k).parent with
  | none => exact absurd hparent.symm (procGet_none hget (h.bound i hlive.1) hlive.1)
  | some j =>
    obtain ⟨-, hj, hpid⟩ := procGet_some hget
    obtain rfl := h.unique i j hlive.1 hj (hparent.symm.trans hpid.symm)
    exact hheard i hget hlive.2 (h.slot i _ code hlive hmem hcode hnil).1

theorem inv_gc {s : Sys} (h : Inv s) (htimely : Timely s .gc) : Inv (procGcRun s) := by
  have hkept : ∀ i, ((procGcRun s).procs i).present = true →
      (s.procs i).state ≠ .terminated ∧ (procGcRun s).procs i = s.procs i := by
    intro i hi
    unfold procGcRun at hi ⊢
    dsimp only at hi ⊢
    split at hi
    · cases hi
    · rename_i hst
      exact ⟨hst, if_neg hst⟩
  have hstays : ∀ i, (s.procs i).state ≠ .terminated → (procGcRun s).procs i = s.procs i := fun i hst => if_neg hst
  have hlive : ∀ i, Live ((procGcRun s).procs i) → Live (s.procs i) ∧ (procGcRun s).procs i = s.procs i := by
    rintro i ⟨hi, hst⟩
    obtain ⟨-, heq⟩ := hkept i hi
    rw [heq] at hi hst
    exact ⟨⟨hi, hst⟩, heq⟩
  have hcensus : Census (procGcRun s) := by
    refine h.census.keep (fun i hi => ?_) rfl rfl
    have heq := (hkept i hi).2
    rw [heq] at hi ⊢
    exact ⟨hi, rfl, rfl⟩
  refine { hcensus with
    noFault := h.noFault, code := h.code, dead := ?_, kept := ?_, result := h.result, slot := ?_, free :=
      ?_, reach := ?_
    waits := ?_, codes := h.codes }
  · intro i hi
    have heq := (hkept i hi).2
    rw [heq] at hi ⊢
    exact h.dead i hi
  · intro p c hmem hex
    obtain ⟨i, hi, hpid⟩ := h.kept p c hmem hex
    have hst : (s.procs i).state ≠ .terminated := by
      rw [ne_eq, h.dead i hi, hpid]
      exact hex
    exact ⟨i, by rwa [hstays i hst], by rwa [hstays i hst]⟩
  · intro i c code hl
    obtain ⟨hl, heq⟩ := hlive i hl
    rw [heq]
    exact h.slot i c code hl
  · intro i hl
    obtain ⟨hl, heq⟩ := hlive i hl
    rw [heq]
    exact h.free i hl
  · intro i c hl hmem hex hnil
    obtain ⟨hl, heq⟩ := hlive i hl
    rw [heq] at hmem hnil ⊢
    rcases h.reach i c hl hmem hex hnil with ⟨k, hk, rfl⟩ | hsome
    · by_cases hst : (s.procs k).state = .terminated
      · exact .inr (h.heard hl hk (htimely k (h.bound k hk) hk hst) hmem hex hnil)
      · exact .inl ⟨k, by rwa [hstays k hst], by rw [hstays k hst]⟩
    · exact .inr hsome
  · intro i c hl
    obtain ⟨hl, heq⟩ := hlive i hl
    rw [heq]
    exact h.waits i c hl

/-- What the creation of a process in the slot `j` does. -/
structure Creates (s t : Sys) (cur j : Nat) (own ok : Bool) : Prop where
  made : t.procs j =
    { emptySlot with present := ok, pid := s.nextPid, parent := if own then (s.procs cur).pid else 0 }
  other : ∀ i, i ≠ j → t.procs i = s.procs i
  children : ∀ p c, (p, c) ∈ t.children ↔
    (own = true ∧ ok = true ∧ p = (s.procs cur).pid ∧ c = s.nextPid) ∨ (p, c) ∈ s.children
  exited : t.exited = s.exited
  returned : t.returned = s.returned
  nextPid : t.nextPid = s.nextPid + 1
  fault : t.fault = s.fault

theorem create_creates {s : Sys} {cur j : Nat} {own ok : Bool} (h : findFree s = some j) :
    Creates s (create cur own ok s) cur j own ok := by
  unfold create
  rw [h]
  dsimp only
  refine ⟨if_pos rfl, fun i hne => if_neg hne, fun p c => ?_, rfl, rfl, rfl, rfl⟩
  dsimp only
  cases own <;> cases ok <;> simp

theorem Census.create {s t : Sys} {cur j : Nat} {own ok : Bool} (h : Census s) (hcur : (s.procs cur).present = true)
    (hj : j < maxProcs) (hmade : Creates s t cur j own ok) : Census t := by
  have hnumber := h.numbered cur hcur
  have hpid : (t.procs j).pid = s.nextPid := by rw [hmade.made]
  refine ⟨?_, ?_, ?_, ?_, ?_, ?_, ?_⟩
  · rw [hmade.nextPid]
    omega
  · intro i k hi hk heq
    rcases eq_or_ne i j with rfl | hij
    · rcases eq_or_ne k i with rfl | hki
      · rfl
      · rw [hmade.other k hki] at hk heq
        have := h.numbered k hk
        omega
    · rw [hmade.other i hij] at hi heq
      rcases eq_or_ne k j with rfl | hkj
      · have := h.numbered i hi
        omega
      · rw [hmade.other k hkj] at hk heq
        exact h.unique i k hi hk heq
  · intro i hi
    rcases eq_or_ne i j with rfl | hij
    · exact hj
    · rw [hmade.other i hij] at hi
      exact h.bound i hi
  · intro i hi
    rw [hmade.nextPid]
    rcases eq_or_ne i j with rfl | hij
    · omega
    · rw [hmade.other i hij] at hi ⊢
      have := h.numbered i hi
      omega
  · intro p c hmem
    rw [hmade.nextPid]
    rcases (hmade.children p c).mp hmem with ⟨-, -, rfl, rfl⟩ | hold
    · omega
    · have := h.older p c hold
      omega
  · intro p c i hmem hi hic
    rcases (hmade.children p c).mp hmem with ⟨hown, -, rfl, rfl⟩ | hold
    · rcases eq_or_ne i j with rfl | hij
      · rw [hmade.made, hown]
        rfl
      · rw [hmade.other i hij] at hi hic
        have := h.numbered i hi
        omega
    · rcases eq_or_ne i j with rfl | hij
      · have := h.older p c hold
        omega
      · rw [hmade.other i hij] at hi hic ⊢
        exact h.parent p c i hold hi hic
  · intro i hi hne
    rw [hmade.children]
    rcases eq_or_ne i j with rfl | hij
    · rw [hmade.made] at hi hne ⊢
      cases own
      · exact absurd rfl hne
      · exact .inl ⟨rfl, hi, rfl, rfl⟩
    · rw [hmade.other i hij] at hi hne ⊢
      exact .inr (h.born i hi hne)

namespace Creates

variable {s t : Sys} {cur j : Nat} {own ok : Bool}

theorem pid (hmade : Creates s t cur j own ok) : (t.procs j).pid = s.nextPid := by rw [hmade.made]

theorem exited_iff (hmade : Creates s t cur j own ok) (c : Nat) : Exited t c ↔ Exited s c := by
  rw [Exited, Exited, hmade.exited]

theorem results (hmade : Creates s t cur j own ok) (p c : Nat) : t.results p c = s.results p c := by
  rw [Sys.results, Sys.results, hmade.returned]

theorem fresh (h : Inv s) : ¬ Exited s s.nextPid := by
  rintro ⟨code, hcode⟩
  exact Nat.lt_irrefl _ (h.code _ _ hcode).1

theorem old_parent (hmade : Creates s t cur j own ok) (h : Inv s) (hcur : (s.procs cur).present = true) {i c : Nat}
    (hmem : ((t.procs i).pid, c) ∈ t.children) : i ≠ j := by
  rintro rfl
  have hnumber := h.numbered cur hcur
  rw [hmade.pid] at hmem
  rcases (hmade.children _ _).mp hmem with ⟨-, -, heq, -⟩ | hold
  · omega
  · have := h.older _ _ hold
    omega

theorem old_child (hmade : Creates s t cur j own ok) (h : Inv s) {p c : Nat} (hmem : (p, c) ∈ t.children)
    (hex : Exited s c) : (p, c) ∈ s.children := by
  rcases (hmade.children p c).mp hmem with ⟨-, -, -, rfl⟩ | hold
  · exact absurd hex (fresh h)
  · exact hold

end Creates

theorem inv_create {s t : Sys} {cur j : Nat} {own ok : Bool} (h : Inv s) (hrun : Runnable (s.procs cur))
    (hfree : findFree s = some j) (hheard : (s.procs j).present = true → Heard s j)
    (hmade : Creates s t cur j own ok) : Inv t := by
  obtain ⟨hj, hend⟩ := findFree_some hfree
  have hcensus := h.census.create hrun.1 hj hmade
  refine { hcensus with
    noFault := hmade.fault.trans h.noFault, code := ?_, dead := ?_, kept := ?_, result := ?_, slot := ?_, free := ?_
    reach := ?_, waits := ?_, codes := ?_ }
  · intro c code hmem
    rw [hmade.exited] at hmem ⊢
    rw [hmade.nextPid]
    obtain ⟨hlt, hrest⟩ := h.code c code hmem
    exact ⟨by omega, hrest⟩
  · intro i hi
    rw [hmade.exited_iff]
    rcases eq_or_ne i j with rfl | hij
    · rw [hmade.pid]
      refine iff_of_false ?_ (Creates.fresh h)
      rw [hmade.made]
      simp [emptySlot]
    · rw [hmade.other i hij] at hi ⊢
      exact h.dead i hi
  · intro p c hmem hex
    rw [hmade.exited_iff] at hex
    rcases (hmade.children p c).mp hmem with ⟨-, hok, -, rfl⟩ | hold
    · exact ⟨j, by rw [hmade.made]; exact hok, hmade.pid⟩
    · obtain ⟨i, hi, hic⟩ := h.kept p c hold hex
      have hij : i ≠ j := by
        rintro rfl
        rw [← hic, ← h.dead i hi] at hex
        exact hex (hend hi)
      exact ⟨i, by rwa [hmade.other i hij], by rwa [hmade.other i hij]⟩
  · intro p c hne
    rw [hmade.results] at hne
    exact (hmade.exited_iff c).mpr (h.result p c hne)
  · intro i c code hl hmem hex hnil
    have hij := hmade.old_parent h hrun.1 hmem
    rw [hmade.results] at hnil
    rw [hmade.exited] at hex
    have hold := hmade.old_child h hmem ⟨code, hex⟩
    rw [hmade.other i hij] at hl hold hnil ⊢
    exact h.slot i c code hl hold hex hnil
  · intro i hl hne
    rw [hmade.children, hmade.exited_iff, hmade.results]
    rcases eq_or_ne i j with rfl | hij
    · rw [hmade.made] at hne
      exact absurd rfl hne
    · rw [hmade.other i hij] at hl hne ⊢
      obtain ⟨hmem, hex, hnil⟩ := h.free i hl hne
      exact ⟨.inr hmem, hex, hnil⟩
  · intro i c hl hmem hex hnil
    have hij := hmade.old_parent h hrun.1 hmem
    rw [hmade.exited_iff] at hex
    rw [hmade.results] at hnil
    have hold := hmade.old_child h hmem hex
    rw [hmade.other i hij] at hl hold hnil ⊢
    rcases h.reach i c hl hold hex hnil with ⟨k, hk, rfl⟩ | hsome
    · rcases eq_or_ne k j with rfl | hkj
      · exact .inr (h.heard hl hk (hheard hk) hold hex hnil)
      · exact .inl ⟨k, by rwa [hmade.other k hkj], by rw [hmade.other k hkj]⟩
    · exact .inr hsome
  · intro i c hl hsome
    rw [hmade.children, hmade.exited_iff, hmade.results]
    rcases eq_or_ne i j with rfl | hij
    · rw [hmade.made] at hsome
      cases hsome
    · rw [hmade.other i hij] at hl hsome ⊢
      obtain ⟨hmem, hrest⟩ := h.waits i c hl hsome
      exact ⟨.inr hmem, hrest⟩
  · intro p c hmem
    have hcode : CodeOnce s p c := by
      rcases (hmade.children p c).mp hmem with ⟨-, -, -, rfl⟩ | hold
      · have hnil : s.results p s.nextPid = [] := of_not_not fun hne => Creates.fresh h (h.result _ _ hne)
        unfold CodeOnce
        rw [hnil]
        trivial
      · exact h.codes p c hold
    unfold CodeOnce at hcode ⊢
    rwa [hmade.results, hmade.exited]

/-! ## Runs -/

theorem Inv.step {s t : Sys} {o : Op} (h : Inv s) (hstep : Guarded Timely Step s o t) : Inv t := by
  obtain ⟨htimely, hallowed, rfl⟩ := hstep
  cases o with
  | create cur own ok =>
    cases hfree : findFree s with
    | none =>
      have hsame : apply s (.create cur own ok) = s := by
        dsimp only [apply, create]
        rw [hfree]
      rwa [hsame]
    | some j => exact inv_create h hallowed.1 hfree (htimely j hfree) (create_creates hfree)
  | exit cur code => exact inv_exit h hallowed.1 htimely (procExit_ends h hallowed.1)
  | gc => exact inv_gc h htimely
  | message pid => exact inv_message h pid
  | block cur => exact inv_block h hallowed.1 hallowed.2
  | waitpid cur a1 alone => exact inv_waitpid h hallowed.1 hallowed.2
  | resume cur alone => exact inv_resume h hallowed.1

end Siathos.Proc.Wait
