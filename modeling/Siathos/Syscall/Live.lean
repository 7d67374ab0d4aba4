import Siathos.Syscall.Rules

/-!
# Running processes

A system call may end its own process and take free slots. It leaves every other running process in
its slot, with all that only the process itself can change.
-/

open Lib Lib.Call Siathos.Nomos Siathos.Fs Siathos.Ipc Siathos.Proc

namespace Siathos.Syscall

def Live (p : Process) : Prop := p.present = true ∧ p.state ≠ .terminated

variable {α : Type} {g : Process → α}

/-- What `g` reads of a process is neither its state nor what it waits for. -/
def Stable (g : Process → α) : Prop := ∀ p state waitPid, g { p with state, waitPid } = g p

/-- The running processes keep their slots, and `g`. -/
def Keeps (g : Process → α) (k k' : Kernel) : Prop :=
  ∀ i, Live (k.proc i) → Live (k'.proc i) ∧ g (k'.proc i) = g (k.proc i)

theorem Keeps.refl (k : Kernel) : Keeps g k k := fun _ h => ⟨h, rfl⟩

theorem Keeps.trans {k k' k'' : Kernel} (h : Keeps g k k') (h' : Keeps g k' k'') : Keeps g k k'' := by
  intro i hlive
  obtain ⟨hlive', hg⟩ := h i hlive
  obtain ⟨hlive'', hg'⟩ := h' i hlive'
  exact ⟨hlive'', hg'.trans hg⟩

theorem not_live_empty : ¬ Live emptySlot := by
  rintro ⟨h, -⟩
  cases h

theorem proc_setProc (k : Kernel) (cur : Nat) (f : Process → Process) (i : Nat) :
    (k.setProc cur f).proc i = k.proc i ∨ cur = i ∧ (k.setProc cur f).proc i = f (k.proc i) := by
  unfold Kernel.proc Kernel.setProc
  simp only [List.getD_eq_getElem?_getD, List.getElem?_modify]
  cases k.procs[i]? with
  | none => simp
  | some p => by_cases h : cur = i <;> simp [h]

theorem getD_updatePid (pid : Nat) (f : Process → Process) (l : List Process) (i : Nat) :
    (updatePid pid f l).getD i emptySlot = l.getD i emptySlot ∨
      (l.getD i emptySlot).pid = pid ∧ (updatePid pid f l).getD i emptySlot = f (l.getD i emptySlot) := by
  induction l generalizing i with
  | nil => exact Or.inl rfl
  | cons p rest ih =>
    unfold updatePid
    cases i with
    | zero =>
      split
      · rename_i h
        simp only [Bool.and_eq_true, decide_eq_true_eq] at h
        exact Or.inr ⟨h.2, rfl⟩
      · exact Or.inl rfl
    | succ i =>
      split
      · exact Or.inl rfl
      · simpa using ih i

theorem proc_updatePid (k : Kernel) (pid : Nat) (f : Process → Process) (i : Nat) :
    Kernel.proc { k with procs := updatePid pid f k.procs } i = k.proc i ∨
      (k.proc i).pid = pid ∧ Kernel.proc { k with procs := updatePid pid f k.procs } i = f (k.proc i) :=
  getD_updatePid pid f k.procs i

theorem Keeps.setProc (k : Kernel) (cur : Nat) {f : Process → Process}
    (hf : ∀ p, Live p → Live (f p) ∧ g (f p) = g p) : Keeps g k (k.setProc cur f) := by
  intro i hlive
  rcases proc_setProc k cur f i with h | ⟨-, h⟩
  · rw [h]
    exact ⟨hlive, rfl⟩
  · rw [h]
    exact hf _ hlive

theorem Keeps.wakeup (hg : Stable g) (k : Kernel) (pid : Nat) : Keeps g k (schedWakeup pid k) := by
  intro i hlive
  rcases proc_updatePid k pid (fun p => if p.state = .blocked then { p with state := .ready } else p) i with
    h | ⟨-, h⟩
  · unfold schedWakeup
    rw [h]
    exact ⟨hlive, rfl⟩
  · unfold schedWakeup
    rw [h]
    split
    · exact ⟨⟨hlive.1, by simp⟩, hg _ _ _⟩
    · exact ⟨hlive, rfl⟩

theorem Keeps.gc (k : Kernel) : Keeps g k (procGcRun k) := by
  intro i hlive
  have h : (procGcRun k).proc i = k.proc i := by
    revert hlive
    unfold procGcRun Kernel.proc
    simp only [List.getD_eq_getElem?_getD, List.getElem?_map]
    cases k.procs[i]? with
    | none => intro _; rfl
    | some p => intro hlive; exact if_neg hlive.2
  rw [h]
  exact ⟨hlive, rfl⟩

theorem Keeps.tame (hg : Stable g) (k₀ : Kernel) (cur : Nat) : Tame cur (Keeps g k₀) where
  mailboxes _ _ h := h
  svcTable _ _ _ h _ _ := h
  nodes _ _ h := h
  wakeup k pid h := h.trans (Keeps.wakeup hg k pid)
  gc k h := h.trans (Keeps.gc k)
  accounts _ _ _ h := h
  verified _ _ h := h
  waited k h := h.trans (Keeps.setProc k cur fun p hp => ⟨hp, hg p p.state 0⟩)
  block k h := h.trans (Keeps.setProc k cur fun p hp => ⟨⟨hp.1, by simp⟩, hg p .blocked p.waitPid⟩)

/-! ## New processes -/

theorem findFree_not_live {k : Kernel} {idx : Nat} (h : findFree k = some idx) : ¬ Live (k.proc idx) := by
  obtain ⟨hlt, hfree, -⟩ := List.findIdx?_eq_some_iff_getElem.mp h
  rintro ⟨hpresent, hstate⟩
  have hproc : k.proc idx = k.procs[idx] := by simp [Kernel.proc, List.getD_eq_getElem?_getD, hlt]
  rw [hproc] at hpresent hstate
  simp [hpresent, hstate] at hfree

theorem Keeps.set {k : Kernel} {idx : Nat} (hfree : findFree k = some idx) (p : Process) (n : Nat) :
    Keeps g k { k with procs := k.procs.set idx p, nextPid := n } := by
  intro i hlive
  have hne : idx ≠ i := by
    rintro rfl
    exact findFree_not_live hfree hlive
  have h : Kernel.proc { k with procs := k.procs.set idx p, nextPid := n } i = k.proc i := by
    simp [Kernel.proc, List.getD_eq_getElem?_getD, hne]
  rw [h]
  exact ⟨hlive, rfl⟩

theorem Keeps.load (cur : Nat) (pname : CStr) (load : Load) (k : Kernel) :
    Keeps g k (execElfCore cur pname load k).1 := by
  rcases execElfCore_new cur pname load k with h | ⟨idx, p, pid, hfree, -, -, -, -, h⟩
  · rw [h]
    exact Keeps.refl k
  · rw [h]
    exact Keeps.set hfree p _

theorem Keeps.embedded (m : Machine) (cur : Nat) (name : CStr) (load : Load) (k : Kernel) :
    Keeps g k (execEmbeddedArgs m cur name load k).1 := by
  rcases execEmbeddedArgs_cases m cur name load k with h | h
  · rw [h]
    exact Keeps.refl k
  · rw [h]
    exact Keeps.load cur name load k

theorem Keeps.exec {k₀ k : Kernel} (h : Keeps g k₀ k) (m : Machine) (env : Env) (cur : Nat) (path : CStr) :
    Keeps g k₀ (execUserPath m env cur path k).1 := by
  apply execUserPath_keeps h
  · exact fun k name hk => hk.trans (Keeps.embedded m cur name env.loadEmbedded k)
  · exact fun k hk => hk.trans (Keeps.load cur _ env.loadFile k)

end Siathos.Syscall
