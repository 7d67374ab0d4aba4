import Siathos.Lib.Run
import Siathos.Proc.Creation
import Siathos.Proc.Growth

/-!
# Runs of the processes

Processes are created, scheduled, given memory, ended and collected, in any order.
-/

open Lib Siathos.Paging

namespace Siathos.Proc.Memory

inductive Op
  | createArgv (room : Option Nat)
  | createUserArgs (room : Option Nat) (userCode : Nat → BitVec 8) (userSize : Nat) (zone : Nat → BitVec 8)
  | createUserRegions (room : Option Nat) (img : Nat → BitVec 8) (regs : List Ureg) (zone : Nat → BitVec 8)
  | start (next : Nat)
  | switch (next : Nat)
  | exit (next : Nat)
  | gc
  | mmap (a1 : BitVec 64)
  | devMap (a1 a2 : BitVec 64)

/-- A process that the scheduler may pick. -/
def Ready (s : Sys) (i : Nat) : Prop := i < maxProcs ∧ (s.procs i).present = true ∧ (s.procs i).terminated = false

/-- `kmalloc` finds a block that is not in use, if it finds one. -/
def Found (s : Sys) (room : Option Nat) : Prop := ∀ p ∈ room, p ≠ 0 ∧ p ∉ s.blocks

def Allowed (s : Sys) : Op → Prop
  | .createArgv room => Found s room
  | .createUserArgs room _ _ _ => Found s room
  | .createUserRegions room _ _ _ => Found s room
  | .start next => s.running = false ∧ Ready s next
  | .switch next => s.running = true ∧ Ready s next ∧ next ≠ s.current
  | .exit next => s.running = true ∧ Ready s next ∧ next ≠ s.current
  | .gc => True
  | .mmap _ => s.running = true
  | .devMap _ _ => s.running = true

def apply (kernel : Nat) (s : Sys) : Op → Sys
  | .createArgv room => (createArgv kernel room s).1
  | .createUserArgs room userCode userSize zone => (createUserArgs kernel room userCode userSize zone s).1
  | .createUserRegions room img regs zone => (createUserRegions kernel room img regs zone s).1
  | .start next => { load next s with running := true }
  | .switch next => switch next s
  | .exit next => procExit next s
  | .gc => procGcRun kernel s
  | .mmap a1 => (sysMmap a1 s).1
  | .devMap a1 a2 => (sysDevMap a1 a2 s).1

instance (s : Sys) (i : Nat) : Decidable (Ready s i) := inferInstanceAs (Decidable (_ ∧ _))

instance (s : Sys) (room : Option Nat) : Decidable (Found s room) := by
  unfold Found
  infer_instance

instance (s : Sys) (o : Op) : Decidable (Allowed s o) := by
  cases o <;> dsimp only [Allowed] <;> infer_instance

abbrev Step (kernel : Nat) : Sys → Op → Sys → Prop := Exec Allowed (apply kernel)

/-! ## Who holds what -/

/-- The PML4 of each process in the table. -/
def roots (s : Sys) (i : Nat) : Option Nat := if (s.procs i).present then some (s.procs i).cr3 else none

def held (s : Sys) (i : Nat) : List Nat := if (s.procs i).present then [(s.procs i).stack] else []

/-- The kernel stacks of the processes in the table. -/
def kernelStacks (s : Sys) : List Nat := (List.range maxProcs).flatMap (held s)

theorem roots_set (s : Sys) (i : Nat) (p : Pcb) :
    roots (s.set i p) = Function.update (roots s) i (if p.present then some p.cr3 else none) := by
  funext j
  rcases eq_or_ne j i with rfl | hne
  · rw [Function.update_self, roots, Sys.set_same]
  · rw [Function.update_of_ne hne, roots, Sys.set_other p hne, roots]

theorem roots_congr {s t : Sys} (h : t.procs = s.procs) : roots t = roots s := by
  funext i
  rw [roots, roots, h]

theorem roots_some {s : Sys} {i : Nat} (h : (s.procs i).present = true) : roots s i = some (s.procs i).cr3 := if_pos h

theorem roots_present {s : Sys} {i r : Nat} (h : roots s i = some r) : (s.procs i).present = true := by
  by_contra hp
  rw [roots, if_neg hp] at h
  cases h

theorem findFree_spec {s : Sys} {idx : Nat} (h : findFree s = some idx) :
    idx < maxProcs ∧ ((s.procs idx).present = true → (s.procs idx).terminated = true) := by
  refine ⟨List.mem_range.mp (List.mem_of_find?_eq_some h), ?_⟩
  have hfree := List.find?_some h
  simpa [Classical.or_iff_not_imp_left] using hfree

theorem kernelStacks_split {s t : Sys} {i : Nat} (hi : i < maxProcs) (h : ∀ j, j ≠ i → t.procs j = s.procs j) :
    ∃ rest, (kernelStacks s).Perm (held s i ++ rest) ∧ (kernelStacks t).Perm (held t i ++ rest) := by
  have hmem : i ∈ List.range maxProcs := List.mem_range.mpr hi
  have hsplit : ∀ u : Sys, (kernelStacks u).Perm (held u i ++ ((List.range maxProcs).erase i).flatMap (held u)) :=
    fun u => (List.perm_cons_erase hmem).flatMap_right (held u)
  have hrest : ((List.range maxProcs).erase i).flatMap (held t) = ((List.range maxProcs).erase i).flatMap (held s) := by
    refine List.flatMap_congr fun j hj => ?_
    have hne : j ≠ i := ((List.nodup_range.mem_erase_iff).mp hj).1
    rw [held, held, h j hne]
  exact ⟨_, hsplit s, hrest ▸ hsplit t⟩

end Siathos.Proc.Memory
