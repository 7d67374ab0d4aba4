import Siathos.Proc.Conserve
import Siathos.Proc.Holding

/-!
# What is left in free pages

`pmm_free` clears nothing, and of the pages that are mapped for a process only those of segments are cleared. The others
show what the one before left there, except where something is written first.
-/

open Lib Siathos.Paging

namespace Siathos.Proc.Argv

open Memory

/-- The operations, with the arguments of the creations for ring 3. Between them, processes and the kernel write. -/
inductive Act
  | createArgv (room : Option Nat)
  | createUserArgs (room : Option Nat) (userCode : Nat → BitVec 8) (userSize : Nat) (aVa : Nat → BitVec 64)
      (argv : List (Option CStr))
  | createUserRegions (room : Option Nat) (img : Nat → BitVec 8) (regs : List Ureg) (aVa : Nat → BitVec 64)
      (argv : List (Option CStr))
  | start (next : Nat)
  | switch (next : Nat)
  | exit (next : Nat)
  | gc
  | mmap (a1 : BitVec 64)
  | devMap (a1 a2 : BitVec 64)
  | write (c : Copy)

def Act.run (kernel : Nat) (s : Sys) : Act → Sys
  | .createArgv room => (Memory.createArgv kernel room s).1
  | .createUserArgs room userCode userSize aVa argv => (Argv.createUserArgs kernel room userCode userSize aVa argv s).1
  | .createUserRegions room img regs aVa argv =>
    (Argv.createUserRegions kernel room img regs aVa argv s).1
  | .start next => { load next s with running := true }
  | .switch next => Memory.switch next s
  | .exit next => procExit next s
  | .gc => procGcRun kernel s
  | .mmap a1 => (sysMmap a1 s).1
  | .devMap a1 a2 => (sysDevMap a1 a2 s).1
  | .write c => s.holding (c.put s.vm.bytes)

/-- The act as an operation, where the creations leave `zone` in the last page of the stack. -/
def Act.op (zone : Nat → BitVec 8) : Act → Option Op
  | .createArgv room => some (.createArgv room)
  | .createUserArgs room userCode userSize _ _ => some (.createUserArgs room userCode userSize zone)
  | .createUserRegions room img regs _ _ => some (.createUserRegions room img regs zone)
  | .start next => some (.start next)
  | .switch next => some (.switch next)
  | .exit next => some (.exit next)
  | .gc => some .gc
  | .mmap a1 => some (.mmap a1)
  | .devMap a1 a2 => some (.devMap a1 a2)
  | .write _ => none

theorem Act.run_op (kernel : Nat) (s : Sys) (a : Act) : ∃ zone, ∀ o ∈ a.op zone, apply kernel s o = a.run kernel s := by
  cases a with
  | createUserArgs room userCode userSize aVa argv =>
    obtain ⟨zone, hzone⟩ := createUserArgs_zone kernel room userCode userSize aVa argv s
    exact ⟨zone, fun o ho => Option.some.inj ho ▸ congrArg Prod.fst hzone.symm⟩
  | createUserRegions room img regs aVa argv =>
    obtain ⟨zone, hzone⟩ := createUserRegions_zone kernel room img regs aVa argv s
    exact ⟨zone, fun o ho => Option.some.inj ho ▸ congrArg Prod.fst hzone.symm⟩
  | write c => exact ⟨fun _ => 0, fun o ho => nomatch ho⟩
  | _ => exact ⟨fun _ => 0, fun o ho => Option.some.inj ho ▸ rfl⟩

def Act.Allowed (s : Sys) (a : Act) : Prop := ∀ o ∈ a.op fun _ => 0, Memory.Allowed s o

instance (s : Sys) (a : Act) : Decidable (a.Allowed s) := by
  unfold Act.Allowed
  infer_instance

def runs (kernel : Nat) (s : Sys) (acts : List Act) : Sys := acts.foldl (Act.run kernel) s

/-- What the act itself writes. -/
def Act.copies (kernel : Nat) (s : Sys) : Act → List Copy
  | .createUserArgs room userCode userSize aVa argv => userArgsCopies kernel room userCode userSize aVa argv s
  | .createUserRegions room img regs aVa argv => userRegionsCopies kernel room img regs aVa argv s
  | .write c => [c]
  | _ => []

theorem Act.run_holding (kernel : Nat) (b : Nat → BitVec 8) (s : Sys) (a : Act) :
    a.run kernel (s.holding b) = (a.run kernel s).holding (putAll (a.copies kernel s) b) := by
  cases a with
  | createArgv room => exact congrArg Prod.fst (createArgv_holding b s kernel room)
  | createUserArgs room userCode userSize aVa argv =>
    exact congrArg Prod.fst (createUserArgs_holding b s kernel room userCode userSize aVa argv)
  | createUserRegions room img regs aVa argv =>
    exact congrArg Prod.fst (createUserRegions_holding b s kernel room img regs aVa argv)
  | gc => exact procGcRun_holding b s kernel
  | mmap a1 => exact congrArg Prod.fst (sysMmap_holding b s a1)
  | devMap a1 a2 => exact congrArg Prod.fst (sysDevMap_holding b s a1 a2)
  | _ => rfl

theorem Act.run_bytes (kernel : Nat) (s : Sys) (a : Act) :
    (a.run kernel s).vm.bytes = putAll (a.copies kernel s) s.vm.bytes :=
  congrArg (fun t => t.vm.bytes) (a.run_holding kernel s.vm.bytes s)

/-! ## Two runs -/

/-- A page that `pmm_alloc` may give. -/
def Free (s : Sys) (f : Nat) : Prop := f < s.vm.pmm.total ∧ s.vm.pmm.used f = false

instance (s : Sys) (f : Nat) : Decidable (Free s f) := inferInstanceAs (Decidable (_ ∧ _))

/-- `t` is `s` with other contents of the free pages. -/
def Stirred (s t : Sys) : Prop := ∃ b, (∀ x, ¬Free s (x / 4096) → b x = s.vm.bytes x) ∧ t = s.holding b

/-- A step of two runs, which takes them to states that differ as before and in the contents of free pages. -/
def TwinStep (kernel : Nat) (p : Sys × Sys) (a : Act) (q : Sys × Sys) : Prop :=
  q.1 = a.run kernel p.1 ∧ Stirred (a.run kernel p.2) q.2

/-- Two runs of the same acts that differ in the contents of free pages, before them and after each. -/
def Twins (kernel : Nat) (s : Sys) (acts : List Act) (t' : Sys) : Prop :=
  ∃ s', Stirred s s' ∧ Run (TwinStep kernel) (s, s') acts (runs kernel s acts, t')

/-- The bytes that are known after the acts, where those in `K` were known before: they have been written, and their
page has not been free since. -/
def knownAfter (kernel : Nat) : Sys → (Nat → Prop) → List Act → Nat → Prop
  | _, K, [] => K
  | s, K, a :: acts => knownAfter kernel (a.run kernel s)
    (fun x => (K x ∨ ∃ c ∈ a.copies kernel s, c.Covers x) ∧ ¬Free (a.run kernel s) (x / 4096)) acts

/-- Before the first act the pages in use are known. -/
def Known (kernel : Nat) (s : Sys) (acts : List Act) : Nat → Prop :=
  knownAfter kernel s (fun x => ¬Free s (x / 4096)) acts

theorem stirred_iff (t : Sys) (b b' : Nat → BitVec 8) :
    Stirred (t.holding b) (t.holding b') ↔ ∀ x, ¬Free t (x / 4096) → b' x = b x := by
  constructor
  · rintro ⟨c, hc, heq⟩ x hx
    have hbytes : b' = c := congrArg (fun u => u.vm.bytes) heq
    rw [hbytes]
    exact hc x hx
  · exact fun h => ⟨b', h, rfl⟩

theorem twinStep_iff (kernel : Nat) (s : Sys) (a : Act) (K : Nat → Prop) (b' : Nat → BitVec 8) :
    (∃ b, (∀ x, K x → b x = s.vm.bytes x) ∧ Stirred (a.run kernel (s.holding b)) ((a.run kernel s).holding b')) ↔
      ∀ x, (K x ∨ ∃ c ∈ a.copies kernel s, c.Covers x) ∧ ¬Free (a.run kernel s) (x / 4096) →
        b' x = (a.run kernel s).vm.bytes x := by
  have hfixes := putAll_fixes (a.copies kernel s)
  simp only [Act.run_holding, stirred_iff, Act.run_bytes]
  constructor
  · rintro ⟨b, hb, hstirred⟩ x ⟨hx, hfree⟩
    rw [hstirred x hfree]
    exact (hfixes.agree_iff K s.vm.bytes _).mp ⟨b, hb, rfl⟩ x hx
  · intro hb'
    classical
    -- before the free pages change, these have what they have in the first run
    obtain ⟨b, hb, hput⟩ := (hfixes.agree_iff K s.vm.bytes fun x =>
      if Free (a.run kernel s) (x / 4096) then putAll (a.copies kernel s) s.vm.bytes x else b' x).mpr (by
        intro x hx
        split
        · rfl
        · rename_i hfree
          exact hb' x ⟨hx, hfree⟩)
    refine ⟨b, hb, fun x hfree => ?_⟩
    rw [hput]
    exact (if_neg hfree).symm

theorem twins_iff (kernel : Nat) (s : Sys) (K : Nat → Prop) (acts : List Act) (t' : Sys) :
    (∃ b, (∀ x, K x → b x = s.vm.bytes x) ∧ Run (TwinStep kernel) (s, s.holding b) acts (runs kernel s acts, t')) ↔
      ∃ b', (∀ x, knownAfter kernel s K acts x → b' x = (runs kernel s acts).vm.bytes x) ∧
        t' = (runs kernel s acts).holding b' := by
  induction acts generalizing s K with
  | nil =>
    constructor
    · rintro ⟨b, hb, hrun⟩
      cases hrun
      exact ⟨b, hb, rfl⟩
    · rintro ⟨b, hb, rfl⟩
      exact ⟨b, hb, Run.nil _⟩
  | cons a acts ih =>
    rw [knownAfter, show runs kernel s (a :: acts) = runs kernel (a.run kernel s) acts from rfl, ← ih]
    constructor
    · rintro ⟨b, hb, hrun⟩
      cases hrun with
      | @cons _ q _ _ _ hstep hrest =>
        obtain ⟨q, q'⟩ := q
        obtain ⟨rfl, b₁, hb₁, rfl⟩ := hstep
        have hstirred : Stirred (a.run kernel (s.holding b)) ((a.run kernel s).holding b₁) := by
          rw [Act.run_holding] at hb₁ ⊢
          exact ⟨b₁, hb₁, rfl⟩
        rw [Act.run_holding] at hrest
        exact ⟨b₁, (twinStep_iff kernel s a K b₁).mp ⟨b, hb, hstirred⟩, hrest⟩
    · rintro ⟨b₁, hb₁, hrest⟩
      obtain ⟨b, hb, hstirred⟩ := (twinStep_iff kernel s a K b₁).mpr hb₁
      exact ⟨b, hb, Run.cons ⟨rfl, hstirred⟩ hrest⟩

theorem twins_agree_iff (kernel : Nat) (s : Sys) (acts : List Act) (t' : Sys) :
    Twins kernel s acts t' ↔ ∃ b', (∀ x, Known kernel s acts x → b' x = (runs kernel s acts).vm.bytes x) ∧
      t' = (runs kernel s acts).holding b' := by
  rw [Known, ← twins_iff]
  constructor
  · rintro ⟨_, ⟨b, hb, rfl⟩, hrun⟩
    exact ⟨b, hb, hrun⟩
  · rintro ⟨b, hb, hrun⟩
    exact ⟨_, ⟨b, hb, rfl⟩, hrun⟩

theorem Stirred.twins {s s' : Sys} (h : Stirred s s') (kernel : Nat) (acts : List Act) :
    Twins kernel s acts (runs kernel s' acts) := by
  refine ⟨s', h, ?_⟩
  clear h
  induction acts generalizing s s' with
  | nil => exact Run.nil _
  | cons a acts ih => exact Run.cons ⟨rfl, (a.run kernel s').vm.bytes, fun _ _ => rfl, rfl⟩ (ih (s := a.run kernel s))

/-! ## What is known -/

theorem knownAfter_append (kernel : Nat) (s : Sys) (K : Nat → Prop) (acts acts' : List Act) :
    knownAfter kernel s K (acts ++ acts') =
      knownAfter kernel (runs kernel s acts) (knownAfter kernel s K acts) acts' := by
  induction acts generalizing s K with
  | nil => rfl
  | cons a acts ih => exact ih _ _

theorem not_known_of_free {kernel : Nat} {s : Sys} {acts : List Act} {x : Nat}
    (h : Free (runs kernel s acts) (x / 4096)) : ¬Known kernel s acts x := by
  unfold Known
  rcases List.eq_nil_or_concat acts with rfl | ⟨acts, a, rfl⟩
  · exact fun hfree => hfree h
  · rw [List.concat_eq_append] at h ⊢
    rw [knownAfter_append]
    intro hknown
    rw [runs, List.foldl_append] at h
    exact hknown.2 h

theorem known_given {kernel : Nat} {s : Sys} {acts : List Act} {a : Act} {x : Nat}
    (h : Free (runs kernel s acts) (x / 4096)) :
    Known kernel s (acts ++ [a]) x ↔
      (∃ c ∈ a.copies kernel (runs kernel s acts), c.Covers x) ∧ ¬Free (runs kernel s (acts ++ [a])) (x / 4096) := by
  have hbefore : ¬knownAfter kernel s (fun x => ¬Free s (x / 4096)) acts x := not_known_of_free h
  have hlast : runs kernel s (acts ++ [a]) = a.run kernel (runs kernel s acts) := List.foldl_append
  rw [Known, knownAfter_append, hlast]
  exact and_congr_left fun _ => or_iff_right hbefore

/-! ## What a process reads -/

/-- The physical address that the process in slot `k` reads at `v`, if the page is mapped for ring 3. -/
def readAt (s : Sys) (k : Nat) (v : BitVec 64) : Option Nat :=
  if userPage s.vm (s.procs k).cr3 v then (lookup s.vm (s.procs k).cr3 v).map fun w => pfn w * 4096 + v.toNat % 4096
  else none

def readByte (s : Sys) (k : Nat) (v : BitVec 64) : Option (BitVec 8) := (readAt s k v).map s.vm.bytes

/-- Two processes read the same byte exactly where it has been written since its page was free. -/
theorem read_same_iff (kernel : Nat) (s : Sys) (acts : List Act) (k : Nat) (v : BitVec 64) :
    (∀ t', Twins kernel s acts t' → readByte t' k v = readByte (runs kernel s acts) k v) ↔
      ∀ x ∈ readAt (runs kernel s acts) k v, Known kernel s acts x := by
  have : Nontrivial (BitVec 8) := ⟨0, 1, by decide⟩
  have hsame := (Fixes.id (β := BitVec 8)).known_iff (Known kernel s acts) (runs kernel s acts).vm.bytes
  simp only [or_false] at hsame
  have hall : (∀ t', Twins kernel s acts t' → readByte t' k v = readByte (runs kernel s acts) k v) ↔
      ∀ b', (∀ x, Known kernel s acts x → b' x = (runs kernel s acts).vm.bytes x) →
        (readAt (runs kernel s acts) k v).map b' = readByte (runs kernel s acts) k v := by
    simp only [twins_agree_iff]
    exact ⟨fun h b' hb' => h _ ⟨b', hb', rfl⟩, fun h t' ⟨b', hb', ht'⟩ => ht' ▸ h b' hb'⟩
  rw [hall, readByte]
  cases readAt (runs kernel s acts) k v with
  | none => simp
  | some x => simpa using hsame x

/-- The pages of `SYS_MMAP` show what they held before, in each byte. -/
theorem mmap_inherits {kernel : Nat} {s : Sys} {acts : List Act} {a1 : BitVec 64} {k x : Nat} {v : BitVec 64}
    (hfree : Free (runs kernel s acts) (x / 4096))
    (hat : readAt (runs kernel s (acts ++ [.mmap a1])) k v = some x) :
    ∃ t', Twins kernel s (acts ++ [.mmap a1]) t' ∧
      readByte t' k v ≠ readByte (runs kernel s (acts ++ [.mmap a1])) k v := by
  by_contra hnone
  have hsame : ∀ t', Twins kernel s (acts ++ [.mmap a1]) t' →
      readByte t' k v = readByte (runs kernel s (acts ++ [.mmap a1])) k v :=
    fun t' ht => by_contra fun hne => hnone ⟨t', ht, hne⟩
  have hknown := (read_same_iff kernel s _ k v).mp hsame x hat
  obtain ⟨⟨c, hc, -⟩, -⟩ := (known_given hfree).mp hknown
  exact absurd hc (List.not_mem_nil)

/-- A process with one byte of code and no arguments, which then maps a page. -/
def inheriting : List Act := [.createUserArgs (some 0x200020) (fun _ => 0xC3) 1 (fun _ => 0) [], .start 0, .mmap 1]

/-- The same after boot, where the free pages hold ones. -/
def dirtySys (total : Nat) : Sys :=
  (freshSys total).holding fun x => if Free (freshSys total) (x / 4096) then 1 else (freshSys total).vm.bytes x

theorem dirtySys_stirred (total : Nat) : Stirred (freshSys total) (dirtySys total) := ⟨_, fun _ hx => if_neg hx, rfl⟩

/-- After its byte of code, on its stack and in the mapped page, the process reads what the free pages held. -/
theorem pages_inherited :
    ∃ t', Booted 1 (fun f => f < 2) [] (freshSys 32) ∧ Admits Act.Allowed (Act.run 1) (freshSys 32) inheriting ∧
      Twins 1 (freshSys 32) inheriting t' ∧
      (readByte t' 0 0x200000000001 = some 1 ∧ readByte (runs 1 (freshSys 32) inheriting) 0 0x200000000001 = some 0) ∧
      (readByte t' 0 0x200000011000 = some 1 ∧ readByte (runs 1 (freshSys 32) inheriting) 0 0x200000011000 = some 0) ∧
      readByte t' 0 0x200000031000 = some 1 ∧ readByte (runs 1 (freshSys 32) inheriting) 0 0x200000031000 = some 0 := by
  refine ⟨runs 1 (dirtySys 32) inheriting, freshSys_booted (by decide), by decide +kernel,
    (dirtySys_stirred 32).twins 1 inheriting, ⟨?_, ?_⟩, ⟨?_, ?_⟩, ?_, ?_⟩
  · decide +kernel
  · decide +kernel
  · decide +kernel
  · decide +kernel
  · decide +kernel
  · decide +kernel

end Siathos.Proc.Argv
