import Mathlib.Data.List.Basic

/-!
# The service registry (`svc.c`)

Names are C strings: the bytes before the NUL.
-/

namespace Siathos.Ipc

def svcMax : Nat := 16

/-- `svc_entry_t`. -/
structure SvcEntry where
  name : List UInt8
  pid : Nat
  active : Bool
  deriving DecidableEq, Repr

abbrev SvcTable := List SvcEntry

def svcInit : SvcTable := List.replicate svcMax ⟨[], 0, false⟩

/-- The first loop of `svc_register`: an active entry of that name gets the new pid. -/
def svcUpdate (name : List UInt8) (pid : Nat) : SvcTable → Option SvcTable
  | [] => none
  | e :: rest =>
    if e.active && decide (e.name = name) then some ({ e with pid } :: rest)
    else (svcUpdate name pid rest).map (e :: ·)

/-- The second loop: the first inactive entry is taken. -/
def svcInsert (name : List UInt8) (pid : Nat) : SvcTable → Option SvcTable
  | [] => none
  | e :: rest =>
    if !e.active then some (⟨name.take 31, pid, true⟩ :: rest)
    else (svcInsert name pid rest).map (e :: ·)

/-- `svc_register` by the process `pid`. Nothing where it returns an error. -/
def svcRegister (t : SvcTable) (name : List UInt8) (pid : Nat) : Option SvcTable :=
  if name = [] then none else (svcUpdate name pid t).orElse fun _ => svcInsert name pid t

/-- The loop of `svc_query`: an entry whose process is gone is dropped on the way. -/
def svcLookup (alive : Nat → Bool) (name : List UInt8) : SvcTable → SvcTable × Option Nat
  | [] => ([], none)
  | e :: rest =>
    if e.active && decide (e.name = name) then
      if alive e.pid then (e :: rest, some e.pid)
      else
        let r := svcLookup alive name rest
        ({ e with active := false } :: r.1, r.2)
    else
      let r := svcLookup alive name rest
      (e :: r.1, r.2)

/-- `svc_query`. -/
def svcQuery (alive : Nat → Bool) (t : SvcTable) (name : List UInt8) : SvcTable × Option Nat :=
  if name = [] then (t, none) else svcLookup alive name t

/-! ## Whose pids the table holds -/

/-- Every active entry is of a process with the property. -/
def Registered (ok : Nat → Prop) (t : SvcTable) : Prop := ∀ e ∈ t, e.active = true → ok e.pid

theorem registered_init (ok : Nat → Prop) : Registered ok svcInit := by
  intro e he hactive
  rw [List.eq_of_mem_replicate he] at hactive
  exact Bool.noConfusion hactive

theorem svcUpdate_registered {ok : Nat → Prop} {name : List UInt8} {pid : Nat} (hpid : ok pid)
    {t t' : SvcTable} (h : svcUpdate name pid t = some t') (ht : Registered ok t) :
    Registered ok t' := by
  induction t generalizing t' with
  | nil => simp [svcUpdate] at h
  | cons e rest ih =>
    obtain ⟨he, hrest⟩ := List.forall_mem_cons.mp ht
    unfold svcUpdate at h
    split at h
    · obtain rfl := Option.some.inj h
      exact List.forall_mem_cons.mpr ⟨fun _ => hpid, hrest⟩
    · obtain ⟨rest', hr, rfl⟩ := Option.map_eq_some_iff.mp h
      exact List.forall_mem_cons.mpr ⟨he, ih hr hrest⟩

theorem svcInsert_registered {ok : Nat → Prop} {name : List UInt8} {pid : Nat} (hpid : ok pid)
    {t t' : SvcTable} (h : svcInsert name pid t = some t') (ht : Registered ok t) :
    Registered ok t' := by
  induction t generalizing t' with
  | nil => simp [svcInsert] at h
  | cons e rest ih =>
    obtain ⟨he, hrest⟩ := List.forall_mem_cons.mp ht
    unfold svcInsert at h
    split at h
    · obtain rfl := Option.some.inj h
      exact List.forall_mem_cons.mpr ⟨fun _ => hpid, hrest⟩
    · obtain ⟨rest', hr, rfl⟩ := Option.map_eq_some_iff.mp h
      exact List.forall_mem_cons.mpr ⟨he, ih hr hrest⟩

theorem svcRegister_registered {ok : Nat → Prop} {name : List UInt8} {pid : Nat} (hpid : ok pid)
    {t t' : SvcTable} (h : svcRegister t name pid = some t') (ht : Registered ok t) :
    Registered ok t' := by
  unfold svcRegister at h
  split at h
  · simp at h
  · cases hu : svcUpdate name pid t with
    | some u =>
      rw [hu] at h
      obtain rfl := Option.some.inj h
      exact svcUpdate_registered hpid hu ht
    | none =>
      rw [hu] at h
      exact svcInsert_registered hpid h ht

theorem svcLookup_registered {ok : Nat → Prop} {alive : Nat → Bool} {name : List UInt8}
    {t : SvcTable} (ht : Registered ok t) :
    Registered ok (svcLookup alive name t).1 ∧ ∀ pid ∈ (svcLookup alive name t).2, ok pid := by
  induction t with
  | nil => exact ⟨ht, by simp [svcLookup]⟩
  | cons e rest ih =>
    obtain ⟨he, hrest⟩ := List.forall_mem_cons.mp ht
    obtain ⟨ihtable, ihpid⟩ := ih hrest
    unfold svcLookup
    split
    case isTrue hname =>
      have hactive : e.active = true := by
        rw [Bool.and_eq_true] at hname
        exact hname.1
      split
      · refine ⟨ht, ?_⟩
        rintro pid ⟨⟩
        exact he hactive
      · exact ⟨List.forall_mem_cons.mpr ⟨fun h => Bool.noConfusion h, ihtable⟩, ihpid⟩
    case isFalse => exact ⟨List.forall_mem_cons.mpr ⟨he, ihtable⟩, ihpid⟩

theorem svcQuery_registered {ok : Nat → Prop} {alive : Nat → Bool} {name : List UInt8}
    {t : SvcTable} (ht : Registered ok t) :
    Registered ok (svcQuery alive t name).1 ∧ ∀ pid ∈ (svcQuery alive t name).2, ok pid := by
  unfold svcQuery
  split
  · exact ⟨ht, by simp⟩
  · exact svcLookup_registered ht

end Siathos.Ipc
