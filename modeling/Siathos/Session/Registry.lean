import Mathlib.Data.List.Dedup
import Siathos.Session.Services

/-!
# Room in the registry

The registry has 16 entries. An entry of a process that has ended is free again only once somebody
looks its name up, so that names nobody serves can fill the registry.
-/

open Lib Siathos.Nomos Siathos.Ipc Siathos.Syscall

namespace Siathos.Ipc

/-! ## When a registration succeeds -/

theorem svcUpdate_isSome (name : List UInt8) (pid : Nat) (t : SvcTable) :
    (svcUpdate name pid t).isSome = t.any fun e => e.active && decide (e.name = name) := by
  induction t with
  | nil => rfl
  | cons e rest ih =>
    unfold svcUpdate
    split
    · next h => simp [h]
    · next h =>
      rw [Option.isSome_map, ih, List.any_cons]
      simp [h]

theorem svcInsert_isSome (name : List UInt8) (pid : Nat) (t : SvcTable) :
    (svcInsert name pid t).isSome = t.any fun e => !e.active := by
  induction t with
  | nil => rfl
  | cons e rest ih =>
    unfold svcInsert
    split
    · next h => simp [h]
    · next h =>
      rw [Option.isSome_map, ih, List.any_cons]
      simp [h]

theorem svcRegister_isSome {name : List UInt8} {pid : Nat} {t : SvcTable} :
    (svcRegister t name pid).isSome = true ↔
      name ≠ [] ∧ ∃ e ∈ t, e.active = false ∨ e.name = name := by
  unfold svcRegister
  split
  · next h => simp [h]
  · next h =>
    rw [Option.orElse_eq_or, Option.isSome_or, svcUpdate_isSome, svcInsert_isSome, Bool.or_eq_true, List.any_eq_true,
      List.any_eq_true]
    simp only [Bool.and_eq_true, decide_eq_true_eq, Bool.not_eq_true']
    constructor
    · rintro (⟨e, he, -, hname⟩ | ⟨e, he, hfree⟩)
      · exact ⟨h, e, he, .inr hname⟩
      · exact ⟨h, e, he, .inl hfree⟩
    · rintro ⟨-, e, he, hor⟩
      cases hactive : e.active with
      | false => exact .inr ⟨e, he, hactive⟩
      | true => exact .inl ⟨e, he, hactive, by simpa [hactive] using hor⟩

/-! ## The registry keeps its size -/

theorem svcUpdate_length {name : List UInt8} {pid : Nat} {t t' : SvcTable}
    (h : svcUpdate name pid t = some t') : t'.length = t.length := by
  induction t generalizing t' with
  | nil => simp [svcUpdate] at h
  | cons e rest ih =>
    unfold svcUpdate at h
    split at h
    · obtain rfl := Option.some.inj h
      rfl
    · obtain ⟨rest', hr, rfl⟩ := Option.map_eq_some_iff.mp h
      simp [ih hr]

theorem svcInsert_length {name : List UInt8} {pid : Nat} {t t' : SvcTable}
    (h : svcInsert name pid t = some t') : t'.length = t.length := by
  induction t generalizing t' with
  | nil => simp [svcInsert] at h
  | cons e rest ih =>
    unfold svcInsert at h
    split at h
    · obtain rfl := Option.some.inj h
      rfl
    · obtain ⟨rest', hr, rfl⟩ := Option.map_eq_some_iff.mp h
      simp [ih hr]

theorem svcRegister_length {name : List UInt8} {pid : Nat} {t t' : SvcTable}
    (h : svcRegister t name pid = some t') : t'.length = t.length := by
  unfold svcRegister at h
  split at h
  · simp at h
  · rw [Option.orElse_eq_or, Option.or_eq_some_iff] at h
    rcases h with h | ⟨-, h⟩
    · exact svcUpdate_length h
    · exact svcInsert_length h

theorem svcLookup_length (alive : Nat → Bool) (name : List UInt8) (t : SvcTable) :
    (svcLookup alive name t).1.length = t.length := by
  induction t with
  | nil => rfl
  | cons e rest ih =>
    unfold svcLookup
    split
    · split <;> simp [ih]
    · simp [ih]

theorem svcQuery_length (alive : Nat → Bool) (t : SvcTable) (name : List UInt8) :
    (svcQuery alive t name).1.length = t.length := by
  unfold svcQuery
  split
  · rfl
  · exact svcLookup_length alive name t

/-! ## Names -/

theorem mem_holders {name : List UInt8} {t : SvcTable} {pid : Nat} :
    pid ∈ holders name t ↔ ∃ e ∈ t, e.active = true ∧ e.name = name ∧ e.pid = pid := by
  unfold holders
  simp [and_assoc]

theorem names_nodup {t : SvcTable} (h : ∀ name, (holders name t).length ≤ 1) :
    ((t.filter (·.active)).map (·.name)).Nodup := by
  induction t with
  | nil => simp
  | cons e rest ih =>
    have hrest : ∀ name, (holders name rest).length ≤ 1 := by
      intro name
      have hle := h name
      rw [holders_cons] at hle
      split at hle
      · rw [List.length_cons] at hle
        omega
      · exact hle
    cases hactive : e.active with
    | false => simpa [hactive] using ih hrest
    | true =>
      rw [List.filter_cons, if_pos hactive, List.map_cons, List.nodup_cons]
      refine ⟨fun hmem => ?_, ih hrest⟩
      obtain ⟨e', he', hname⟩ := List.mem_map.mp hmem
      obtain ⟨hmem', hactive'⟩ := List.mem_filter.mp he'
      have hheld : e'.pid ∈ holders e.name rest := mem_holders.mpr ⟨e', hmem', hactive', hname, rfl⟩
      have hle := h e.name
      rw [holders_cons, if_pos ⟨hactive, rfl⟩, List.length_cons] at hle
      have := List.length_pos_of_mem hheld
      omega

end Siathos.Ipc

namespace Siathos.Session

/-- The names with a registered process that runs. -/
def liveNames (s : Services) : List CStr :=
  (s.log.map (·.1)).dedup.filter fun name => (lastRegistrant s.log name).any (alive s.kernel)

/-- The entries of processes that run. -/
def liveEntries (s : Services) : SvcTable :=
  s.kernel.svcTable.filter fun e => e.active && alive s.kernel e.pid

variable {s : Services}

theorem mem_liveNames {name : CStr} :
    name ∈ liveNames s ↔ ∃ pid, lastRegistrant s.log name = some pid ∧ alive s.kernel pid = true := by
  unfold liveNames
  rw [List.mem_filter, List.mem_dedup, Option.any_eq_true]
  refine ⟨And.right, fun h => ⟨?_, h⟩⟩
  obtain ⟨pid, hlast, -⟩ := h
  obtain ⟨r, hr, -⟩ := Option.map_eq_some_iff.mp hlast
  have hname : r.1 = name := by simpa using List.find?_some hr
  exact List.mem_map.mpr ⟨r, List.mem_of_find?_eq_some hr, hname⟩

theorem mem_liveNames_entry (h : ServicesInv s) {name : CStr} :
    name ∈ liveNames s ↔ ∃ e ∈ liveEntries s, e.name = name := by
  rw [mem_liveNames]
  simp only [liveEntries, List.mem_filter, Bool.and_eq_true]
  constructor
  · rintro ⟨pid, hlast, halive⟩
    rcases h.holder name with ⟨-, hdead⟩ | ⟨q, hheld, hq⟩
    · exact absurd ((alive_iff h.pids pid).mp halive) (hdead pid hlast)
    · obtain rfl := Option.some.inj (hlast.symm.trans hq)
      obtain ⟨e, he, hactive, hname, rfl⟩ := mem_holders.mp (hheld ▸ List.mem_singleton_self pid)
      exact ⟨e, ⟨he, hactive, halive⟩, hname⟩
  · rintro ⟨e, ⟨he, hactive, halive⟩, rfl⟩
    have hmem : e.pid ∈ holders e.name s.kernel.svcTable := mem_holders.mpr ⟨e, he, hactive, rfl, rfl⟩
    rcases h.holder e.name with ⟨hnone, -⟩ | ⟨q, hheld, hq⟩
    · simp [hnone] at hmem
    · rw [hheld, List.mem_singleton] at hmem
      exact ⟨q, hq, hmem ▸ halive⟩

theorem liveNames_length (h : ServicesInv s) : (liveNames s).length = (liveEntries s).length := by
  have hsub : ((liveEntries s).map (·.name)).Sublist ((s.kernel.svcTable.filter (·.active)).map (·.name)) := by
    refine List.Sublist.map _ (List.monotone_filter_right _ fun e he => ?_)
    exact (Bool.and_eq_true_iff.mp he).1
  have hperm : (liveNames s).Perm ((liveEntries s).map (·.name)) := by
    refine (List.perm_ext_iff_of_nodup ?_ ((names_nodup h.one).sublist hsub)).mpr fun name => ?_
    · exact (List.nodup_dedup _).filter _
    · rw [mem_liveNames_entry h, List.mem_map]
  rw [hperm.length_eq, List.length_map]

theorem svcTable_length_apply (s : Services) (o : SvcOp) :
    (s.apply o).kernel.svcTable.length = s.kernel.svcTable.length := by
  cases o with
  | register cur name =>
    simp only [Services.apply]
    split
    · rfl
    · next ht => exact svcRegister_length ht
  | query name => exact svcQuery_length _ _ name
  | createArgv name rights stack =>
    simp only [Services.apply]
    rcases procCreateArgv_cases name rights stack s.kernel with hk | ⟨_, _, -, -, hk⟩
    all_goals
      rw [hk]
  | createUser cur name rights load =>
    simp only [Services.apply]
    rcases procCreateUserRegions_cases cur name rights load s.kernel with hk | ⟨_, _, _, -, -, -, -, -, hk⟩
    all_goals
      rw [hk]
  | wakeup pid => rfl
  | exit cur code => rfl
  | gc => rfl

theorem svcTable_length_run {k : Kernel} {ops : List SvcOp}
    (h : Run (Exec SvcAllowed Services.apply) (Services.start k) ops s) : s.kernel.svcTable.length = svcMax := by
  have hstep : ∀ (s : Services) (o : SvcOp) (t : Services), s.kernel.svcTable.length = svcMax →
      Exec SvcAllowed Services.apply s o t → t.kernel.svcTable.length = svcMax :=
    fun s o _ hs ⟨_, ht⟩ => ht ▸ (svcTable_length_apply s o).trans hs
  exact h.invariant hstep List.length_replicate

/-- All entries are taken, each by a process that runs. -/
def Crowded (s : Services) : Prop :=
  ∀ e ∈ s.kernel.svcTable, e.active = true ∧ alive s.kernel e.pid = true

theorem crowded_iff (h : ServicesInv s) (hlen : s.kernel.svcTable.length = svcMax) :
    Crowded s ↔ ¬ (liveNames s).length < svcMax := by
  have hle : (liveEntries s).length ≤ s.kernel.svcTable.length := List.length_filter_le _ _
  have hfull : (liveEntries s).length = s.kernel.svcTable.length ↔ Crowded s := by
    unfold liveEntries Crowded
    rw [List.length_filter_eq_length_iff]
    simp only [Bool.and_eq_true]
  rw [← hfull, liveNames_length h]
  omega

/-- A name can be registered while an entry is free or has the name, and a full table is one of living processes. -/
theorem svcRegister_room {k : Kernel} {ops : List SvcOp}
    (h : Run (Exec SvcAllowed Services.apply) (Services.start k) ops s) (name : CStr) (pid : Nat) :
    ((liveNames s).length < svcMax → (svcRegister s.kernel.svcTable name pid).isSome = true) ↔
      (name ≠ [] ∧ ∃ e ∈ s.kernel.svcTable, e.active = false ∨ e.name = name) ∨ Crowded s := by
  rw [crowded_iff (servicesInv_run h) (svcTable_length_run h), svcRegister_isSome]
  exact imp_iff_or_not

theorem svcRegister_room_twice :
    let s := fsdTwice.foldl Services.apply (Services.start (boot [] synallagmaInit).kernel)
    ((liveNames s).length < svcMax → (svcRegister s.kernel.svcTable (ascii "devd") 2).isSome = true) ↔
      (ascii "devd" ≠ [] ∧ ∃ e ∈ s.kernel.svcTable, e.active = false ∨ e.name = ascii "devd") ∨ Crowded s := by
  have hadmits : Admits SvcAllowed Services.apply (Services.start (boot [] synallagmaInit).kernel)
      fsdTwice := by decide +kernel
  exact svcRegister_room (Run.of_admits hadmits) (ascii "devd") 2

/-- A process registers 16 names and ends. -/
def sixteenOnce : List SvcOp :=
  [.createArgv (ascii "a") 0 true, .createArgv (ascii "b") 0 true] ++
    (ascii "abcdefghijklmnop").map (fun c => .register 0 [c]) ++ [.exit 0 0, .gc]

/-- Nobody serves a name, and there is no room for one. -/
theorem svcRegister_crowded_out :
    ∃ s, Run (Exec SvcAllowed Services.apply) (Services.start (boot [] synallagmaInit).kernel) sixteenOnce s ∧
      Live (s.kernel.proc 1) ∧ liveNames s = [] ∧
      svcRegister s.kernel.svcTable (ascii "fsd") (s.kernel.proc 1).pid = none :=
  ⟨_, Run.of_admits (by decide +kernel), ⟨by decide +kernel, by decide +kernel⟩, by decide +kernel, by decide +kernel⟩

end Siathos.Session
