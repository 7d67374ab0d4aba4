import Siathos.Proc.Atomic
import Siathos.Proc.Bytes
import Siathos.Proc.Rooted

/-!
# Conservation of the resources of processes

What a process holds is returned once, when it is collected. That takes a collection before its slot is given to another
process, and that no page is lost on the way.
-/

open Lib Siathos.Paging

namespace Siathos.Proc.Memory

/-- Whatever is in use belongs to the kernel or to a process in the table, and nothing was returned that was not in use.
The active address space is in use. -/
structure Conserved (slots : Nat → Bool) (kernel : Nat) (boot : Nat → Prop) (others : List Nat) (s : Sys) : Prop where
  pages : ∀ f, s.vm.pmm.used f = true ↔
    (boot f ∨ f ∈ s.chunks) ∨ ∃ i, (s.procs i).present = true ∧ f ∈ owned slots s i
  kernelApart : ∀ i f, (s.procs i).present = true → f ∈ owned slots s i → ¬ (boot f ∨ f ∈ s.chunks)
  apart : ∀ i j f, (s.procs i).present = true → (s.procs j).present = true → f ∈ owned slots s i → f ∈ owned slots s j →
    i = j
  nodup : ∀ i, (s.procs i).present = true → (owned slots s i).Nodup
  blocks : s.blocks.Perm (kernelStacks s ++ others)
  once : s.vm.pmm.doubled = false ∧ s.stray = false
  active : s.active = kernel ∨ ∃ i, (s.procs i).present = true ∧ (s.procs i).cr3 = s.active

/-- An ended process whose slot becomes absent, or another process's, has returned its pages, and was not active. -/
def Returned (slots : Nat → Bool) (s t : Sys) : Prop :=
  ∀ i, (s.procs i).present = true → (s.procs i).terminated = true →
    ((t.procs i).present = false ∨ (t.procs i).pid ≠ (s.procs i).pid) →
    (s.procs i).cr3 ≠ s.active ∧ ∀ f ∈ owned slots s i, t.vm.pmm.used f = false

/-- Nothing that the code does not look at or does not give back is refused, slots are taken when they are
empty, code and segments are not longer than their pages, and pages are mapped where no memory is mapped. -/
def Careful (slots : Nat → Bool) (kernel : Nat) (s : Sys) : Op → Prop
  | .createArgv room => SlotEmpty s ∧ .pml4 ∉ refusals s (createArgv kernel room s).1
  | .createUserArgs room userCode userSize zone => SlotEmpty s ∧ userSize ≤ codePages userSize * 0x1000 ∧
    let r := refusals s (createUserArgs kernel room userCode userSize zone s).1
    .table ∉ r ∧ .code ∉ r ∧ .userStack ∉ r
  | .createUserRegions room img regs zone => 0 < regs.length ∧ regs.length ≤ 7 → SlotEmpty s ∧
    (Own slots (regionsUmap regs) ∧ Disjoint (regionsUmap regs)) ∧ (∀ g ∈ loadable s.vm.pmm.total regs, g.Fits) ∧
    let r := refusals s (createUserRegions kernel room img regs zone s).1
    .table ∉ r ∧ .code ∉ r ∧ .userStack ∉ r
  | .mmap a1 => Mmaps s a1 → Vacant slots s (mmapAt s) (mmapCount a1)
  | .devMap a1 a2 => DevMaps s a1 a2 → Vacant slots s (devMapAt s) (devMapCount a2)
  | _ => True

/-- No processes yet. -/
structure Booted (kernel : Nat) (boot : Nat → Prop) (others : List Nat) (s : Sys) : Prop where
  machine : Machine kernel s.vm
  used : ∀ f, s.vm.pmm.used f = true ↔ boot f
  absent : ∀ i, (s.procs i).present = false
  blocks : s.blocks = others
  idle : s.running = false ∧ s.active = kernel
  ghost : s.vm.pmm.doubled = false ∧ s.stray = false ∧ s.chunks = []

/-- Pages of `boot` and of the heap are in no tree, and all others that are in use are in the tree of a process in the
table. `others` are the blocks that are no kernel stacks. -/
structure Ledger (slots : Nat → Bool) (kernel : Nat) (boot : Nat → Prop) (others : List Nat) (s : Sys) : Prop
    extends Rooted slots kernel (fun f => boot f ∨ f ∈ s.chunks) s where
  doubled : s.vm.pmm.doubled = false
  stray : s.stray = false
  blocks : s.blocks.Perm (kernelStacks s ++ others)
  bound : ∀ i, (s.procs i).present = true → i < maxProcs
  stack : ∀ i, (s.procs i).present = true → (s.procs i).stack ≠ 0

section

variable {slots : Nat → Bool} {kernel : Nat} {boot : Nat → Prop} {others : List Nat} {s t : Sys}

/-! ## The ledger says it all -/

theorem mem_owned {i f : Nat} (h : (s.procs i).present = true) :
    f ∈ owned slots s i ↔ ∃ q, (own slots).Ok q ∧ seat (roots s) s.vm i q = some f :=
  mem_treeOf (roots_some h)

theorem seat_present {i f : Nat} {q : List Nat} (h : seat (roots s) s.vm i q = some f) :
    (s.procs i).present = true := by
  cases hr : roots s i with
  | some r => exact roots_present hr
  | none =>
    rw [seat, Radix.seat, hr] at h
    cases h

theorem Ledger.conserved (h : Ledger slots kernel boot others s) : Conserved slots kernel boot others s := by
  refine ⟨fun f => ?_, fun i f hi hf => ?_, fun i j f hi hj hf hf' => ?_,
    fun i hi => nodup_treeOf h.space (roots_some hi), h.blocks, ⟨h.doubled, h.stray⟩, ?_⟩
  · rw [h.space.used]
    refine or_congr_right ⟨?_, ?_⟩
    · rintro ⟨i, q, hq, hs⟩
      exact ⟨i, seat_present hs, (mem_owned (seat_present hs)).mpr ⟨q, hq, hs⟩⟩
    · rintro ⟨i, hi, hf⟩
      exact ⟨i, (mem_owned hi).mp hf⟩
  · obtain ⟨q, hq, hs⟩ := (mem_owned hi).mp hf
    exact fun hb => h.space.apart f hb i q hq hs
  · obtain ⟨q, hq, hs⟩ := (mem_owned hi).mp hf
    obtain ⟨q', hq', hs'⟩ := (mem_owned hj).mp hf'
    exact (h.space.unshared i q j q' f hq hq' hs hs').1
  · cases hrun : s.running with
    | false => exact .inl (h.idle hrun)
    | true => exact .inr ⟨s.current, (h.current hrun).1.2.1, (h.current hrun).2⟩

theorem Booted.rooted (h : Booted kernel boot others s) :
    Rooted (kernelSlots kernel s.vm) kernel (fun f => boot f ∨ f ∈ s.chunks) s := by
  have hroots : roots s = fun _ => none := by
    funext i
    rw [roots, if_neg (by simp [h.absent i])]
  refine ⟨?_, fun hrun => ?_, fun _ => h.idle.2⟩
  · rw [hroots]
    refine h.machine.space.base_congr fun f => ?_
    rw [h.used, h.ghost.2.2]
    simp
  · rw [h.idle.1] at hrun
    cases hrun

theorem Booted.ledger (h : Booted kernel boot others s) : Ledger (kernelSlots kernel s.vm) kernel boot others s := by
  have hnone : kernelStacks s = [] := List.flatMap_eq_nil_iff.mpr fun i _ => if_neg (by simp [h.absent i])
  refine ⟨h.rooted, h.ghost.1, h.ghost.2.1, ?_, fun i hi => ?_, fun i hi => ?_⟩
  · rw [h.blocks, hnone, List.nil_append]
  · rw [h.absent i] at hi
    cases hi
  · rw [h.absent i] at hi
    cases hi

/-! ## Steps that change no owner -/

theorem Ledger.keep (h : Ledger slots kernel boot others s)
    (ht : Rooted slots kernel (fun f => boot f ∨ f ∈ t.chunks) t)
    (hprocs : ∀ i, (t.procs i).present = (s.procs i).present ∧ (t.procs i).stack = (s.procs i).stack)
    (hdoubled : t.vm.pmm.doubled = s.vm.pmm.doubled) (hstray : t.stray = s.stray) (hblocks : t.blocks = s.blocks) :
    Ledger slots kernel boot others t := by
  have hheld : held t = held s := by
    funext i
    rw [held, held, (hprocs i).1, (hprocs i).2]
  refine ⟨ht, hdoubled.trans h.doubled, hstray.trans h.stray, ?_, fun i hi => ?_, fun i hi => ?_⟩
  · rw [hblocks, kernelStacks, hheld]
    exact h.blocks
  · rw [(hprocs i).1] at hi
    exact h.bound i hi
  · rw [(hprocs i).1] at hi
    rw [(hprocs i).2]
    exact h.stack i hi

theorem Sys.set_entry {i : Nat} {p : Pcb} (hp : p.present = (s.procs i).present ∧ p.stack = (s.procs i).stack)
    (j : Nat) :
    ((s.set i p).procs j).present = (s.procs j).present ∧ ((s.set i p).procs j).stack = (s.procs j).stack := by
  rcases eq_or_ne j i with rfl | hne
  · rw [Sys.set_same]
    exact hp
  · rw [Sys.set_other p hne]
    exact ⟨rfl, rfl⟩

/-! ## Creation -/

theorem Ledger.fill (h : Ledger slots kernel boot others s) {idx : Nat} {p : Pcb} (hfound : findFree s = some idx)
    (habsent : (s.procs idx).present = false) (hprocs : t.procs = (s.set idx p).procs)
    (hspace : Space slots kernel (Function.update (roots s) idx (if p.present then some p.cr3 else none))
      (fun f => boot f ∨ f ∈ t.chunks) t.vm) (hdoubled : t.vm.pmm.doubled = s.vm.pmm.doubled)
      (hstray : t.stray = s.stray)
    (hblocks : t.blocks = (if p.present then [p.stack] else []) ++ s.blocks) (hstack : p.present = true → p.stack ≠ 0)
    (hsched : t.current = s.current ∧ t.active = s.active ∧ t.running = s.running) :
    Ledger slots kernel boot others t := by
  have hother : ∀ i, i ≠ idx → t.procs i = s.procs i := fun i hne => by rw [hprocs, Sys.set_other p hne]
  have hsame : t.procs idx = p := by rw [hprocs, Sys.set_same]
  have hidx := (findFree_spec hfound).1
  refine ⟨h.toRooted.fill hfound hprocs hspace hsched, hdoubled.trans h.doubled, hstray.trans h.stray, ?_,
    fun i hi => ?_,
    fun i hi => ?_⟩
  · obtain ⟨rest, hs, ht⟩ := kernelStacks_split hidx hother
    have hnone : held s idx = [] := if_neg (by simp [habsent])
    have hone : held t idx = if p.present then [p.stack] else [] := by rw [held, hsame]
    rw [hnone, List.nil_append] at hs
    rw [hone] at ht
    rw [hblocks]
    have hold := h.blocks.trans (hs.append_right others)
    have hnew := ht.append_right others
    rw [List.append_assoc] at hnew
    exact (hold.append_left _).trans hnew.symm
  · rcases eq_or_ne i idx with rfl | hne
    · exact hidx
    · rw [hother i hne] at hi
      exact h.bound i hi
  · rcases eq_or_ne i idx with rfl | hne
    · rw [hsame] at hi ⊢
      exact hstack hi
    · rw [hother i hne] at hi ⊢
      exact h.stack i hi

theorem roots_none {idx : Nat} (h : (s.procs idx).present = false) : Function.update (roots s) idx none = roots s := by
  have hnone : roots s idx = none := if_neg (by simp [h])
  rw [← hnone, Function.update_eq_self]

theorem Ledger.giveUp (h : Ledger slots kernel boot others s) {room : Option Nat} {idx stack : Nat} {s' : Sys} {p : Pcb}
    (hfound : findFree s = some idx) (hempty : SlotEmpty s)
    (hs : Stacked room { s with nextPid := s.nextPid + 1 } s' stack)
    {vm : Vm} (hspace : Space slots kernel (roots s) (fun f => boot f ∨ f ∈ s'.chunks) vm)
    (hdoubled : vm.pmm.doubled = s.vm.pmm.doubled) (hp : p.present = false) :
    Ledger slots kernel boot others ((kfree stack { s' with vm }).set idx p) := by
  have habsent := hempty idx hfound
  have hblocks : ({ s' with vm } : Sys).blocks = stack :: s.blocks := hs.blocks
  rw [kfree_eq hs.ne hblocks]
  refine h.fill (p := p) hfound habsent ?_ ?_ hdoubled hs.stray ?_ (fun hpresent => ?_) hs.scheduling
  · funext i
    simp only [Sys.set, hs.procs]
  · rw [if_neg (by simp [hp]), roots_none habsent]
    exact hspace
  · rw [if_neg (by simp [hp])]
    rfl
  · rw [hp] at hpresent
    cases hpresent

theorem Ends.ledger (h : Ledger slots kernel boot others s) {room : Option Nat} {Called Cause : Prop}
    {umap given : List Region}
    {Flags : BitVec 64 → Prop} {e : Int} (hempty : SlotEmpty s) (hdisjoint : Disjoint umap)
    (hr : .table ∉ refusals s t ∧ .code ∉ refusals s t ∧ .userStack ∉ refusals s t)
    (hends : Ends slots kernel (roots s)
    (fun s' f => boot f ∨ f ∈ s'.chunks) room s Called Cause umap given Flags t e) :
    Ledger slots kernel boot others t := by
  cases hends with
  | early _ _ => exact h
  | @noStack idx p _ hfound hp =>
    have habsent := hempty _ hfound
    refine h.fill (p := p) hfound habsent rfl ?_ rfl rfl ?_ (fun hpresent => ?_) ⟨rfl, rfl, rfl⟩
    · rw [if_neg (by simp [hp]), roots_none habsent]
      exact h.space.refuse _
    · rw [if_neg (by simp [hp])]
      rfl
    · rw [hp] at hpresent
      cases hpresent
  | noSpace _ hfound hs hp => exact h.giveUp hfound hempty hs ((hs.space h.space).refuse _) hs.doubled hp
  | @undone idx stack pm s' m m' base' l done Flags' p e _ hb hloads hpre hwhy _ hp _ =>
    have habsent := hempty _ hb.found
    obtain ⟨hspace, htables, hfrees⟩ := freeAddressSpace_spec hloads.space hb.root
    have hR : refusals s ((kfree stack { s' with vm := freeAddressSpace kernel pm m' }).set idx p) = l := by
      refine hb.refusals_free ?_ p
      rw [hfrees.refused, hloads.refused]
    rw [hR] at hr
    refine h.giveUp hb.found hempty hb.stacked ?_ ?_ hp
    · rw [Function.update_idem, roots_none habsent] at hspace
      refine hspace.base_congr fun f => ?_
      refine (hloads.clean hr.1 (hdisjoint.sublist hpre.2.1.sublist) (fun u hu _ => ?_) f).symm
      rw [hb.opens.pte hu]
      exact next_absent present_zero
    · rw [hfrees.doubled, hloads.frames.doubled, hb.opens.doubled, hb.stacked.doubled]
  | @leaked idx stack pm s' m m' base' l done Flags' p e _ hb hloads hmem _ _ =>
    rw [hb.refusals_free hloads.refused p] at hr
    exact absurd hmem (not_or.mpr ⟨hr.2.1, hr.2.2⟩)
  | @made idx stack pm s' m m' base' l q _ hb hloads _ _ hpresent hq _ =>
    have habsent := hempty _ hb.found
    rw [hb.refusals_set hloads.refused q] at hr
    refine h.fill (p := q) hb.found habsent ?_ ?_ ?_ hb.stacked.stray ?_ (fun _ => ?_) hb.stacked.scheduling
    · funext i
      simp only [Sys.set, hb.stacked.procs]
    · rw [if_pos hpresent.1, hq.2]
      refine hloads.space.base_congr fun f => ?_
      refine (hloads.clean hr.1 hdisjoint (fun u hu _ => ?_) f).symm
      rw [hb.opens.pte hu]
      exact next_absent present_zero
    · change m'.pmm.doubled = _
      rw [hloads.frames.doubled, hb.opens.doubled, hb.stacked.doubled]
    · rw [if_pos hpresent.1, hq.1]
      exact hb.stacked.blocks
    · rw [hq.1]
      exact hb.stacked.ne

/-! ## What becomes of the processes in the table -/

/-- The processes in the table stay there. -/
def Keeps (s t : Sys) : Prop :=
  ∀ i, (s.procs i).present = true → (t.procs i).present = true ∧ (t.procs i).pid = (s.procs i).pid

theorem Keeps.refl (s : Sys) : Keeps s s := fun _ h => ⟨h, rfl⟩

theorem Keeps.returned (h : Keeps s t) : Returned slots s t := by
  intro i hi _ hgone
  obtain ⟨hpresent, hpid⟩ := h i hi
  rw [hpresent] at hgone
  exact absurd hpid (hgone.resolve_left (by simp))

theorem SlotEmpty.keeps (hempty : SlotEmpty s) {idx : Nat} (hfound : findFree s = some idx)
    (h : ∀ i, i ≠ idx → t.procs i = s.procs i) : Keeps s t := by
  intro i hi
  have hne : i ≠ idx := by
    rintro rfl
    rw [hempty i hfound] at hi
    cases hi
  rw [h i hne]
  exact ⟨hi, rfl⟩

theorem Sys.set_keeps {i : Nat} {p : Pcb} (hp : p.present = (s.procs i).present ∧ p.pid = (s.procs i).pid) :
    Keeps s (s.set i p) := by
  intro j hj
  rcases eq_or_ne j i with rfl | hne
  · rw [Sys.set_same]
    exact ⟨hp.1.trans hj, hp.2⟩
  · rw [Sys.set_other p hne]
    exact ⟨hj, rfl⟩

theorem Ends.keeps {roots : Nat → Option Nat} {B : Sys → Nat → Prop} {room : Option Nat} {Called Cause : Prop}
    {umap given : List Region} {Flags : BitVec 64 → Prop} {e : Int} (hempty : SlotEmpty s)
    (hends : Ends slots kernel roots B room s Called Cause umap given Flags t e) : Keeps s t := by
  have hgiven : ∀ {idx stack : Nat} {s' : Sys} {p : Pcb} (vm : Vm), findFree s = some idx →
      Stacked room { s with nextPid := s.nextPid + 1 } s' stack → Keeps s ((kfree stack { s' with vm }).set idx p) := by
    intro idx stack s' p vm hfound hs
    refine hempty.keeps hfound fun i hne => ?_
    exact (Sys.set_other p hne).trans ((congrFun (kfree_procs _ _) i).trans (congrFun hs.procs i))
  cases hends with
  | early _ _ => exact Keeps.refl s
  | noStack _ hfound _ => exact hempty.keeps hfound fun i hne => Sys.set_other _ hne
  | noSpace _ hfound hs _ => exact hgiven _ hfound hs
  | undone _ hb _ _ _ _ _ _ => exact hgiven _ hb.found hb.stacked
  | leaked _ hb _ _ _ _ => exact hgiven _ hb.found hb.stacked
  | made _ hb _ _ _ _ _ _ =>
    exact hempty.keeps hb.found fun i hne => (Sys.set_other _ hne).trans (congrFun hb.stacked.procs i)

/-! ## Each creation -/

theorem Ledger.begins (h : Ledger slots kernel boot others s) (hempty : SlotEmpty s) :
    s.vm.pmm.used 0 = true ∧ (∀ idx, findFree s = some idx → roots s idx = none) ∧
    ∀ {room : Option Nat} (s' : Sys) (stack : Nat), Stacked room { s with nextPid := s.nextPid + 1 } s' stack →
      Space slots kernel (roots s) (fun f => boot f ∨ f ∈ s'.chunks) s'.vm := by
  refine ⟨(h.space.used 0).mpr (.inl h.space.null), fun idx hfound => ?_, fun s' stack hs => hs.space h.space⟩
  exact if_neg (by simp [hempty idx hfound])

theorem createArgv_ledger (h : Ledger slots kernel boot others s) {room : Option Nat} (hroom : ∀ p ∈ room, p ≠ 0)
    (hempty : SlotEmpty s) (hpml4 : .pml4 ∉ refusals s (createArgv kernel room s).1) :
    Ledger slots kernel boot others (createArgv kernel room s).1 ∧ Keeps s (createArgv kernel room s).1 := by
  obtain ⟨hnull, hroot, hspace⟩ := h.begins hempty
  unfold createArgv at hpml4 ⊢
  cases hfound : findFree s with
  | none => exact ⟨h, Keeps.refl s⟩
  | some idx =>
    have habsent := hempty idx hfound
    rw [hfound] at hpml4
    dsimp only at hpml4 ⊢
    rcases begin_cases hnull hroom hfound (hroot idx hfound) hspace with
      heq | ⟨s', stack, heq, hs, heq' | ⟨m, pm, heq', hb⟩⟩
    · rw [heq]
      dsimp only
      rw [if_pos rfl]
      refine ⟨h.fill hfound habsent rfl ?_ rfl rfl rfl (fun hp => nomatch hp) ⟨rfl, rfl, rfl⟩,
        hempty.keeps hfound fun i hne => Sys.set_other _ hne⟩
      rw [if_neg (by simp), roots_none habsent]
      exact h.space.refuse _
    · rw [heq] at hpml4
      dsimp only at hpml4
      rw [if_neg hs.ne, heq'] at hpml4
      dsimp only at hpml4
      rw [refusals_eq (l := [.pml4]) (congrArg (Purpose.pml4 :: ·) hs.refused)] at hpml4
      simp at hpml4
    · rw [heq]
      dsimp only
      rw [if_neg hs.ne, heq']
      dsimp only
      let p : Pcb := { s.procs idx with
        present := true, terminated := false, pid := s.nextPid, isUser := false, umap := [], umapHeap :=
          none, stack, cr3 := pm }
      refine ⟨h.fill (p := p) hfound habsent ?_ hb.space ?_ hs.stray hs.blocks (fun _ => hs.ne) hs.scheduling,
        hempty.keeps hfound fun i hne => (Sys.set_other _ hne).trans (congrFun hs.procs i)⟩
      · funext i
        simp only [Sys.set, hs.procs]
        rfl
      · exact hb.opens.doubled.trans hs.doubled

theorem createUserArgs_ledger (h : Ledger slots kernel boot others s) (huser : slots (idxL4 userVaddrBase) = false)
    {room : Option Nat} (hroom : ∀ p ∈ room, p ≠ 0) {userCode : Nat → BitVec 8} {userSize : Nat} {zone : Nat → BitVec 8}
    (hempty : SlotEmpty s)
    (hr : let r := refusals s (createUserArgs kernel room userCode userSize zone s).1
      .table ∉ r ∧ .code ∉ r ∧ .userStack ∉ r) :
    Ledger slots kernel boot others (createUserArgs kernel room userCode userSize zone s).1 ∧
      Keeps s (createUserArgs kernel room userCode userSize zone s).1 := by
  obtain ⟨hnull, hroot, hspace⟩ := h.begins hempty
  obtain ⟨hown, hdisjoint⟩ := argsUmap_spec huser userSize
  have hcall : createUserArgs kernel room userCode userSize zone s = (_, _) := rfl
  have hends := createUserArgs_ends hnull hroom hroot hspace hown hcall
  exact ⟨hends.ledger h hempty hdisjoint hr, hends.keeps hempty⟩

theorem createUserRegions_ledger (h : Ledger slots kernel boot others s) {room : Option Nat} (hroom : ∀ p ∈ room, p ≠ 0)
    {img : Nat → BitVec 8} {regs : List Ureg} {zone : Nat → BitVec 8}
    (hcareful : Careful slots kernel s (.createUserRegions room img regs zone)) :
    Ledger slots kernel boot others (createUserRegions kernel room img regs zone s).1 ∧
      Keeps s (createUserRegions kernel room img regs zone s).1 := by
  by_cases hlen : 0 < regs.length ∧ regs.length ≤ 7
  · obtain ⟨hempty, ⟨hown, hdisjoint⟩, -, hr⟩ := hcareful hlen
    obtain ⟨hnull, hroot, hspace⟩ := h.begins hempty
    have hcall : createUserRegions kernel room img regs zone s = (_, _) := rfl
    have hends := createUserRegions_ends hnull hroom hroot hspace (fun _ => own_placed (hown.reached _) _) hcall
    exact ⟨hends.ledger h hempty hdisjoint hr, hends.keeps hempty⟩
  · have hearly : createUserRegions kernel room img regs zone s = (s, -9) := if_pos (by omega)
    rw [hearly]
    exact ⟨h, Keeps.refl s⟩

/-! ## More memory for the current process -/

theorem sysMmap_ledger (h : Ledger slots kernel boot others s) (hrun : s.running = true) {a1 : BitVec 64}
    (hcareful : Careful slots kernel s (.mmap a1)) :
    Ledger slots kernel boot others (sysMmap a1 s).1 ∧ Keeps s (sysMmap a1 s).1 := by
  by_cases hmaps : Mmaps s a1
  · have hr : roots s s.current = some (s.procs s.current).cr3 := roots_some (h.current hrun).1.2.1
    cases hcall : sysMmap a1 s with
    | mk t e =>
      obtain ⟨base', hmono, hsame, hres⟩ := sysMmap_spec h.space hr (hcareful hmaps).apart hcall
      obtain rfl := (hcareful hmaps).same_base hmono hsame
      rcases hres with ⟨rfl, -⟩ | ⟨m', ht, rfl, -⟩ | ⟨m', -, -, hg, rfl, -⟩
      · exact ⟨h, Keeps.refl t⟩
      · have hrooted := Rooted.keep (s := s) (t := { s with vm := m' }) (fun _ => ⟨rfl, rfl⟩) ht.space h.current h.idle
        exact ⟨h.keep hrooted (fun _ => ⟨rfl, rfl⟩) ht.doubled rfl rfl, fun _ hi => ⟨hi, rfl⟩⟩
      · have hrooted := h.touch (p := mmapped (s.procs s.current) (mmapCount a1)) hg.space ⟨rfl, rfl⟩ rfl
        exact ⟨h.keep hrooted (Sys.set_entry ⟨rfl, rfl⟩) hg.frames.doubled rfl rfl, Sys.set_keeps ⟨rfl, rfl⟩⟩
  · rw [sysMmap_refuses hmaps]
    exact ⟨h, Keeps.refl s⟩

theorem sysDevMap_ledger (h : Ledger slots kernel boot others s) (hrun : s.running = true) {a1 a2 : BitVec 64}
    (hcareful : Careful slots kernel s (.devMap a1 a2)) :
    Ledger slots kernel boot others (sysDevMap a1 a2 s).1 ∧ Keeps s (sysDevMap a1 a2 s).1 := by
  by_cases hmaps : DevMaps s a1 a2
  · have hr : roots s s.current = some (s.procs s.current).cr3 := roots_some (h.current hrun).1.2.1
    cases hcall : sysDevMap a1 a2 s with
    | mk t e =>
      obtain ⟨base', hmono, hsame, hres⟩ := sysDevMap_spec h.space hr (hcareful hmaps).apart hcall
      obtain rfl := (hcareful hmaps).same_base hmono hsame
      rcases hres with ⟨rfl, -⟩ | ⟨m', devioBase, devioUsed, ht, rfl⟩
      · exact ⟨h, Keeps.refl t⟩
      · have hrooted := h.touch (p := { s.procs s.current with devioBase, devioUsed }) ht.space ⟨rfl, rfl⟩ rfl
        exact ⟨h.keep hrooted (Sys.set_entry ⟨rfl, rfl⟩) ht.doubled rfl rfl, Sys.set_keeps ⟨rfl, rfl⟩⟩
  · rw [sysDevMap_refuses hmaps]
    exact ⟨h, Keeps.refl s⟩

/-! ## Collection -/

theorem Collects.returned (h : Collects slots s t) : Returned slots s t := by
  intro i hi _ hgone
  rcases h.procs i with heq | ⟨-, hcr3, hfreed⟩
  · rw [heq, hi] at hgone
    simp at hgone
  · exact ⟨hcr3, hfreed⟩

theorem collect_ledger (h : Ledger slots kernel boot others s) (i : Nat) :
    Ledger slots kernel boot others (collect kernel s i) := by
  obtain ⟨hrooted, hcollects⟩ := collect_rooted h.toRooted i
  by_cases hgone : (s.procs i).present = true ∧ (s.procs i).terminated = true
  swap
  · rw [collect_other hgone]
    exact h
  obtain ⟨hi, hend⟩ := hgone
  have hstack := h.stack i hi
  obtain ⟨-, -, hfrees⟩ := freeAddressSpace_spec h.space (roots_some hi)
  have hbase : Rooted slots kernel (fun f => boot f ∨ f ∈ (collect kernel s i).chunks) (collect kernel s i) := by
    rw [hcollects.chunks]
    exact hrooted
  clear hrooted hcollects
  rw [collect_eq hi hend (h.cr3_ne_zero hi) (h.inactive hi hend), kfree, if_neg hstack] at hbase ⊢
  obtain ⟨p, hp⟩ : ∃ p : Pcb, p = { s.procs i with present := false, stack := 0, cr3 := 0 } := ⟨_, rfl⟩
  obtain ⟨rest, hold, hnew⟩ :=
    kernelStacks_split (s := s) (t := s.set i p) (h.bound i hi) fun j hj => Sys.set_other _ hj
  have hnone : held (s.set i p) i = [] := by
    rw [held, Sys.set_same, hp, if_neg (by simp)]
  rw [held, if_pos hi] at hold
  rw [hnone, List.nil_append] at hnew
  have hblocks : s.blocks.Perm ((s.procs i).stack :: (rest ++ others)) := h.blocks.trans (hold.append_right others)
  have hmem : s.blocks.contains (s.procs i).stack = true :=
    List.contains_iff_mem.mpr (hblocks.mem_iff.mpr List.mem_cons_self)
  rw [← hp] at hbase ⊢
  refine ⟨hbase, hfrees.doubled.trans h.doubled, ?_, ?_, fun j hj => ?_, fun j hj => ?_⟩
  · change (s.stray || !s.blocks.contains (s.procs i).stack) = false
    rw [hmem, h.stray]
    rfl
  · refine (hblocks.erase _).trans ?_
    rw [List.erase_cons_head]
    exact (hnew.append_right others).symm
  · rcases eq_or_ne j i with rfl | hj'
    · exact h.bound j hi
    · rw [Sys.set_other p hj'] at hj
      exact h.bound j hj
  · rcases eq_or_ne j i with rfl | hj'
    · rw [Sys.set_same, hp] at hj
      cases hj
    · rw [Sys.set_other p hj'] at hj ⊢
      exact h.stack j hj

theorem procGcRun_ledger (h : Ledger slots kernel boot others s) :
    Ledger slots kernel boot others (procGcRun kernel s) := by
  unfold procGcRun
  generalize List.range maxProcs = l
  induction l generalizing s with
  | nil => exact h
  | cons i l ih => exact ih (collect_ledger h i)

/-! ## Runs -/

theorem step_ledger (h : Ledger slots kernel boot others s) (huser : slots (idxL4 userVaddrBase) = false) {o : Op}
    (hstep : Guarded (Careful slots kernel) (Step kernel) s o t) :
    Ledger slots kernel boot others t ∧ Returned slots s t := by
  obtain ⟨hcareful, hallowed, rfl⟩ := hstep
  have hkept : ∀ {t : Sys}, Ledger slots kernel boot others t ∧ Keeps s t →
      Ledger slots kernel boot others t ∧ Returned slots s t := fun ⟨hledger, hkeeps⟩ => ⟨hledger, hkeeps.returned⟩
  have hroom : ∀ {room}, Found s room → ∀ p ∈ room, p ≠ 0 := fun hfound p hp => (hfound p hp).1
  cases o with
  | createArgv room => exact hkept (createArgv_ledger h (hroom hallowed) hcareful.1 hcareful.2)
  | createUserArgs room userCode userSize zone =>
    exact hkept (createUserArgs_ledger h huser (hroom hallowed) hcareful.1 hcareful.2.2)
  | createUserRegions room img regs zone => exact hkept (createUserRegions_ledger h (hroom hallowed) hcareful)
  | start next =>
    exact hkept ⟨h.keep (h.toRooted.start hallowed.2) (fun _ => ⟨rfl, rfl⟩) rfl rfl rfl, Keeps.refl s⟩
  | switch next =>
    have hrooted := h.toRooted.switch hallowed.1 hallowed.2.1 hallowed.2.2
    exact hkept ⟨h.keep hrooted (Sys.set_entry ⟨rfl, rfl⟩) rfl rfl rfl, Sys.set_keeps (s := s) ⟨rfl, rfl⟩⟩
  | exit next =>
    have hrooted := h.toRooted.exit hallowed.1 hallowed.2.1 hallowed.2.2
    exact hkept ⟨h.keep hrooted (Sys.set_entry ⟨rfl, rfl⟩) rfl rfl rfl, Sys.set_keeps (s := s) ⟨rfl, rfl⟩⟩
  | gc => exact ⟨procGcRun_ledger h, (procGcRun_rooted h.toRooted).2.returned⟩
  | mmap a1 => exact hkept (sysMmap_ledger h hallowed hcareful)
  | devMap a1 a2 => exact hkept (sysDevMap_ledger h hallowed hcareful)

/-- In a careful run what processes hold is conserved, and who ends returns what it held. -/
theorem resources_conserved {s₀ : Sys} {ops : List Op} (hboot : Booted kernel boot others s₀)
    (hrun : Run (Guarded (Careful (kernelSlots kernel s₀.vm) kernel) (Step kernel)) s₀ ops s) :
    Conserved (kernelSlots kernel s₀.vm) kernel boot others s ∧
    ∀ o t, Guarded (Careful (kernelSlots kernel s₀.vm) kernel) (Step kernel) s o t →
      Returned (kernelSlots kernel s₀.vm) s t := by
  have huser : kernelSlots kernel s₀.vm (idxL4 userVaddrBase) = false := hboot.machine.user
  have hinv : ∀ (s : Sys) (o : Op) (t : Sys), Ledger (kernelSlots kernel s₀.vm) kernel boot others s →
      Guarded (Careful (kernelSlots kernel s₀.vm) kernel) (Step kernel) s o t →
      Ledger (kernelSlots kernel s₀.vm) kernel boot others t := fun s o t h hstep => (step_ledger h huser hstep).1
  have hledger := hrun.invariant hinv hboot.ledger
  exact ⟨hledger.conserved, fun o t hstep => (step_ledger hledger huser hstep).2⟩

end

instance (s : Sys) : Decidable (SlotEmpty s) := by
  unfold SlotEmpty
  infer_instance

theorem freshSys_booted {total : Nat} (h : total ≤ 2 ^ 36) : Booted 1 (fun f => f < 2) [] (freshSys total) :=
  ⟨freshSys_machine h, fun _ => decide_eq_true_iff, fun _ => rfl, rfl, ⟨rfl, rfl⟩, ⟨rfl, rfl, rfl⟩⟩

/-- Two processes, of which the first ends and is collected. -/
def turns : List Op := [.createArgv (some 0x200020), .createArgv (some 0x204020), .start 0, .exit 1, .gc]

theorem turns_admitted : Admits (fun s o => Careful (kernelSlots 1 (freshSys 8).vm) 1 s o ∧ Allowed s o) (apply 1)
    (freshSys 8) turns := by
  refine ⟨⟨⟨?_, ?_⟩, ?_⟩, ⟨⟨?_, ?_⟩, ?_⟩, ⟨trivial, ?_⟩, ⟨trivial, ?_⟩, ⟨trivial, ?_⟩, trivial⟩
  all_goals decide +kernel

theorem resources_conserved_turns :
    Conserved (kernelSlots 1 (freshSys 8).vm) 1 (fun f => f < 2) [] (turns.foldl (apply 1) (freshSys 8)) :=
  (resources_conserved (freshSys_booted (by decide)) (Run.of_admits_guarded turns_admitted)).1

/-- The slot of a process that has ended goes to another process before it is collected. -/
def reuse : List Op :=
  [.createArgv (some 0x200020), .createArgv (some 0x204020), .start 0, .exit 1, .createArgv (some 0x208020)]

/-- Its stack is in use for ever, and its PML4. -/
theorem slot_reused_before_collection :
    ∃ t, Run (Step 1) (freshSys 8) reuse t ∧ ¬ Conserved (kernelSlots 1 (freshSys 8).vm) 1 (fun f => f < 2) [] t ∧
      ¬ Returned (kernelSlots 1 (freshSys 8).vm) ((reuse.take 4).foldl (apply 1) (freshSys 8)) t := by
  refine ⟨_, Run.of_admits (by decide +kernel), fun h => ?_, fun h => ?_⟩
  · have hlen := h.blocks.length_eq
    revert hlen
    decide +kernel
  · obtain ⟨-, hfreed⟩ := h 0 (by decide +kernel) (by decide +kernel) (.inr (by decide +kernel))
    have hpml4 := hfreed 2 (by decide +kernel)
    revert hpml4
    decide +kernel

end Siathos.Proc.Memory
