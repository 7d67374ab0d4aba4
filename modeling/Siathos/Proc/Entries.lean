import Siathos.Proc.Isolation
import Siathos.Proc.Sound

/-!
# The entries of the processes

Below the entries of a PML4 that are not the kernel's, a process has empty entries, pages of memory and pages
of devices, and none of 2 MB or 1 GB, whatever the processes do.
-/

open Lib Siathos.Paging

namespace Siathos.Proc.Memory

/-- An entry that is empty, names a page of memory, or one of a device. -/
inductive Written : BitVec 64 → Prop
  | empty : Written 0
  | page (c : Nat) {flags : BitVec 64} : Plain flags → Written (entry (pageAddr c) flags)
  | device {w : BitVec 64} : DeviceEntry w → Written w

theorem Written.not_large {w : BitVec 64} (h : Written w) : large w = false := by
  cases h with
  | empty => decide
  | page c hflags => rw [large_entry, hflags.large]
  | device hdevice =>
    obtain ⟨phys, rfl⟩ := hdevice
    rw [large_entry]
    decide

theorem Names.written {Flags : BitVec 64 → Prop} {w : BitVec 64} (h : Names Flags w) (hplain : ∀ f, Flags f → Plain f) :
    Written w := by
  obtain ⟨c, flags, hflags, rfl⟩ := h
  exact .page c (hplain flags hflags)

theorem DataEntry.written {w : BitVec 64} (h : DataEntry w) : Written w := by
  obtain ⟨c, -, rfl⟩ := h
  exact .page c plain_data

/-- The entries of every process below those of the PML4 that are not the kernel's. -/
def Entries (slots : Nat → Bool) (s : Sys) : Prop :=
  ∀ i, (s.procs i).present = true → ∀ u, slots (idxL4 u) = false → Written (pte (roots s) s.vm i u)

section

variable {slots : Nat → Bool} {kernel : Nat} {base : Nat → Prop} {s t : Sys}

theorem Entries.of_tables (h : Entries slots s) (htables : t.vm.tables = s.vm.tables)
    (hprocs : ∀ i, (t.procs i).present = true → (s.procs i).present = true ∧ (t.procs i).cr3 = (s.procs i).cr3) :
    Entries slots t := by
  intro i hi u hu
  obtain ⟨hpresent, hcr3⟩ := hprocs i hi
  have hroots : roots t i = roots s i := by rw [roots_some hi, roots_some hpresent, hcr3]
  rw [pte_roots hroots, pte_tables htables]
  exact h i hpresent u hu

/-! ## Creation -/

theorem Entries.fill (h : Entries slots s) {idx : Nat} {p : Pcb} (hprocs : t.procs = (s.set idx p).procs)
    (hother : ∀ i, i ≠ idx → ∀ u, slots (idxL4 u) = false → pte (roots s) t.vm i u = pte (roots s) s.vm i u)
    (hmine : p.present = true → ∀ u, slots (idxL4 u) = false →
    Written (pte (roots t) t.vm idx u)) : Entries slots t := by
  intro i hi u hu
  rcases eq_or_ne i idx with rfl | hne
  · rw [hprocs, Sys.set_same] at hi
    exact hmine hi u hu
  · have hsame : t.procs i = s.procs i := by rw [hprocs, Sys.set_other p hne]
    have hroots : roots t i = roots s i := by rw [roots, roots, hsame]
    rw [pte_roots hroots, hother i hne u hu]
    exact h i (hsame ▸ hi) u hu

theorem Entries.undone (h : Entries slots s) {idx : Nat} {p : Pcb} (hp : p.present = false)
    (hprocs : t.procs = (s.set idx p).procs)
    (hother : ∀ i, i ≠ idx → ∀ u, slots (idxL4 u) = false → pte (roots s) t.vm i u = pte (roots s) s.vm i u) :
    Entries slots t := by
  refine h.fill hprocs hother fun hpresent => ?_
  rw [hp] at hpresent
  cases hpresent

section

variable {room : Option Nat} {idx stack pm : Nat} {s' : Sys} {m m' : Vm} {base' : Nat → Prop} {l : List Purpose}
  {umap : List Region} {Flags : BitVec 64 → Prop}

theorem Loads.written (hb : Begun slots kernel (spared s) base room s idx s' stack pm m)
    (hloads : Loads slots kernel (Function.update (spared s) idx (some pm)) idx base base' l umap Flags m m') {q : Pcb}
    (hq : q.present = true ∧ q.cr3 = pm) {u : BitVec 64} (hu : slots (idxL4 u) = false) :
    Written (pte (roots ({ s' with vm := m' }.set idx q)) m' idx u) := by
  have hroots : roots ({ s' with vm := m' }.set idx q) idx = Function.update (spared s) idx (some pm) idx := by
    rw [roots, Sys.set_same, if_pos hq.1, hq.2, Function.update_self]
  rw [pte_roots hroots]
  rcases hloads.entries u hu with hsame | hnames
  · rw [hsame, hb.opens.pte hu]
    exact .empty
  · exact hnames.written hloads.plain

theorem Begun.entries (h : Entries slots s) (hb : Begun slots kernel (spared s) base room s idx s' stack pm m)
    (hspace : Space slots kernel (spared s) base s'.vm)
    (hloads : Loads slots kernel (Function.update (spared s) idx (some pm)) idx base base' l umap Flags m m') {q : Pcb}
    (hq : q.present = true ∧ q.cr3 = pm) : Entries slots ({ s' with vm := m' }.set idx q) := by
  refine h.fill (p := q) ?_ (fun i hne u hu => hb.other_pte hspace hloads hne hu) fun _ u hu => hloads.written hb hq hu
  simp only [Sys.set, hb.stacked.procs]

end

theorem Ends.entries (h : Entries slots s) {boot : Nat → Prop} {room : Option Nat} {Called Cause : Prop}
    {umap given : List Region} {Flags : BitVec 64 → Prop} {e : Int}
    (hspace : ∀ s' stack, Stacked room { s with nextPid := s.nextPid + 1 } s' stack →
      Space slots kernel (spared s) (fun f => boot f ∨ f ∈ s'.chunks) s'.vm)
    (hends : Ends slots kernel (spared s)
    (fun s' f => boot f ∨ f ∈ s'.chunks) room s Called Cause umap given Flags t e) :
    Entries slots t := by
  have hgiven : ∀ (stack idx : Nat) (p : Pcb) (s' : Sys), s'.procs = s.procs →
      ((kfree stack s').set idx p).procs = (s.set idx p).procs := by
    intro stack idx p s' hprocs
    simp only [Sys.set, kfree_procs, hprocs]
  cases hends with
  | early _ _ => exact h
  | noStack _ _ hp => exact h.undone hp rfl fun _ _ _ _ => rfl
  | @noSpace idx stack s' p _ _ hs hp =>
    have hvm : ((kfree stack (noPml4 s')).set idx p).vm = (noPml4 s').vm := kfree_vm stack (noPml4 s')
    refine h.undone hp (hgiven stack idx p (noPml4 s') hs.procs) fun i _ u _ => ?_
    rw [hvm]
    exact pte_tables hs.tables u
  | @undone idx stack pm s' m m' base' l done Flags' p e _ hb hloads _ _ _ hp _ =>
    obtain ⟨-, htables, -⟩ := freeAddressSpace_spec hloads.space hb.root
    have hvm := kfree_vm stack { s' with vm := freeAddressSpace kernel pm m' }
    refine h.undone hp (hgiven stack idx p _ hb.stacked.procs) fun i hne u hu => ?_
    rw [Sys.set_vm, hvm, pte_tables htables]
    exact hb.other_pte (hspace s' stack hb.stacked) hloads hne hu
  | @leaked idx stack pm s' m m' base' l done Flags' p e _ hb hloads _ hp _ =>
    have hvm := kfree_vm stack { s' with vm := m' }
    refine h.undone hp (hgiven stack idx p _ hb.stacked.procs) fun i hne u hu => ?_
    rw [Sys.set_vm, hvm]
    exact hb.other_pte (hspace s' stack hb.stacked) hloads hne hu
  | @made idx stack pm s' m m' base' l q _ hb hloads _ _ hpresent hq _ =>
    exact hb.entries h (hspace s' stack hb.stacked) hloads ⟨hpresent.1, hq.2⟩

theorem createArgv_entries (h : Entries slots s) (hs : Rooted slots kernel base s) (hchunks : ∀ f ∈ s.chunks, base f)
    {room : Option Nat} (hroom : ∀ p ∈ room, p ≠ 0) (hpml4 : .pml4 ∉ refusals s (createArgv kernel room s).1) :
    Entries slots (createArgv kernel room s).1 := by
  obtain ⟨boot, -, hnull, -, hspace⟩ := hs.begins hchunks
  unfold createArgv at hpml4 ⊢
  cases hfound : findFree s with
  | none => exact h
  | some idx =>
    rw [hfound] at hpml4
    dsimp only at hpml4 ⊢
    rcases begin_cases hnull hroom hfound (if_pos hfound) hspace with
      heq | ⟨s', stack, heq, hstacked, heq' | ⟨m, pm, heq', hb⟩⟩
    · rw [heq]
      dsimp only
      rw [if_pos rfl]
      exact h.undone (p := { s.procs idx with
        present := false, terminated := false, pid := s.nextPid, isUser := false, umap := [], umapHeap :=
          none, stack := 0 })
        rfl rfl fun _ _ _ _ => rfl
    · rw [heq] at hpml4
      dsimp only at hpml4
      rw [if_neg hstacked.ne, heq'] at hpml4
      dsimp only at hpml4
      rw [refusals_eq (l := [.pml4]) (congrArg (Purpose.pml4 :: ·) hstacked.refused)] at hpml4
      simp at hpml4
    · rw [heq]
      dsimp only
      rw [if_neg hstacked.ne, heq']
      exact hb.entries h (hspace s' stack hstacked) (Loads.refl hb.space) ⟨rfl, rfl⟩

theorem createUserArgs_entries (h : Entries slots s) (hs : Rooted slots kernel base s)
    (hchunks : ∀ f ∈ s.chunks, base f)
    (huser : slots (idxL4 userVaddrBase) = false) {room : Option Nat} (hroom : ∀ p ∈ room, p ≠ 0)
    {userCode : Nat → BitVec 8} {userSize : Nat} {zone : Nat → BitVec 8} :
    Entries slots (createUserArgs kernel room userCode userSize zone s).1 := by
  obtain ⟨boot, -, hnull, -, hspace⟩ := hs.begins hchunks
  have hcall : createUserArgs kernel room userCode userSize zone s = (_, _) := rfl
  have hends := createUserArgs_ends hnull hroom (fun _ hfound => if_pos hfound) hspace
    (argsUmap_spec huser userSize).1 hcall
  exact hends.entries h hspace

theorem createUserRegions_entries (h : Entries slots s) (hs : Rooted slots kernel base s)
    (hchunks : ∀ f ∈ s.chunks, base f) {room : Option Nat} (hroom : ∀ p ∈ room, p ≠ 0) {img : Nat → BitVec 8}
    {regs : List Ureg} {zone : Nat → BitVec 8}
    (hown : 0 < regs.length ∧ regs.length ≤ 7 → Own slots (reached s.vm.pmm.total regs)) :
    Entries slots (createUserRegions kernel room img regs zone s).1 := by
  by_cases hlen : 0 < regs.length ∧ regs.length ≤ 7
  · obtain ⟨boot, -, hnull, -, hspace⟩ := hs.begins hchunks
    have hcall : createUserRegions kernel room img regs zone s = (_, _) := rfl
    have hends := createUserRegions_ends hnull hroom (fun _ hfound => if_pos hfound) hspace
      (fun _ => own_placed (hown hlen) _) hcall
    exact hends.entries h hspace
  · have hearly : createUserRegions kernel room img regs zone s = (s, -9) := if_pos (by omega)
    rw [hearly]
    exact h

/-! ## More memory for the current process -/

theorem Entries.touch (h : Entries slots s) {b : BitVec 64} {n : Nat} {Entry : BitVec 64 → Prop} {m' : Vm}
    (ht : Touches slots kernel (roots s) base s.current b n Entry s.vm m') (hapart : Apart slots b n)
    (hentry : ∀ w, Entry w → Written w) : Entries slots { s with vm := m' } := by
  intro i hi u hu
  change Written (pte (roots s) m' i u)
  by_cases hin : ∃ j < n, i = s.current ∧ vpn u = vpn (page b j)
  · obtain ⟨j, hj, rfl, heq⟩ := hin
    rw [pte_congr heq]
    rcases ht.entries j hj (hapart j hj) with hsame | hnew
    · rw [hsame, ← pte_congr heq]
      exact h s.current hi u hu
    · exact hentry _ hnew
  · rw [ht.rest i u hu fun j hj hk heq => hin ⟨j, hj, hk, heq⟩]
    exact h i hi u hu

theorem Entries.set (h : Entries slots s) {p : Pcb}
    (hp : p.present = (s.procs s.current).present ∧ p.cr3 = (s.procs s.current).cr3) :
    Entries slots (s.set s.current p) := by
  refine h.of_tables rfl fun i hi => ?_
  rcases eq_or_ne i s.current with rfl | hne
  · rw [Sys.set_same] at hi ⊢
    exact ⟨hp.1.symm.trans hi, hp.2⟩
  · rw [Sys.set_other p hne] at hi ⊢
    exact ⟨hi, rfl⟩

theorem sysMmap_entries (h : Entries slots s) (hs : Rooted slots kernel base s) (hrun : s.running = true)
    {a1 : BitVec 64}
    (hapart : Mmaps s a1 → Apart slots (mmapAt s) (mmapCount a1)) : Entries slots (sysMmap a1 s).1 := by
  by_cases hmaps : Mmaps s a1
  swap
  · rw [sysMmap_refuses hmaps]
    exact h
  cases hcall : sysMmap a1 s with
  | mk t e =>
    obtain ⟨base', -, -, hres⟩ := sysMmap_spec hs.space (hs.root hrun) (hapart hmaps) hcall
    rcases hres with ⟨rfl, -⟩ | ⟨m', ht, rfl, -⟩ | ⟨m', -, -, hg, rfl, -⟩
    · exact h
    · exact h.touch ht (hapart hmaps) fun w hw => hw.elim (fun hzero => hzero ▸ .empty) DataEntry.written
    · have ht := hg.touches (Nat.le_refl _)
      have htouched := h.touch ht (hapart hmaps) fun w hw => hw.written
      exact htouched.set ⟨rfl, rfl⟩

theorem sysDevMap_entries (h : Entries slots s) (hs : Rooted slots kernel base s) (hrun : s.running = true)
    {a1 a2 : BitVec 64} (hapart : DevMaps s a1 a2 → Apart slots (devMapAt s) (devMapCount a2)) :
    Entries slots (sysDevMap a1 a2 s).1 := by
  by_cases hmaps : DevMaps s a1 a2
  swap
  · rw [sysDevMap_refuses hmaps]
    exact h
  cases hcall : sysDevMap a1 a2 s with
  | mk t e =>
    obtain ⟨base', -, -, hres⟩ := sysDevMap_spec hs.space (hs.root hrun) (hapart hmaps) hcall
    rcases hres with ⟨rfl, -⟩ | ⟨m', devioBase, devioUsed, ht, rfl⟩
    · exact h
    · have htouched := h.touch ht (hapart hmaps) fun w hw => .device hw
      exact htouched.set (p := { s.procs s.current with devioBase, devioUsed }) ⟨rfl, rfl⟩

/-! ## Runs -/

theorem Entries.of_step (h : Entries slots s) (hs : Rooted slots kernel base s) (hchunks : ∀ f ∈ s.chunks, base f)
    (huser : slots (idxL4 userVaddrBase) = false) {o : Op}
    (hstep : Guarded (Contained slots kernel) (Step kernel) s o t) :
    Entries slots t := by
  obtain ⟨hcontained, hallowed, rfl⟩ := hstep
  have hroom : ∀ {room}, Found s room → ∀ p ∈ room, p ≠ 0 := fun hfound p hp => (hfound p hp).1
  cases o with
  | createArgv room => exact createArgv_entries h hs hchunks (hroom hallowed) hcontained
  | createUserArgs room userCode userSize zone => exact createUserArgs_entries h hs hchunks huser (hroom hallowed)
  | createUserRegions room img regs zone =>
    exact createUserRegions_entries h hs hchunks (hroom hallowed) fun hlen => (hcontained hlen).1
  | start next => exact h.of_tables rfl fun i hi => ⟨hi, rfl⟩
  | switch next => exact h.set ⟨rfl, (hs.current hallowed.1).2.symm⟩
  | exit next => exact h.set ⟨rfl, rfl⟩
  | gc =>
    obtain ⟨-, hcollects⟩ := procGcRun_rooted hs
    dsimp only [apply]
    generalize procGcRun kernel s = t at hcollects ⊢
    refine h.of_tables hcollects.tables fun i hi => ?_
    rcases hcollects.procs i with heq | ⟨habsent, -⟩
    · rw [heq] at hi ⊢
      exact ⟨hi, rfl⟩
    · rw [habsent] at hi
      cases hi
  | mmap a1 => exact sysMmap_entries h hs hallowed hcontained
  | devMap a1 a2 => exact sysDevMap_entries h hs hallowed hcontained

theorem entries_run {boot : Nat → Prop} {others : List Nat} {s₀ : Sys} {ops : List Op}
    (hboot : Booted kernel boot others s₀) (hreserved : Reserved kernel s₀.vm)
    (hrun : Run (Guarded (Contained (kernelSlots kernel s₀.vm) kernel) (Step kernel)) s₀ ops s) :
    Entries (kernelSlots kernel s₀.vm) s := by
  have hfirst : Entries (kernelSlots kernel s₀.vm) s₀ := by
    intro i hi
    rw [hboot.absent i] at hi
    cases hi
  have hstep : ∀ (s : Sys) (o : Op) (t : Sys), Spaces (kernelSlots kernel s₀.vm) kernel s₀ s ∧
    Entries (kernelSlots kernel s₀.vm) s →
      Guarded (Contained (kernelSlots kernel s₀.vm) kernel) (Step kernel) s o t →
      Spaces (kernelSlots kernel s₀.vm) kernel s₀ t ∧ Entries (kernelSlots kernel s₀.vm) t := by
    rintro s o t ⟨hspaces, hentries⟩ hstep
    obtain ⟨base, hs, hbase⟩ := hspaces.rooted
    exact ⟨(hspaces.contained hreserved hboot.machine.user hstep).1,
      hentries.of_step hs (fun f hf => hbase f (.inr hf)) hboot.machine.user hstep⟩
  exact (hrun.invariant hstep ⟨hboot.spaces, hfirst⟩).2

end

end Siathos.Proc.Memory
