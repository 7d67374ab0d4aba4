import Siathos.Proc.System

/-!
# The trees of the processes in the table

Each process in the table has a tree of its own, and the one that runs is one of them. What every operation
does to this, whatever becomes of the pages that are in no tree.
-/

open Lib Siathos.Paging

namespace Siathos.Proc.Memory

/-- The trees of the processes in the table are apart from each other and from `base`, and that of the current
process is the active one. -/
structure Rooted (slots : Nat → Bool) (kernel : Nat) (base : Nat → Prop) (s : Sys) : Prop where
  space : Space slots kernel (roots s) base s.vm
  current : s.running = true → Ready s s.current ∧ (s.procs s.current).cr3 = s.active
  idle : s.running = false → s.active = kernel

/-- PML4, page tables and frames of the process, which `paging_free_address_space` returns. -/
def owned (slots : Nat → Bool) (s : Sys) (i : Nat) : List Nat := treeOf slots s.vm.tables (s.procs i).cr3

section

variable {slots : Nat → Bool} {kernel : Nat} {base : Nat → Prop} {s t : Sys}

theorem Rooted.root (h : Rooted slots kernel base s) (hrun : s.running = true) :
    roots s s.current = some (s.procs s.current).cr3 :=
  roots_some (h.current hrun).1.2.1

theorem Rooted.cr3_ne_zero (h : Rooted slots kernel base s) {i : Nat} (hi : (s.procs i).present = true) :
    (s.procs i).cr3 ≠ 0 :=
  h.space.seated_ne_zero (own_nil slots) ((seat_nil (roots s) s.vm i).trans (roots_some hi))

/-! ## Steps that change no owner -/

theorem Rooted.keep (hprocs : ∀ i, (t.procs i).present = (s.procs i).present ∧ (t.procs i).cr3 = (s.procs i).cr3)
    (hspace : Space slots kernel (roots s) base t.vm)
    (hcurrent : t.running = true → Ready t t.current ∧ (t.procs t.current).cr3 = t.active)
    (hidle : t.running = false → t.active = kernel) : Rooted slots kernel base t := by
  have hroots : roots t = roots s := by
    funext i
    rw [roots, roots, (hprocs i).1, (hprocs i).2]
  exact ⟨hroots ▸ hspace, hcurrent, hidle⟩

theorem Rooted.load (h : Rooted slots kernel base s) {next : Nat} (hready : Ready s next) (hrun : s.running = true) :
    Rooted slots kernel base (load next s) := by
  refine Rooted.keep (fun i => ⟨rfl, rfl⟩) h.space (fun _ => ⟨hready, ?_⟩) fun hidle => ?_
  · exact (if_neg (h.cr3_ne_zero hready.2.1)).symm
  · rw [show (Memory.load next s).running = s.running from rfl, hrun] at hidle
    cases hidle

theorem Rooted.start (h : Rooted slots kernel base s) {next : Nat} (hready : Ready s next) :
    Rooted slots kernel base { Memory.load next s with running := true } := by
  refine Rooted.keep (fun i => ⟨rfl, rfl⟩) h.space (fun _ => ⟨hready, ?_⟩) fun hidle => ?_
  · exact (if_neg (h.cr3_ne_zero hready.2.1)).symm
  · cases hidle

theorem Rooted.entry (h : Rooted slots kernel base s) {i : Nat} {p : Pcb}
    (hp : p.present = (s.procs i).present ∧ p.cr3 = (s.procs i).cr3)
    (hterminated : i = s.current → s.running = true → p.terminated = false) : Rooted slots kernel base (s.set i p) := by
  refine Rooted.keep (fun j => ?_) h.space (fun hrun => ?_) h.idle
  · rcases eq_or_ne j i with rfl | hne
    · rw [Sys.set_same]
      exact hp
    · rw [Sys.set_other p hne]
      exact ⟨rfl, rfl⟩
  · obtain ⟨⟨hlt, hpresent, hend⟩, hactive⟩ := h.current hrun
    rcases eq_or_ne s.current i with heq | hne
    · have hcur : (s.set i p).procs s.current = p := by rw [heq, Sys.set_same]
      refine ⟨⟨hlt, ?_, ?_⟩, ?_⟩
      · rw [show (s.set i p).current = s.current from rfl, hcur, hp.1, ← heq]
        exact hpresent
      · rw [show (s.set i p).current = s.current from rfl, hcur]
        exact hterminated heq.symm hrun
      · rw [show (s.set i p).current = s.current from rfl, hcur, hp.2, ← heq]
        exact hactive
    · have hcur := Sys.set_other (s := s) p hne
      refine ⟨⟨hlt, ?_, ?_⟩, ?_⟩
      · exact hcur.symm ▸ hpresent
      · exact hcur.symm ▸ hend
      · exact hcur.symm ▸ hactive

theorem Rooted.switch (h : Rooted slots kernel base s) {next : Nat} (hrun : s.running = true) (hready : Ready s next)
    (hne : next ≠ s.current) : Rooted slots kernel base (switch next s) := by
  obtain ⟨hcur, hactive⟩ := h.current hrun
  have hstored : Rooted slots kernel base (s.set s.current { s.procs s.current with cr3 := s.active }) :=
    h.entry ⟨rfl, hactive.symm⟩ fun _ _ => hcur.2.2
  refine hstored.load ⟨hready.1, ?_, ?_⟩ hrun
  · rw [Sys.set_other _ hne]
    exact hready.2.1
  · rw [Sys.set_other _ hne]
    exact hready.2.2

theorem procExit_eq {next : Nat} (hne : next ≠ s.current) :
    procExit next s = (load next s).set s.current { s.procs s.current with terminated := true } := by
  rw [procExit, load, load, Sys.set_other _ hne]
  rfl

theorem Rooted.exit (h : Rooted slots kernel base s) {next : Nat} (hrun : s.running = true) (hready : Ready s next)
    (hne : next ≠ s.current) : Rooted slots kernel base (procExit next s) := by
  rw [procExit_eq hne]
  exact (h.load hready hrun).entry ⟨rfl, rfl⟩ fun heq _ => absurd heq.symm hne

theorem Rooted.touch {base' : Nat → Prop} (h : Rooted slots kernel base s) {m' : Vm} {p : Pcb}
    (hspace : Space slots kernel (roots s) base' m')
    (hp : p.present = (s.procs s.current).present ∧ p.cr3 = (s.procs s.current).cr3)
    (hend : p.terminated = (s.procs s.current).terminated) :
    Rooted slots kernel base' ({ s with vm := m' }.set s.current p) := by
  have hvm : Rooted slots kernel base' { s with vm := m' } :=
    Rooted.keep (s := s) (fun i => ⟨rfl, rfl⟩) hspace h.current h.idle
  exact hvm.entry hp fun _ hrun => hend.trans (h.current hrun).1.2.2

/-! ## Creation -/

theorem Rooted.free_ne_current (h : Rooted slots kernel base s) {idx : Nat} (hfound : findFree s = some idx)
    (hrun : s.running = true) : s.current ≠ idx := by
  rintro rfl
  obtain ⟨⟨-, hpresent, hend⟩, -⟩ := h.current hrun
  rw [(findFree_spec hfound).2 hpresent] at hend
  cases hend

theorem Rooted.fill {base' : Nat → Prop} (h : Rooted slots kernel base s) {idx : Nat} {p : Pcb}
    (hfound : findFree s = some idx) (hprocs : t.procs = (s.set idx p).procs)
    (hspace : Space slots kernel (Function.update (roots s) idx (if p.present then some p.cr3 else none)) base' t.vm)
    (hsched : t.current = s.current ∧ t.active = s.active ∧ t.running = s.running) : Rooted slots kernel base' t := by
  have hroots : roots t = Function.update (roots s) idx (if p.present then some p.cr3 else none) := by
    rw [← roots_set, roots_congr hprocs]
  obtain ⟨hcurrent, hactive, hrunning⟩ := hsched
  refine ⟨hroots ▸ hspace, fun hrun => ?_, fun hidle => ?_⟩
  · rw [hrunning] at hrun
    have hcur : t.procs s.current = s.procs s.current := by
      rw [hprocs, Sys.set_other p (h.free_ne_current hfound hrun)]
    have hold := h.current hrun
    rw [Ready] at hold ⊢
    rw [hcurrent, hcur, hactive]
    exact hold
  · rw [hrunning] at hidle
    rw [hactive]
    exact h.idle hidle

/-! ## Collection -/

theorem Rooted.inactive (h : Rooted slots kernel base s) {i : Nat} (hi : (s.procs i).present = true)
    (hend : (s.procs i).terminated = true) : (s.procs i).cr3 ≠ s.active := by
  have hs : seat (roots s) s.vm i [] = some (s.procs i).cr3 := (seat_nil (roots s) s.vm i).trans (roots_some hi)
  cases hrun : s.running with
  | false =>
    rw [h.idle hrun]
    intro heq
    exact h.space.apart _ (heq ▸ h.space.kernelHeld) i [] (own_nil slots) hs
  | true =>
    obtain ⟨⟨-, -, halive⟩, hactive⟩ := h.current hrun
    rw [← hactive]
    intro heq
    have hs' : seat (roots s) s.vm s.current [] = some (s.procs i).cr3 :=
      (seat_nil (roots s) s.vm s.current).trans (heq ▸ h.root hrun)
    obtain ⟨rfl, -⟩ := h.space.unshared i [] s.current [] _ (own_nil slots) (own_nil slots) hs hs'
    rw [hend] at halive
    cases halive

/-- Some processes that had ended are gone, with what they held. -/
structure Collects (slots : Nat → Bool) (s t : Sys) : Prop where
  active : t.active = s.active
  chunks : t.chunks = s.chunks
  tables : t.vm.tables = s.vm.tables
  freed : ∀ f, s.vm.pmm.used f = false → t.vm.pmm.used f = false
  procs : ∀ i, t.procs i = s.procs i ∨ (t.procs i).present = false ∧ (s.procs i).cr3 ≠ s.active ∧
    ∀ f ∈ owned slots s i, t.vm.pmm.used f = false

theorem Collects.refl (s : Sys) : Collects slots s s := ⟨rfl, rfl, rfl, fun _ h => h, fun _ => .inl rfl⟩

theorem Collects.trans {u : Sys} (h : Collects slots s t) (h' : Collects slots t u) : Collects slots s u := by
  refine ⟨h'.active.trans h.active, h'.chunks.trans h.chunks, h'.tables.trans h.tables,
    fun f hf => h'.freed f (h.freed f hf), fun i => ?_⟩
  rcases h.procs i with heq | ⟨habsent, hcr3, hfreed⟩
  · have howned : owned slots t i = owned slots s i := by rw [owned, owned, heq, h.tables]
    have hprocs := h'.procs i
    rwa [heq, howned, h.active] at hprocs
  · refine .inr ⟨?_, hcr3, fun f hf => h'.freed f (hfreed f hf)⟩
    rcases h'.procs i with heq | ⟨habsent', -⟩
    · rw [heq]
      exact habsent
    · exact habsent'

theorem collect_other {i : Nat} (h : ¬ ((s.procs i).present = true ∧ (s.procs i).terminated = true)) :
    collect kernel s i = s :=
  if_pos (by simpa [Classical.or_iff_not_imp_left] using h)

theorem collect_eq {i : Nat} (hi : (s.procs i).present = true) (hend : (s.procs i).terminated = true)
    (hcr3 : (s.procs i).cr3 ≠ 0) (hinactive : (s.procs i).cr3 ≠ s.active) :
    collect kernel s i = (kfree (s.procs i).stack { s with vm := freeAddressSpace kernel (s.procs i).cr3 s.vm }).set i
      { s.procs i with present := false, stack := 0, cr3 := 0 } := by
  unfold collect
  dsimp only
  rw [if_neg (by simp [hi, hend])]
  unfold kfree
  by_cases hstack : (s.procs i).stack = 0
  · rw [if_pos hstack, if_pos hstack, if_pos ⟨hcr3, hinactive⟩, if_pos ⟨hcr3, hinactive⟩]
  · rw [if_neg hstack, if_neg hstack, if_neg hstack, if_pos ⟨hcr3, hinactive⟩, if_pos ⟨hcr3, hinactive⟩]

theorem kfree_rest (p : Nat) (s : Sys) :
    (kfree p s).current = s.current ∧ (kfree p s).active = s.active ∧ (kfree p s).running = s.running ∧
      (kfree p s).chunks = s.chunks := by
  unfold kfree
  split <;> exact ⟨rfl, rfl, rfl, rfl⟩

theorem collect_rooted (h : Rooted slots kernel base s) (i : Nat) :
    Rooted slots kernel base (collect kernel s i) ∧ Collects slots s (collect kernel s i) := by
  by_cases hgone : (s.procs i).present = true ∧ (s.procs i).terminated = true
  swap
  · rw [collect_other hgone]
    exact ⟨h, Collects.refl s⟩
  obtain ⟨hi, hend⟩ := hgone
  have hinactive := h.inactive hi hend
  obtain ⟨hspace, htables, hfrees⟩ := freeAddressSpace_spec h.space (roots_some hi)
  rw [collect_eq hi hend (h.cr3_ne_zero hi) hinactive]
  have hgiven := kfree_rest (s.procs i).stack { s with vm := freeAddressSpace kernel (s.procs i).cr3 s.vm }
  have hvm := kfree_vm (s.procs i).stack { s with vm := freeAddressSpace kernel (s.procs i).cr3 s.vm }
  have hprocs := kfree_procs (s.procs i).stack { s with vm := freeAddressSpace kernel (s.procs i).cr3 s.vm }
  generalize kfree (s.procs i).stack { s with vm := freeAddressSpace kernel (s.procs i).cr3 s.vm } =
    u at hgiven hvm hprocs ⊢
  obtain ⟨hcurrent, hactive, hrunning, hchunks⟩ := hgiven
  have hother : ∀ j p, j ≠ i → (u.set i p).procs j = s.procs j := fun j p hj =>
    (Sys.set_other p hj).trans (congrFun hprocs j)
  have hnone : ∀ f ∈ owned slots s i, u.vm.pmm.used f = false := by
    intro f hf
    by_contra hused
    rw [hvm] at hused
    exact ((hfrees.used f).mp (by simpa using hused)).2 hf
  refine ⟨⟨?_, fun hrun => ?_, fun hidle => ?_⟩, hactive, hchunks, ?_, fun f hf => ?_, fun j => ?_⟩
  · rw [roots_set, roots_congr hprocs, if_neg (by simp), Sys.set_vm, hvm]
    exact hspace
  · have hold := h.current (hrunning.symm.trans hrun)
    have hcur : s.current ≠ i := by
      rintro rfl
      rw [hold.1.2.2] at hend
      cases hend
    rw [Ready] at hold ⊢
    rw [show (u.set i _).current = s.current from hcurrent, hother _ _ hcur,
      show (u.set i _).active = s.active from hactive]
    exact hold
  · exact hactive.trans (h.idle (hrunning.symm.trans hidle))
  · rw [Sys.set_vm, hvm]
    exact htables
  · by_contra hused
    rw [Sys.set_vm, hvm] at hused
    have := ((hfrees.used f).mp (by simpa using hused)).1
    rw [hf] at this
    cases this
  · rcases eq_or_ne j i with rfl | hj
    · refine .inr ⟨?_, hinactive, hnone⟩
      rw [Sys.set_same]
    · exact .inl (hother j _ hj)

theorem procGcRun_rooted (h : Rooted slots kernel base s) :
    Rooted slots kernel base (procGcRun kernel s) ∧ Collects slots s (procGcRun kernel s) := by
  unfold procGcRun
  generalize List.range maxProcs = l
  induction l generalizing s with
  | nil => exact ⟨h, Collects.refl s⟩
  | cons i l ih =>
    obtain ⟨hrooted, hcollects⟩ := collect_rooted h i
    obtain ⟨hrooted', hcollects'⟩ := ih hrooted
    exact ⟨hrooted', hcollects.trans hcollects'⟩

end

end Siathos.Proc.Memory
