import Siathos.Proc.Atomic
import Siathos.Proc.Rooted

/-!
# The trees while a process is made

The slot of a new process may be that of one which has ended. The tree of that one is left where it is, so that
only pages which were free get new entries.
-/

open Lib Siathos.Paging

namespace Siathos.Proc.Memory

section

variable {slots : Nat → Bool} {kernel : Nat} {base : Nat → Prop} {s t : Sys}

/-- The PML4 of each process but the one whose slot is taken next. -/
def spared (s : Sys) (i : Nat) : Option Nat := if findFree s = some i then none else roots s i

theorem spared_update {idx : Nat} (hfound : findFree s = some idx) (v : Option Nat) :
    Function.update (spared s) idx v = Function.update (roots s) idx v := by
  funext i
  rcases eq_or_ne i idx with rfl | hne
  · rw [Function.update_self, Function.update_self]
  · rw [Function.update_of_ne hne, Function.update_of_ne hne, spared, hfound, if_neg (by simpa using hne.symm)]

theorem spared_eq {idx : Nat} (hfound : findFree s = some idx) : spared s = Function.update (roots s) idx none := by
  rw [← spared_update hfound, ← show spared s idx = none from if_pos hfound, Function.update_eq_self]

theorem Rooted.begins (h : Rooted slots kernel base s) (hchunks : ∀ f ∈ s.chunks, base f) : ∃ base' : Nat → Prop,
    (∀ f, base f → base' f) ∧ s.vm.pmm.used 0 = true ∧
    Space slots kernel (spared s) (fun f => base' f ∨ f ∈ s.chunks) s.vm ∧
    ∀ {room : Option Nat} (s' : Sys) (stack : Nat), Stacked room { s with nextPid := s.nextPid + 1 } s' stack →
      Space slots kernel (spared s) (fun f => base' f ∨ f ∈ s'.chunks) s'.vm := by
  have hspace : ∃ base', Space slots kernel (spared s) base' s.vm ∧ ∀ f, base f → base' f := by
    cases hfound : findFree s with
    | none =>
      have hsame : spared s = roots s := by
        funext i
        rw [spared, hfound, if_neg (by simp)]
      exact ⟨base, hsame ▸ h.space, fun f hf => hf⟩
    | some idx => exact ⟨_, spared_eq hfound ▸ h.space.drop idx, fun f hf => .inl hf⟩
  obtain ⟨base', hspace, hmono⟩ := hspace
  have hall : Space slots kernel (spared s) (fun f => base' f ∨ f ∈ s.chunks) s.vm :=
    hspace.base_congr fun f => ⟨fun hf => hf.elim id fun hf => hmono f (hchunks f hf), .inl⟩
  exact ⟨base', hmono, (hspace.used 0).mpr (.inl hspace.null), hall, fun s' stack hs => hs.space hall⟩

section

variable {room : Option Nat} {idx stack pm : Nat} {s' : Sys} {m m' : Vm} {base' : Nat → Prop} {l : List Purpose}
  {umap : List Region} {Flags : BitVec 64 → Prop}

theorem Begun.words (h : Begun slots kernel (spared s) base room s idx s' stack pm m)
    (hloads : Loads slots kernel (Function.update (spared s) idx (some pm)) idx base base' l umap Flags m m') {f : Nat}
    (hf : s.vm.pmm.used f = true) (i : Nat) : m'.tables f i = s.vm.tables f i := by
  have hused : s'.vm.pmm.used f = true := h.stacked.mono f hf
  have hne : f ≠ pm := by
    rintro rfl
    rw [h.opens.free] at hused
    cases hused
  have hout : ∀ p, (own slots).Ok p → p.length ≤ 3 →
    seat (Function.update (spared s) idx (some pm)) m idx p ≠ some f := by
    intro p hp _ hs
    rw [h.opens.mine p hp] at hs
    split at hs
    · exact hne (Option.some.inj hs).symm
    · cases hs
  calc m'.tables f i
      = m.tables f i := hloads.frames.words f i ((h.opens.used f).mpr (.inl hused)) hout
    _ = s'.vm.tables f i := h.opens.words f i hne
    _ = s.vm.tables f i := congrFun (congrFun h.stacked.tables f) i

theorem Begun.rooted (h : Begun slots kernel (spared s) base room s idx s' stack pm m) {b : Nat → Prop}
    (hs : Rooted slots kernel b s)
    (hloads : Loads slots kernel (Function.update (spared s) idx (some pm)) idx base base' l umap Flags m m') {q : Pcb}
    (hq : q.present = true ∧ q.cr3 = pm) : Rooted slots kernel base' ({ s' with vm := m' }.set idx q) := by
  have hspace := hloads.space
  rw [spared_update h.found] at hspace
  refine hs.fill (p := q) h.found ?_ ?_ h.stacked.scheduling
  · simp only [Sys.set, h.stacked.procs]
  · rw [if_pos hq.1, hq.2]
    exact hspace

end

theorem Ends.rooted (h : Rooted slots kernel base s) {boot : Nat → Prop} {room : Option Nat} {Called Cause : Prop}
    {umap given : List Region} {Flags : BitVec 64 → Prop} {e : Int} (hbase : ∀ f, base f → boot f)
    (hchunks : ∀ f ∈ s.chunks, base f)
    (hspace : ∀ s' stack, Stacked room { s with nextPid := s.nextPid + 1 } s' stack →
      Space slots kernel (spared s) (fun f => boot f ∨ f ∈ s'.chunks) s'.vm)
    (hfirst : Space slots kernel (spared s) (fun f => boot f ∨ f ∈ s.chunks) s.vm)
    (hends : Ends slots kernel (spared s)
    (fun s' f => boot f ∨ f ∈ s'.chunks) room s Called Cause umap given Flags t e) :
    (∃ base', Rooted slots kernel base' t ∧ ∀ f, base f ∨ f ∈ t.chunks → base' f) ∧
      ∀ f, s.vm.pmm.used f = true → ∀ i, t.vm.tables f i = s.vm.tables f i := by
  have hgiven : ∀ (stack idx : Nat) (p : Pcb) (s' : Sys), s'.procs = s.procs →
      ((kfree stack s').set idx p).procs = (s.set idx p).procs := by
    intro stack idx p s' hprocs
    simp only [Sys.set, kfree_procs, hprocs]
  cases hends with
  | early _ _ => exact ⟨⟨base, h, fun f hf => hf.elim id (hchunks f)⟩, fun _ _ _ => rfl⟩
  | @noStack idx p _ hfound hp =>
    refine ⟨⟨fun f => boot f ∨
      f ∈ s.chunks, h.fill (p := p) hfound rfl ?_ ⟨rfl, rfl, rfl⟩, fun f hf => hf.imp_left (hbase f)⟩,
      fun _ _ _ => rfl⟩
    rw [if_neg (by simp [hp]), ← spared_eq hfound]
    exact hfirst.refuse _
  | @noSpace idx stack s' p _ hfound hs hp =>
    obtain ⟨hcurrent, hactive, hrunning, hgrown⟩ := kfree_rest stack (noPml4 s')
    obtain ⟨hcurrent', hactive', hrunning'⟩ := hs.scheduling
    have hvm : ((kfree stack (noPml4 s')).set idx p).vm = (noPml4 s').vm := kfree_vm stack (noPml4 s')
    refine ⟨⟨fun f => boot f ∨ f ∈ s'.chunks, h.fill (p := p) hfound (hgiven stack idx p (noPml4 s') hs.procs) ?_
      ⟨hcurrent.trans hcurrent', hactive.trans hactive', hrunning.trans hrunning'⟩, fun f hf => ?_⟩, fun f _ i => ?_⟩
    · rw [if_neg (by simp [hp]), ← spared_eq hfound, hvm]
      exact (hspace s' stack hs).refuse _
    · exact hf.imp (hbase f) fun hf => hgrown ▸ hf
    · rw [hvm]
      exact congrFun (congrFun hs.tables f) i
  | @undone idx stack pm s' m m' base' l done Flags' p e _ hb hloads _ _ _ hp _ =>
    obtain ⟨hfreed, htables, -⟩ := freeAddressSpace_spec hloads.space hb.root
    obtain ⟨hcurrent, hactive, hrunning, hgrown⟩ := kfree_rest stack { s' with vm := freeAddressSpace kernel pm m' }
    obtain ⟨hcurrent', hactive', hrunning'⟩ := hb.stacked.scheduling
    have hvm := kfree_vm stack { s' with vm := freeAddressSpace kernel pm m' }
    refine ⟨⟨base', h.fill (p := p) hb.found (hgiven stack idx p _ hb.stacked.procs) ?_
      ⟨hcurrent.trans hcurrent', hactive.trans hactive', hrunning.trans hrunning'⟩, fun f hf => ?_⟩, fun f hf i => ?_⟩
    · rw [Function.update_idem, spared_update hb.found] at hfreed
      rw [if_neg (by simp [hp]), Sys.set_vm, hvm]
      exact hfreed
    · exact hloads.mono f (hf.imp (hbase f) fun hf => hgrown ▸ hf)
    · rw [Sys.set_vm, hvm]
      exact (congrFun (congrFun htables f) i).trans (hb.words hloads hf i)
  | @leaked idx stack pm s' m m' base' l done Flags' p e _ hb hloads _ hp _ =>
    obtain ⟨hcurrent, hactive, hrunning, hgrown⟩ := kfree_rest stack { s' with vm := m' }
    obtain ⟨hcurrent', hactive', hrunning'⟩ := hb.stacked.scheduling
    have hvm := kfree_vm stack { s' with vm := m' }
    have hdropped := hloads.space.drop idx
    rw [Function.update_idem, spared_update hb.found, ← show (if p.present then some p.cr3 else none) = none from
      if_neg (by simp [hp])] at hdropped
    refine ⟨⟨_, h.fill (p := p) hb.found (hgiven stack idx p _ hb.stacked.procs)
      (by rw [Sys.set_vm, hvm]; exact hdropped)
      ⟨hcurrent.trans hcurrent', hactive.trans hactive', hrunning.trans hrunning'⟩, fun f hf => ?_⟩, fun f hf i => ?_⟩
    · exact .inl (hloads.mono f (hf.imp (hbase f) fun hf => hgrown ▸ hf))
    · rw [Sys.set_vm, hvm]
      exact hb.words hloads hf i
  | @made idx stack pm s' m m' base' l q _ hb hloads _ _ hpresent hq _ =>
    exact ⟨⟨base', hb.rooted h hloads ⟨hpresent.1, hq.2⟩, fun f hf => hloads.mono f (hf.imp_left (hbase f))⟩,
      fun f hf i => hb.words hloads hf i⟩

/-! ## Each creation -/

theorem createArgv_rooted (h : Rooted slots kernel base s) (hchunks : ∀ f ∈ s.chunks, base f) {room : Option Nat}
    (hroom : ∀ p ∈ room, p ≠ 0) (hpml4 : .pml4 ∉ refusals s (createArgv kernel room s).1) :
    (∃ base', Rooted slots kernel base' (createArgv kernel room s).1 ∧
        ∀ f, base f ∨ f ∈ (createArgv kernel room s).1.chunks → base' f) ∧
      ∀ f, s.vm.pmm.used f = true → ∀ i, (createArgv kernel room s).1.vm.tables f i = s.vm.tables f i := by
  obtain ⟨boot, hbase, hnull, hfirst, hspace⟩ := h.begins hchunks
  unfold createArgv at hpml4 ⊢
  cases hfound : findFree s with
  | none => exact ⟨⟨base, h, fun f hf => hf.elim id (hchunks f)⟩, fun _ _ _ => rfl⟩
  | some idx =>
    rw [hfound] at hpml4
    dsimp only at hpml4 ⊢
    rcases begin_cases hnull hroom hfound (if_pos hfound) hspace with
      heq | ⟨s', stack, heq, hs, heq' | ⟨m, pm, heq', hb⟩⟩
    · rw [heq]
      dsimp only
      rw [if_pos rfl]
      have hends : Ends slots kernel (spared s) (fun s' f => boot f ∨ f ∈ s'.chunks) room s True False [] []
        (fun _ => False)
          ((noHeap { s with nextPid := s.nextPid + 1 }).set idx { s.procs idx with
            present := false, terminated := false, pid := s.nextPid, isUser := false, umap := [], umapHeap :=
              none, stack := 0 })
          (-2) := .noStack ⟨trivial, rfl⟩ hfound rfl
      exact hends.rooted h hbase hchunks hspace hfirst
    · rw [heq] at hpml4
      dsimp only at hpml4
      rw [if_neg hs.ne, heq'] at hpml4
      dsimp only at hpml4
      rw [refusals_eq (l := [.pml4]) (congrArg (Purpose.pml4 :: ·) hs.refused)] at hpml4
      simp at hpml4
    · rw [heq]
      dsimp only
      rw [if_neg hs.ne, heq']
      have hloads := Loads.refl (k := idx) hb.space
      exact ⟨⟨_, hb.rooted h hloads ⟨rfl, rfl⟩, fun f hf => hf.imp_left (hbase f)⟩, fun f hf i => hb.words hloads hf i⟩

theorem createUserArgs_rooted (h : Rooted slots kernel base s) (hchunks : ∀ f ∈ s.chunks, base f)
    (huser : slots (idxL4 userVaddrBase) = false) {room : Option Nat} (hroom : ∀ p ∈ room, p ≠ 0)
    {userCode : Nat → BitVec 8} {userSize : Nat} {zone : Nat → BitVec 8} {e : Int}
    (ht : createUserArgs kernel room userCode userSize zone s = (t, e)) :
    (∃ base', Rooted slots kernel base' t ∧ ∀ f, base f ∨ f ∈ t.chunks → base' f) ∧
      ∀ f, s.vm.pmm.used f = true → ∀ i, t.vm.tables f i = s.vm.tables f i := by
  obtain ⟨boot, hbase, hnull, hfirst, hspace⟩ := h.begins hchunks
  have hown := (argsUmap_spec huser userSize).1
  have hends := createUserArgs_ends hnull hroom (fun _ hfound => if_pos hfound) hspace hown ht
  exact hends.rooted h hbase hchunks hspace hfirst

theorem createUserRegions_rooted (h : Rooted slots kernel base s) (hchunks : ∀ f ∈ s.chunks, base f) {room : Option Nat}
    (hroom : ∀ p ∈ room, p ≠ 0) {img : Nat → BitVec 8} {regs : List Ureg}
    (hown : Own slots (reached s.vm.pmm.total regs)) {zone : Nat → BitVec 8} {e : Int}
    (ht : createUserRegions kernel room img regs zone s = (t, e)) :
    (∃ base', Rooted slots kernel base' t ∧ ∀ f, base f ∨ f ∈ t.chunks → base' f) ∧
      ∀ f, s.vm.pmm.used f = true → ∀ i, t.vm.tables f i = s.vm.tables f i := by
  obtain ⟨boot, hbase, hnull, hfirst, hspace⟩ := h.begins hchunks
  have hends := createUserRegions_ends hnull hroom (fun _ hfound => if_pos hfound) hspace
    (fun _ => own_placed hown _) ht
  exact hends.rooted h hbase hchunks hspace hfirst

end

end Siathos.Proc.Memory
