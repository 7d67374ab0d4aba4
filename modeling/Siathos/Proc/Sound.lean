import Siathos.Proc.Bytes
import Siathos.Proc.Conserve
import Siathos.Proc.Trees

/-!
# The regions of a process are mapped

What `umap` lists is mapped for ring 3, and no page of a process is both written and executed.
-/

open Lib Siathos.Paging

namespace Siathos.Proc.Memory

/-- Ring 3 reaches every address of every region, and no page below an entry of the PML4 that is not the
kernel's is both writable and executable. -/
structure UmapSound (slots : Nat → Bool) (s : Sys) (i : Nat) : Prop where
  mapped : ∀ g ∈ (s.procs i).umap, ∀ v : BitVec 64, g.Holds v.toNat → userPage s.vm (s.procs i).cr3 v = true
  wx : ∀ v, slots (idxL4 v) = false → ∀ w ∈ lookup s.vm (s.procs i).cr3 v, ¬ (writable w = true ∧ noExec w = false)

/-- No page for a table is refused, code and segments are not longer than their pages, segments are written or executed,
and pages are mapped below entries of the PML4 that are not the kernel's, where no memory is mapped yet. -/
def Mappable (slots : Nat → Bool) (kernel : Nat) (s : Sys) : Op → Prop
  | .createArgv room => .pml4 ∉ refusals s (createArgv kernel room s).1
  | .createUserArgs room userCode userSize zone => userSize ≤ codePages userSize * 0x1000 ∧
    .table ∉ refusals s (createUserArgs kernel room userCode userSize zone s).1
  | .createUserRegions room img regs zone => 0 < regs.length ∧ regs.length ≤ 7 → Own slots (regionsUmap regs) ∧
    (∀ g ∈ loadable s.vm.pmm.total regs, g.Fits) ∧
    (∀ g ∈ regs, g.flags.getLsbD 0 = true ∨ g.flags.getLsbD 1 = true) ∧
    .table ∉ refusals s (createUserRegions kernel room img regs zone s).1
  | .mmap a1 => Mmaps s a1 → Vacant slots s (mmapAt s) (mmapCount a1)
  | .devMap a1 a2 => DevMaps s a1 a2 → Vacant slots s (devMapAt s) (devMapCount a2)
  | _ => True

/-! ## Entries -/

/-- The entry maps a page of memory for ring 3. -/
def Given (w : BitVec 64) : Prop := present w = true ∧ user w = true ∧ mmio w = false

/-- The entry maps no page that is both written and executed. -/
def Exclusive (w : BitVec 64) : Prop := ¬ (writable w = true ∧ noExec w = false)

instance (w : BitVec 64) : Decidable (Given w) := inferInstanceAs (Decidable (_ ∧ _ ∧ _))

instance (w : BitVec 64) : Decidable (Exclusive w) := inferInstanceAs (Decidable (¬ _))

theorem exclusive_zero : Exclusive 0 := by decide

theorem Names.given {Flags : BitVec 64 → Prop} {w : BitVec 64} (h : Names Flags w) (hflags : ∀ f, Flags f → Given f) :
    Given w := by
  obtain ⟨c, flags, hf, rfl⟩ := h
  obtain ⟨hpresent, huser, hmmio⟩ := hflags flags hf
  exact ⟨(present_entry _ _).trans hpresent, (user_entry _ _).trans huser, (mmio_entry _ _).trans hmmio⟩

theorem Names.exclusive {Flags : BitVec 64 → Prop} {w : BitVec 64} (h : Names Flags w)
    (hflags : ∀ f, Flags f → Exclusive f) : Exclusive w := by
  obtain ⟨c, flags, hf, rfl⟩ := h
  unfold Exclusive
  rw [writable_entry, noExec_entry]
  exact hflags flags hf

theorem DataEntry.names {w : BitVec 64} (h : DataEntry w) : Names (fun flags => flags = 0x7 ||| nx) w := by
  obtain ⟨c, -, rfl⟩ := h
  exact ⟨c, _, rfl, rfl⟩

theorem DeviceEntry.exclusive {w : BitVec 64} (h : DeviceEntry w) : Exclusive w := by
  obtain ⟨phys, rfl⟩ := h
  unfold Exclusive
  rw [writable_entry, noExec_entry]
  decide

theorem given_data : Given (0x7 ||| nx) ∧ Exclusive (0x7 ||| nx) := by decide

theorem argsFlags_spec : ∀ flags, argsFlags flags → Given flags ∧ Exclusive flags := by
  rintro flags (rfl | rfl)
  · decide
  · exact given_data

theorem regionsFlags_spec {regs : List Ureg} (h : ∀ g ∈ regs, g.flags.getLsbD 0 = true ∨ g.flags.getLsbD 1 = true) :
    ∀ flags, regionsFlags regs flags → Given flags ∧ Exclusive flags := by
  rintro flags (⟨g, hg, rfl⟩ | rfl)
  · unfold Ureg.pageFlags
    rcases h g hg with hx | hw
    · rw [if_pos hx]
      decide
    · rw [if_pos hw]
      split
      · decide
      · exact given_data
  · exact given_data

/-! ## The invariant -/

section

variable {slots : Nat → Bool} {kernel : Nat} {base : Nat → Prop} {s t : Sys}

/-- The entries of a process whose regions consist of pages. -/
structure Sane (slots : Nat → Bool) (s : Sys) (i : Nat) : Prop where
  aligned : ∀ g ∈ (s.procs i).umap, g.base &&& 0xFFF = 0 ∧ g.size &&& 0xFFF = 0
  own : Own slots (s.procs i).umap
  given : ∀ g ∈ (s.procs i).umap, ∀ j < pagesOf g, Given (pte (roots s) s.vm i (page g.base j))
  exclusive : ∀ u, slots (idxL4 u) = false → Exclusive (pte (roots s) s.vm i u)

theorem holds_has {g : Region} (hbase : g.base &&& 0xFFF = 0) (hsize : g.size &&& 0xFFF = 0) {v : BitVec 64}
    (h : g.Holds v.toNat) : Has g v := by
  rw [aligned_iff] at hbase hsize
  obtain ⟨hlo, hhi⟩ := h
  refine ⟨(v.toNat - g.base.toNat) / 4096, ?_, ?_⟩
  · unfold pagesOf
    omega
  · rw [vpn, vpn, page, BitVec.toNat_add, BitVec.toNat_ofNat]
    omega

theorem Sane.sound (h : Sane slots s i) (hs : Rooted slots kernel base s) (hi : (s.procs i).present = true) :
    UmapSound slots s i := by
  have hr := roots_some hi
  refine ⟨fun g hg v hv => ?_, fun v hslot w hw => ?_⟩
  · obtain ⟨hbase, hsize⟩ := h.aligned g hg
    obtain ⟨j, hj, heq⟩ := holds_has hbase hsize hv
    have hslot : slots (idxL4 v) = false := by
      have := h.own g hg j hj
      rwa [idxL4_eq, ← heq, ← idxL4_eq] at this
    rw [userPage_iff hs.space hr hslot, pte_congr heq]
    obtain ⟨hpresent, huser, -⟩ := h.given g hg j hj
    exact ⟨hpresent, huser⟩
  · rw [lookup_eq hs.space hr hslot] at hw
    have hexclusive := h.exclusive v hslot
    split at hw
    · obtain rfl := Option.some.inj hw
      exact hexclusive
    · cases hw

/-- The trees of the processes are apart, and those of ring 3 have what their regions tell. -/
structure Sound (slots : Nat → Bool) (kernel : Nat) (s : Sys) : Prop where
  rooted : ∃ base, Rooted slots kernel base s ∧ ∀ f ∈ s.chunks, base f
  sane : ∀ i, (s.procs i).present = true → (s.procs i).isUser = true → Sane slots s i

/-- A step has not changed the regions of a process and their entries. -/
structure Untouched (slots : Nat → Bool) (s t : Sys) (i : Nat) : Prop where
  present : (t.procs i).present = true → (s.procs i).present = true
  isUser : (t.procs i).isUser = (s.procs i).isUser
  umap : (t.procs i).umap = (s.procs i).umap
  pte : ∀ u, slots (idxL4 u) = false → pte (roots t) t.vm i u = pte (roots s) s.vm i u

theorem Untouched.sane (h : Untouched slots s t i) (hs : Sane slots s i) : Sane slots t i := by
  refine ⟨?_, ?_, ?_, fun u hu => ?_⟩
  · rw [h.umap]
    exact hs.aligned
  · rw [h.umap]
    exact hs.own
  · rw [h.umap]
    intro g hg j hj
    rw [h.pte _ (hs.own g hg j hj)]
    exact hs.given g hg j hj
  · rw [h.pte u hu]
    exact hs.exclusive u hu

theorem Untouched.of_tables (hprocs : (t.procs i).present = (s.procs i).present ∧ (t.procs i).cr3 = (s.procs i).cr3 ∧
      (t.procs i).isUser = (s.procs i).isUser ∧ (t.procs i).umap = (s.procs i).umap)
      (htables : t.vm.tables = s.vm.tables) :
    Untouched slots s t i := by
  obtain ⟨hpresent, hcr3, huser, humap⟩ := hprocs
  have hroots : roots t i = roots s i := by rw [roots, roots, hpresent, hcr3]
  exact ⟨fun h => hpresent.symm.trans h, huser, humap, fun u _ => (pte_roots hroots u).trans (pte_tables htables u)⟩

theorem Sound.step (h : Sound slots kernel s) (hrooted : ∃ base, Rooted slots kernel base t ∧ ∀ f ∈ t.chunks, base f)
    (hprocs : ∀ i, (t.procs i).present = true → (t.procs i).isUser = true → Untouched slots s t i ∨ Sane slots t i) :
    Sound slots kernel t := by
  refine ⟨hrooted, fun i hi huser => ?_⟩
  rcases hprocs i hi huser with hsame | hsane
  · exact hsame.sane (h.sane i (hsame.present hi) (hsame.isUser.symm.trans huser))
  · exact hsane

/-! ## Creation -/

theorem Sound.begins (h : Sound slots kernel s) : ∃ base' : Nat → Prop, s.vm.pmm.used 0 = true ∧
    Space slots kernel (spared s) (fun f => base' f ∨ f ∈ s.chunks) s.vm ∧
    ∀ {room : Option Nat} (s' : Sys) (stack : Nat), Stacked room { s with nextPid := s.nextPid + 1 } s' stack →
      Space slots kernel (spared s) (fun f => base' f ∨ f ∈ s'.chunks) s'.vm := by
  obtain ⟨base, hrooted, hchunks⟩ := h.rooted
  obtain ⟨base', -, hbegins⟩ := hrooted.begins hchunks
  exact ⟨base', hbegins⟩

theorem Sound.fill (h : Sound slots kernel s) {b : Nat → Prop} {idx : Nat} {p : Pcb} (hfound : findFree s = some idx)
    (hprocs : t.procs = (s.set idx p).procs)
    (hspace : Space slots kernel (Function.update (roots s) idx (if p.present then some p.cr3 else none)) b t.vm)
    (hchunks : ∀ f ∈ t.chunks, b f) (hsched : t.current = s.current ∧ t.active = s.active ∧ t.running = s.running)
    (hother : ∀ i, i ≠ idx → ∀ u, slots (idxL4 u) = false → pte (roots s) t.vm i u = pte (roots s) s.vm i u)
    (hmine : p.present = true → p.isUser = true → Sane slots t idx) : Sound slots kernel t := by
  obtain ⟨base, hrooted, -⟩ := h.rooted
  refine h.step ⟨b, hrooted.fill hfound hprocs hspace hsched, hchunks⟩ fun i hi huser => ?_
  rcases eq_or_ne i idx with rfl | hne
  · rw [hprocs, Sys.set_same] at hi huser
    exact .inr (hmine hi huser)
  · have hsame : t.procs i = s.procs i := by rw [hprocs, Sys.set_other p hne]
    have hroots : roots t i = roots s i := by rw [roots, roots, hsame]
    exact .inl ⟨fun h => hsame ▸ h, by rw [hsame], by rw [hsame],
      fun u hu => (pte_roots hroots u).trans (hother i hne u hu)⟩

section

variable {room : Option Nat} {idx stack pm : Nat} {s' : Sys} {m m' : Vm} {base' : Nat → Prop} {l : List Purpose}
  {umap : List Region} {Flags : BitVec 64 → Prop}

theorem Begun.other_pte (h : Begun slots kernel (spared s) base room s idx s' stack pm m)
    (hspace : Space slots kernel (spared s) base s'.vm)
    (hloads : Loads slots kernel (Function.update (spared s) idx (some pm)) idx base base' l umap Flags m m') {i : Nat}
    (hne : i ≠ idx) {u : BitVec 64} (hu : slots (idxL4 u) = false) : pte (roots s) m' i u = pte (roots s) s.vm i u := by
  have hspared : spared s i = roots s i := by
    rw [spared, h.found, if_neg (by simpa using hne.symm)]
  have hroots : roots s i = Function.update (spared s) idx (some pm) i := by
    rw [Function.update_of_ne hne, hspared]
  calc pte (roots s) m' i u
      = pte (Function.update (spared s) idx (some pm)) m' i u := pte_roots hroots u
    _ = pte (Function.update (spared s) idx (some pm)) m i u := hloads.rest i u hu fun heq => absurd heq hne
    _ = pte (spared s) s'.vm i u := h.opens.pte_other hspace hne hu
    _ = pte (roots s) s'.vm i u := pte_roots hspared u
    _ = pte (roots s) s.vm i u := pte_tables h.stacked.tables u

theorem Begun.sound (h : Sound slots kernel s) (hb : Begun slots kernel (spared s) base room s idx s' stack pm m)
    (hspace : Space slots kernel (spared s) base s'.vm) (hchunks : ∀ f ∈ s'.chunks, base f)
    (hloads : Loads slots kernel (Function.update (spared s) idx (some pm)) idx base base' l umap Flags m m') {p : Pcb}
    (hprocs : t.procs = (s.set idx p).procs)
    (hspace' : ∃ base'', Space slots kernel
    (Function.update (roots s) idx (if p.present then some p.cr3 else none)) base''
      t.vm ∧ ∀ f, base' f → base'' f)
    (htables : t.vm.tables = m'.tables) (hgrown : t.chunks = s'.chunks)
    (hsched : t.current = s'.current ∧ t.active = s'.active ∧ t.running = s'.running)
    (hmine : p.present = true → p.isUser = true → Sane slots t idx) : Sound slots kernel t := by
  obtain ⟨base'', hspace'', hmono⟩ := hspace'
  obtain ⟨hcurrent, hactive, hrunning⟩ := hb.stacked.scheduling
  refine h.fill hb.found hprocs hspace'' (fun f hf => ?_)
    ⟨hsched.1.trans hcurrent, hsched.2.1.trans hactive, hsched.2.2.trans hrunning⟩ (fun i hne u hu => ?_) hmine
  · rw [hgrown] at hf
    exact hmono f (hloads.mono f (hchunks f hf))
  · exact (pte_tables htables u).trans (hb.other_pte hspace hloads hne hu)

end

theorem Loads.sane {room : Option Nat} {idx stack pm : Nat} {s' : Sys} {m m' : Vm} {base' : Nat → Prop}
    {l : List Purpose}
    {umap : List Region} {Flags : BitVec 64 → Prop} (hb : Begun slots kernel (spared s) base room s idx s' stack pm m)
    (hloads : Loads slots kernel (Function.update (spared s) idx (some pm)) idx base base' l umap Flags m m')
    (htable : .table ∉ l) (hown : Own slots umap) (haligned : ∀ g ∈ umap, g.base &&& 0xFFF = 0 ∧ g.size &&& 0xFFF = 0)
    (hflags : ∀ flags, Flags flags → Given flags ∧ Exclusive flags) {q : Pcb} (hq : q.present = true ∧ q.cr3 = pm)
    (humap : q.umap = umap) : Sane slots ({ s' with vm := m' }.set idx q) idx := by
  have hroots : roots ({ s' with vm := m' }.set idx q) idx = Function.update (spared s) idx (some pm) idx := by
    rw [roots, Sys.set_same, if_pos hq.1, hq.2, Function.update_self]
  have hpte : ∀ u, pte (roots ({ s' with vm := m' }.set idx q)) m' idx u =
      pte (Function.update (spared s) idx (some pm)) m' idx u := pte_roots hroots
  refine ⟨?_, ?_, ?_, fun u hu => ?_⟩
  · rw [Sys.set_same, humap]
    exact haligned
  · rw [Sys.set_same, humap]
    exact hown
  · rw [Sys.set_same, humap]
    intro g hg j hj
    have hnames := hloads.mapped htable _ (hown g hg j hj) ⟨g, hg, j, hj, rfl⟩
    rw [Sys.set_vm, hpte]
    exact hnames.given fun flags hf => (hflags flags hf).1
  · rw [Sys.set_vm, hpte]
    rcases hloads.entries u hu with hsame | hnames
    · rw [hsame, hb.opens.pte hu]
      exact exclusive_zero
    · exact hnames.exclusive fun flags hf => (hflags flags hf).2

theorem Ends.sound (h : Sound slots kernel s) {boot : Nat → Prop} {room : Option Nat} {Called Cause : Prop}
    {umap given : List Region} {Flags : BitVec 64 → Prop} {e : Int}
    (hspace : ∀ s' stack, Stacked room { s with nextPid := s.nextPid + 1 } s' stack →
      Space slots kernel (spared s) (fun f => boot f ∨ f ∈ s'.chunks) s'.vm)
    (hfirst : Space slots kernel (spared s) (fun f => boot f ∨ f ∈ s.chunks) s.vm) (htable : .table ∉ refusals s t)
    (hown : Own slots umap) (haligned : ∀ g ∈ umap, g.base &&& 0xFFF = 0 ∧ g.size &&& 0xFFF = 0)
    (hflags : ∀ flags, Flags flags → Given flags ∧ Exclusive flags)
    (hends : Ends slots kernel (spared s)
    (fun s' f => boot f ∨ f ∈ s'.chunks) room s Called Cause umap given Flags t e) :
    Sound slots kernel t := by
  have hnone : ∀ {p : Pcb} {P : Prop}, p.present = false → p.present = true → P := by
    intro p P hp hp'
    rw [hp] at hp'
    cases hp'
  have hgiven : ∀ (stack idx : Nat) (p : Pcb) (s' : Sys), s'.procs = s.procs →
      ((kfree stack s').set idx p).procs = (s.set idx p).procs := by
    intro stack idx p s' hprocs
    simp only [Sys.set, kfree_procs, hprocs]
  cases hends with
  | early _ _ => exact h
  | @noStack idx p _ hfound hp =>
    refine h.fill (p := p) (b := fun f => boot f ∨ f ∈ s.chunks) hfound rfl ?_ (fun f hf => .inr hf) ⟨rfl, rfl, rfl⟩
      (fun _ _ _ _ => rfl) fun hp' => hnone hp hp'
    rw [if_neg (by simp [hp]), ← spared_eq hfound]
    exact hfirst.refuse _
  | @noSpace idx stack s' p _ hfound hs hp =>
    obtain ⟨hcurrent, hactive, hrunning, hchunks⟩ := kfree_rest stack (noPml4 s')
    obtain ⟨hcurrent', hactive', hrunning'⟩ := hs.scheduling
    have hvm : ((kfree stack (noPml4 s')).set idx p).vm = (noPml4 s').vm := kfree_vm stack (noPml4 s')
    refine h.fill (p := p) (b := fun f => boot f ∨ f ∈ s'.chunks) hfound (hgiven stack idx p (noPml4 s') hs.procs) ?_
      (fun f hf => .inr (hchunks ▸ hf)) ⟨hcurrent.trans hcurrent', hactive.trans hactive', hrunning.trans hrunning'⟩
        (fun i _ u _ => ?_) fun hp' => hnone hp hp'
    · rw [if_neg (by simp [hp]), ← spared_eq hfound, hvm]
      exact (hspace s' stack hs).refuse _
    · rw [hvm]
      exact pte_tables hs.tables u
  | @undone idx stack pm s' m m' base' l done Flags' p e _ hb hloads _ _ _ hp _ =>
    obtain ⟨hfreed, htables, -⟩ := freeAddressSpace_spec hloads.space hb.root
    obtain ⟨hcurrent, hactive, hrunning, hchunks⟩ := kfree_rest stack { s' with vm := freeAddressSpace kernel pm m' }
    have hvm := kfree_vm stack { s' with vm := freeAddressSpace kernel pm m' }
    refine hb.sound h (hspace s' stack hb.stacked) (fun f hf => .inr hf) hloads (hgiven stack idx p _ hb.stacked.procs)
      ⟨base', ?_, fun f hf => hf⟩ ?_ hchunks ⟨hcurrent, hactive, hrunning⟩ fun hp' => hnone hp hp'
    · rw [Function.update_idem, spared_update hb.found] at hfreed
      rw [if_neg (by simp [hp]), Sys.set_vm, hvm]
      exact hfreed
    · rw [Sys.set_vm, hvm]
      exact htables
  | @leaked idx stack pm s' m m' base' l done Flags' p e _ hb hloads _ hp _ =>
    obtain ⟨hcurrent, hactive, hrunning, hchunks⟩ := kfree_rest stack { s' with vm := m' }
    have hvm := kfree_vm stack { s' with vm := m' }
    have hdropped := hloads.space.drop idx
    rw [Function.update_idem, spared_update hb.found, ← show (if p.present then some p.cr3 else none) = none from
      if_neg (by simp [hp])] at hdropped
    have hleft : ∃ b, Space slots kernel (Function.update (roots s) idx (if p.present then some p.cr3 else none)) b
        ((kfree stack { s' with vm := m' }).set idx p).vm ∧ ∀ f, base' f → b f := by
      rw [Sys.set_vm, hvm]
      exact ⟨_, hdropped, fun f hf => .inl hf⟩
    refine hb.sound h (hspace s' stack hb.stacked) (fun f hf => .inr hf) hloads (hgiven stack idx p _ hb.stacked.procs)
      hleft ?_ hchunks ⟨hcurrent, hactive, hrunning⟩ fun hp' => hnone hp hp'
    rw [Sys.set_vm, hvm]
  | @made idx stack pm s' m m' base' l q _ hb hloads _ _ hpresent hq huser =>
    rw [hb.refusals_set hloads.refused q] at htable
    have hspace' := hloads.space
    rw [spared_update hb.found] at hspace'
    refine hb.sound (p := q) h (hspace s' stack hb.stacked) (fun f hf => .inr hf) hloads ?_
      ⟨base', ?_, fun f hf => hf⟩ rfl
      rfl ⟨rfl, rfl, rfl⟩ fun _ _ => hloads.sane hb htable hown haligned hflags ⟨hpresent.1, hq.2⟩ huser.2.1
    · simp only [Sys.set, hb.stacked.procs]
    · rw [if_pos hpresent.1, hq.2]
      exact hspace'

theorem createArgv_sound (h : Sound slots kernel s) {room : Option Nat} (hroom : ∀ p ∈ room, p ≠ 0)
    (hpml4 : .pml4 ∉ refusals s (createArgv kernel room s).1) : Sound slots kernel (createArgv kernel room s).1 := by
  obtain ⟨boot, hnull, hfirst, hspace⟩ := h.begins
  unfold createArgv at hpml4 ⊢
  cases hfound : findFree s with
  | none => exact h
  | some idx =>
    rw [hfound] at hpml4
    dsimp only at hpml4 ⊢
    rcases begin_cases hnull hroom hfound (if_pos hfound) hspace with
      heq | ⟨s', stack, heq, hs, heq' | ⟨m, pm, heq', hb⟩⟩
    · rw [heq]
      dsimp only
      rw [if_pos rfl]
      refine h.fill (b := fun f => boot f ∨ f ∈ s.chunks) hfound rfl ?_ (fun f hf => .inr hf) ⟨rfl, rfl, rfl⟩
        (fun _ _ _ _ => rfl) fun hp => nomatch hp
      rw [if_neg (by simp), ← spared_eq hfound]
      exact hfirst.refuse _
    · rw [heq] at hpml4
      dsimp only at hpml4
      rw [if_neg hs.ne, heq'] at hpml4
      dsimp only at hpml4
      rw [refusals_eq (l := [.pml4]) (congrArg (Purpose.pml4 :: ·) hs.refused)] at hpml4
      simp at hpml4
    · rw [heq]
      dsimp only
      rw [if_neg hs.ne, heq']
      dsimp only
      let p : Pcb := { s.procs idx with
        present := true, terminated := false, pid := s.nextPid, isUser := false, umap := [], umapHeap :=
          none, stack, cr3 := pm }
      have hspace' := hb.space
      rw [spared_update hfound] at hspace'
      refine hb.sound (p := p) h (hspace s' stack hs) (fun f hf => .inr hf) (Loads.refl hb.space) ?_
        ⟨_, hspace', fun f hf => hf⟩ rfl rfl ⟨rfl, rfl, rfl⟩ fun _ huser => nomatch huser
      simp only [Sys.set, hs.procs]
      rfl

/-! ## The regions that the functions make -/

theorem region_size_aligned (v : BitVec 64) (n : Nat) : (region v n).size &&& 0xFFF = 0 := by
  rw [aligned_iff, region, BitVec.toNat_ofNat]
  omega

theorem argsUmap_aligned (userSize : Nat) : ∀ g ∈ argsUmap userSize, g.base &&& 0xFFF = 0 ∧ g.size &&& 0xFFF = 0 := by
  intro g hg
  rcases List.mem_pair.mp hg with rfl | rfl
  · exact ⟨(by decide : userVaddrBase &&& 0xFFF = 0), region_size_aligned _ _⟩
  · exact ⟨maxEnd_aligned _, region_size_aligned _ _⟩

theorem regionsUmap_aligned (regs : List Ureg) :
    ∀ g ∈ regionsUmap regs, g.base &&& 0xFFF = 0 ∧ g.size &&& 0xFFF = 0 := by
  intro g hg
  rcases List.mem_append.mp hg with hg | hg
  · obtain ⟨r, -, rfl⟩ := List.mem_map.mp hg
    exact ⟨r.base_aligned, region_size_aligned _ _⟩
  · obtain rfl := List.mem_singleton.mp hg
    exact ⟨maxEnd_aligned _, region_size_aligned _ _⟩

theorem createUserArgs_sound (h : Sound slots kernel s) (huser : slots (idxL4 userVaddrBase) = false)
    {room : Option Nat}
    (hroom : ∀ p ∈ room, p ≠ 0) {userCode : Nat → BitVec 8} {userSize : Nat} {zone : Nat → BitVec 8}
    (htable : .table ∉ refusals s (createUserArgs kernel room userCode userSize zone s).1) :
    Sound slots kernel (createUserArgs kernel room userCode userSize zone s).1 := by
  obtain ⟨boot, hnull, hfirst, hspace⟩ := h.begins
  have hown := (argsUmap_spec huser userSize).1
  have hcall : createUserArgs kernel room userCode userSize zone s = (_, _) := rfl
  have hends := createUserArgs_ends hnull hroom (fun _ hfound => if_pos hfound) hspace hown hcall
  exact hends.sound h hspace hfirst htable hown (argsUmap_aligned userSize) argsFlags_spec

theorem createUserRegions_sound (h : Sound slots kernel s) {room : Option Nat} (hroom : ∀ p ∈ room, p ≠ 0)
    {img : Nat → BitVec 8} {regs : List Ureg} {zone : Nat → BitVec 8}
    (hmappable : Mappable slots kernel s (.createUserRegions room img regs zone)) :
    Sound slots kernel (createUserRegions kernel room img regs zone s).1 := by
  by_cases hlen : 0 < regs.length ∧ regs.length ≤ 7
  · obtain ⟨hown, -, hflags, htable⟩ := hmappable hlen
    obtain ⟨boot, hnull, hfirst, hspace⟩ := h.begins
    have hcall : createUserRegions kernel room img regs zone s = (_, _) := rfl
    have hends := createUserRegions_ends hnull hroom (fun _ hfound => if_pos hfound) hspace
      (fun _ => own_placed (hown.reached _) _) hcall
    exact hends.sound h hspace hfirst htable hown (regionsUmap_aligned regs) (regionsFlags_spec hflags)
  · have hearly : createUserRegions kernel room img regs zone s = (s, -9) := if_pos (by omega)
    rw [hearly]
    exact h

/-! ## More memory for the current process -/

theorem DataEntry.given {w : BitVec 64} (h : DataEntry w) : Given w ∧ Exclusive w := by
  refine ⟨h.names.given fun flags hf => ?_, h.names.exclusive fun flags hf => ?_⟩
  · rw [hf]
    exact given_data.1
  · rw [hf]
    exact given_data.2

theorem Sane.apart (h : Sane slots s s.current) (hs : Rooted slots kernel base s) (hrun : s.running = true)
    {b : BitVec 64} {n : Nat} (hvacant : Vacant slots s b n) {g : Region} (hg : g ∈ (s.procs s.current).umap) {j : Nat}
    (hj : j < pagesOf g) {i : Nat} (hi : i < n) : vpn (page g.base j) ≠ vpn (page b i) := by
  intro heq
  obtain ⟨hpresent, -, hmmio⟩ := h.given g hg j hj
  rw [pte_congr heq] at hpresent hmmio
  obtain ⟨hslot, hdevice⟩ := hvacant i hi
  rw [lookup_eq hs.space (hs.root hrun) hslot, if_pos hpresent] at hdevice
  rw [hdevice _ rfl] at hmmio
  cases hmmio

theorem Sane.touched (h : Sane slots s s.current) (hs : Rooted slots kernel base s) (hrun : s.running = true)
    {b : BitVec 64} {n : Nat} (hvacant : Vacant slots s b n) {Entry : BitVec 64 → Prop} {m' : Vm}
    (ht : Touches slots kernel (roots s) base s.current b n Entry s.vm m') (hentry : ∀ w, Entry w → Exclusive w) :
    (∀ g ∈ (s.procs s.current).umap, ∀ j < pagesOf g, Given (pte (roots s) m' s.current (page g.base j))) ∧
      ∀ u, slots (idxL4 u) = false → Exclusive (pte (roots s) m' s.current u) := by
  refine ⟨fun g hg j hj => ?_, fun u hu => ?_⟩
  · rw [ht.rest s.current _ (h.own g hg j hj) fun i hi _ => h.apart hs hrun hvacant hg hj hi]
    exact h.given g hg j hj
  · by_cases hin : ∃ i < n, vpn u = vpn (page b i)
    · obtain ⟨i, hi, heq⟩ := hin
      rw [pte_congr heq]
      rcases ht.entries i hi (hvacant i hi).1 with hsame | hnew
      · rw [hsame, ← pte_congr heq]
        exact h.exclusive u hu
      · exact hentry _ hnew
    · rw [ht.rest s.current u hu fun i hi _ heq => hin ⟨i, hi, heq⟩]
      exact h.exclusive u hu

theorem Touches.untouched {b : BitVec 64} {n : Nat} {Entry : BitVec 64 → Prop} {m' : Vm}
    (ht : Touches slots kernel (roots s) base s.current b n Entry s.vm m') {p : Pcb} {i : Nat} (hne : i ≠ s.current) :
    Untouched slots s ({ s with vm := m' }.set s.current p) i := by
  have hsame : ({ s with vm := m' }.set s.current p).procs i = s.procs i := Sys.set_other p hne
  have hroots : roots ({ s with vm := m' }.set s.current p) i = roots s i := by rw [roots, roots, hsame]
  refine ⟨fun h => hsame ▸ h, by rw [hsame], by rw [hsame], fun u hu => ?_⟩
  rw [Sys.set_vm, pte_roots hroots]
  exact ht.rest i u hu fun _ _ heq => absurd heq hne

theorem Sound.touch (h : Sound slots kernel s) {b : BitVec 64} {n : Nat} {Entry : BitVec 64 → Prop} {m' : Vm}
    (hs : Rooted slots kernel base s) (hchunks : ∀ f ∈ s.chunks, base f)
    (ht : Touches slots kernel (roots s) base s.current b n Entry s.vm m') {p : Pcb}
    (hp : p.present = (s.procs s.current).present ∧ p.cr3 = (s.procs s.current).cr3)
    (hend : p.terminated = (s.procs s.current).terminated)
    (hmine : p.isUser = true → (∀ g ∈ p.umap, g.base &&& 0xFFF = 0 ∧ g.size &&& 0xFFF = 0) ∧ Own slots p.umap ∧
      (∀ g ∈ p.umap, ∀ j < pagesOf g, Given (pte (roots s) m' s.current (page g.base j))) ∧
      ∀ u, slots (idxL4 u) = false → Exclusive (pte (roots s) m' s.current u)) :
    Sound slots kernel ({ s with vm := m' }.set s.current p) := by
  refine h.step ⟨base, hs.touch ht.space hp hend, hchunks⟩ fun i _ huser => ?_
  rcases eq_or_ne i s.current with rfl | hne
  · rw [Sys.set_same] at huser
    obtain ⟨haligned, hown, hgiven, hexclusive⟩ := hmine huser
    have hroots : roots ({ s with vm := m' }.set s.current p) s.current = roots s s.current := by
      rw [roots, roots, Sys.set_same, hp.1, hp.2]
    have hpte : ∀ u, pte (roots ({ s with vm := m' }.set s.current p)) m' s.current u = pte (roots s) m' s.current u :=
      pte_roots hroots
    refine .inr ⟨?_, ?_, ?_, ?_⟩
    · rwa [Sys.set_same]
    · rwa [Sys.set_same]
    · rw [Sys.set_same]
      intro g hg j hj
      rw [Sys.set_vm, hpte]
      exact hgiven g hg j hj
    · intro u hu
      rw [Sys.set_vm, hpte]
      exact hexclusive u hu
  · exact .inl (ht.untouched hne)

theorem heapOf_none {p : Pcb} (h : p.umapHeap = none) : heapOf p = ⟨heapStart p.umap, 0⟩ := by
  rw [heapOf, if_pos h, h]
  simp

theorem heapOf_cases (p : Pcb) : heapOf p ∈ p.umap ∨ (heapOf p).size = 0 := by
  unfold heapOf
  rw [List.getD_eq_getElem?_getD]
  cases hget : (if p.umapHeap =
    none then p.umap ++ [⟨heapStart p.umap, 0⟩] else p.umap)[p.umapHeap.getD p.umap.length]? with
  | none => exact .inr rfl
  | some g =>
    rw [Option.getD_some]
    have hmem := List.mem_of_getElem? hget
    split at hmem
    · rcases List.mem_append.mp hmem with hg | hg
      · exact .inl hg
      · rw [List.mem_singleton.mp hg]
        exact .inr rfl
    · exact .inl hmem

/-- A region of the process after `SYS_MMAP` was there before, is empty, or is the heap. -/
theorem mem_mmapped {p : Pcb} {n : Nat} {g : Region} (hg : g ∈ (mmapped p n).umap) :
    g ∈ p.umap ∨ (g = heapOf p ∧ g.size = 0) ∨
      g = ⟨(heapOf p).base, (heapOf p).base + (heapOf p).size + BitVec.ofNat 64 (n * 0x1000) - (heapOf p).base⟩ := by
  rcases List.mem_or_eq_of_mem_set hg with hg | rfl
  · split at hg
    · rename_i hheap
      rcases List.mem_append.mp hg with hg | hg
      · exact .inl hg
      · obtain rfl := List.mem_singleton.mp hg
        exact .inr (.inl ⟨(heapOf_none hheap).symm, rfl⟩)
    · exact .inl hg
  · exact .inr (.inr rfl)

/-- The heap after `SYS_MMAP` has its old pages and the new ones. -/
theorem page_heap {g : Region} (hsize : g.size &&& 0xFFF = 0) {n j : Nat}
    (hj : j < pagesOf ⟨g.base, g.base + g.size + BitVec.ofNat 64 (n * 0x1000) - g.base⟩) :
    j < pagesOf g ∨ ∃ i < n, page g.base j = page (g.base + g.size) i := by
  by_cases hold : j < pagesOf g
  · exact .inl hold
  refine .inr ⟨j - pagesOf g, ?_, BitVec.eq_of_toNat_eq ?_⟩
  all_goals
    rw [aligned_iff] at hsize
    have hg := g.size.isLt
    unfold pagesOf at hj hold ⊢
    dsimp only at hj
    rw [BitVec.toNat_sub, BitVec.toNat_add, BitVec.toNat_add, BitVec.toNat_ofNat] at hj
  · omega
  · rw [page, page, BitVec.toNat_add, BitVec.toNat_add, BitVec.toNat_add, BitVec.toNat_ofNat, BitVec.toNat_ofNat]
    omega

theorem heap_aligned {g : Region} (hsize : g.size &&& 0xFFF = 0) (n : Nat) :
    (g.base + g.size + BitVec.ofNat 64 (n * 0x1000) - g.base) &&& 0xFFF = 0 := by
  rw [aligned_iff] at hsize ⊢
  rw [BitVec.toNat_sub, BitVec.toNat_add, BitVec.toNat_add, BitVec.toNat_ofNat]
  omega

theorem sysMmap_sound (h : Sound slots kernel s) (hrun : s.running = true) {a1 : BitVec 64}
    (hmappable : Mmaps s a1 → Vacant slots s (mmapAt s) (mmapCount a1)) : Sound slots kernel (sysMmap a1 s).1 := by
  by_cases hmaps : Mmaps s a1
  swap
  · rw [sysMmap_refuses hmaps]
    exact h
  have hvacant := hmappable hmaps
  obtain ⟨base, hs, hchunks⟩ := h.rooted
  have hsane := h.sane s.current (hs.current hrun).1.2.1 hmaps.1
  cases hcall : sysMmap a1 s with
  | mk t e =>
    obtain ⟨base', hmono, hsame, hres⟩ := sysMmap_spec hs.space (hs.root hrun) hvacant.apart hcall
    obtain rfl := hvacant.same_base hmono hsame
    rcases hres with
      ⟨rfl, -⟩ | ⟨m', ht, rfl, -⟩ | ⟨m', -, hat, hgrows, rfl, -⟩
    · exact h
    · have hself : ({ s with vm := m' } : Sys) = { s with vm := m' }.set s.current (s.procs s.current) := by
        unfold Sys.set
        congr
        funext j
        split
        · rename_i heq
          rw [heq]
        · rfl
      have htouched := hsane.touched hs hrun hvacant ht fun w hw =>
        hw.elim (fun hzero => hzero ▸ exclusive_zero) fun hdata => hdata.given.2
      rw [hself]
      exact h.touch hs hchunks ht ⟨rfl, rfl⟩ rfl fun _ => ⟨hsane.aligned, hsane.own, htouched⟩
    · have ht := hgrows.touches (Nat.le_refl _)
      have htouched := hsane.touched hs hrun hvacant ht fun w hw => hw.given.2
      have hheap : (heapOf (s.procs s.current)).base &&& 0xFFF = 0 ∧
        (heapOf (s.procs s.current)).size &&& 0xFFF = 0 := by
        rcases heapOf_cases (s.procs s.current) with hmem | hzero
        · exact hsane.aligned _ hmem
        · rw [mmapAt, hzero] at hat
          refine ⟨(congrArg (· &&& 0xFFF) (BitVec.add_zero _).symm).trans hat, ?_⟩
          rw [hzero]
          decide
      have hpages : ∀ g ∈ (mmapped (s.procs s.current) (mmapCount a1)).umap, ∀ j < pagesOf g,
          (∃ g' ∈ (s.procs s.current).umap, ∃ j' < pagesOf g', page g.base j = page g'.base j') ∨
            ∃ i < mmapCount a1, page g.base j = page (mmapAt s) i := by
        intro g hg j hj
        rcases mem_mmapped hg with hold | ⟨-, hzero⟩ | rfl
        · exact .inl ⟨g, hold, j, hj, rfl⟩
        · exact absurd hj (by simp [pagesOf, hzero])
        · rcases page_heap hheap.2 hj with hold | hnew
          · rcases heapOf_cases (s.procs s.current) with hmem | hzero
            · exact .inl ⟨_, hmem, j, hold, rfl⟩
            · rw [pagesOf, hzero] at hold
              exact absurd hold (by simp)
          · exact .inr hnew
      refine h.touch hs hchunks ht ⟨rfl, rfl⟩ rfl fun _ => ⟨fun g hg => ?_, fun g hg j hj => ?_, fun g hg j hj => ?_,
        htouched.2⟩
      · rcases mem_mmapped hg with hold | ⟨rfl, -⟩ | rfl
        · exact hsane.aligned g hold
        · exact hheap
        · exact ⟨hheap.1, heap_aligned hheap.2 _⟩
      · rcases hpages g hg j hj with ⟨g', hmem, j', hj', heq⟩ | ⟨i, hi, heq⟩
        · rw [heq]
          exact hsane.own g' hmem j' hj'
        · rw [heq]
          exact (hvacant i hi).1
      · rcases hpages g hg j hj with ⟨g', hmem, j', hj', heq⟩ | ⟨i, hi, heq⟩
        · rw [heq]
          exact htouched.1 g' hmem j' hj'
        · rw [heq]
          exact (hgrows.entries i (Nat.zero_le i) hi).given.1

theorem sysDevMap_sound (h : Sound slots kernel s) (hrun : s.running = true) {a1 a2 : BitVec 64}
    (hmappable : DevMaps s a1 a2 → Vacant slots s (devMapAt s) (devMapCount a2)) :
    Sound slots kernel (sysDevMap a1 a2 s).1 := by
  by_cases hmaps : DevMaps s a1 a2
  swap
  · rw [sysDevMap_refuses hmaps]
    exact h
  have hvacant := hmappable hmaps
  obtain ⟨base, hs, hchunks⟩ := h.rooted
  have hsane := h.sane s.current (hs.current hrun).1.2.1 hmaps.1
  cases hcall : sysDevMap a1 a2 s with
  | mk t e =>
    obtain ⟨base', hmono, hsame, hres⟩ := sysDevMap_spec hs.space (hs.root hrun) hvacant.apart hcall
    obtain rfl := hvacant.same_base hmono hsame
    rcases hres with ⟨rfl, -⟩ | ⟨m', devioBase, devioUsed, ht, rfl⟩
    · exact h
    · exact h.touch (p := { s.procs s.current with devioBase, devioUsed }) hs hchunks ht ⟨rfl, rfl⟩ rfl fun _ =>
        ⟨hsane.aligned, hsane.own, hsane.touched hs hrun hvacant ht fun _ hw => hw.exclusive⟩

/-! ## Runs -/

theorem Sound.sched (h : Sound slots kernel s)
    (hrooted : ∀ base, Rooted slots kernel base s → Rooted slots kernel base t)
    (hchunks : t.chunks = s.chunks) (htables : t.vm.tables = s.vm.tables)
    (hprocs : ∀ i, (t.procs i).present = (s.procs i).present ∧ (t.procs i).cr3 = (s.procs i).cr3 ∧
      (t.procs i).isUser = (s.procs i).isUser ∧ (t.procs i).umap = (s.procs i).umap) : Sound slots kernel t := by
  obtain ⟨base, hs, hold⟩ := h.rooted
  exact h.step ⟨base, hrooted base hs, hchunks ▸ hold⟩ fun i _ _ => .inl (Untouched.of_tables (hprocs i) htables)

theorem procGcRun_sound (h : Sound slots kernel s) : Sound slots kernel (procGcRun kernel s) := by
  obtain ⟨base, hs, hchunks⟩ := h.rooted
  obtain ⟨hrooted, hcollects⟩ := procGcRun_rooted hs
  have hgrown : ∀ f ∈ (procGcRun kernel s).chunks, base f := by
    rw [hcollects.chunks]
    exact hchunks
  refine h.step ⟨base, hrooted, hgrown⟩ fun i hi _ => ?_
  rcases hcollects.procs i with heq | ⟨habsent, -⟩
  · refine .inl (Untouched.of_tables ?_ hcollects.tables)
    rw [heq]
    exact ⟨rfl, rfl, rfl, rfl⟩
  · rw [habsent] at hi
    cases hi

theorem Sound.of_step (h : Sound slots kernel s) (huser : slots (idxL4 userVaddrBase) = false) {o : Op}
    (hstep : Guarded (Mappable slots kernel) (Step kernel) s o t) : Sound slots kernel t := by
  obtain ⟨hmappable, hallowed, rfl⟩ := hstep
  have hroom : ∀ {room}, Found s room → ∀ p ∈ room, p ≠ 0 := fun hfound p hp => (hfound p hp).1
  have hset : ∀ {i : Nat} {p : Pcb} {u : Sys}, u.procs = s.procs →
      (p.present = (s.procs i).present ∧ p.cr3 = (s.procs i).cr3 ∧ p.isUser = (s.procs i).isUser ∧
        p.umap = (s.procs i).umap) → ∀ j, ((u.set i p).procs j).present = (s.procs j).present ∧
      ((u.set i p).procs j).cr3 = (s.procs j).cr3 ∧ ((u.set i p).procs j).isUser = (s.procs j).isUser ∧
      ((u.set i p).procs j).umap = (s.procs j).umap := by
    intro i p u hu hp j
    rcases eq_or_ne j i with rfl | hne
    · rw [Sys.set_same]
      exact hp
    · rw [Sys.set_other p hne, hu]
      exact ⟨rfl, rfl, rfl, rfl⟩
  cases o with
  | createArgv room => exact createArgv_sound h (hroom hallowed) hmappable
  | createUserArgs room userCode userSize zone => exact createUserArgs_sound h huser (hroom hallowed) hmappable.2
  | createUserRegions room img regs zone => exact createUserRegions_sound h (hroom hallowed) hmappable
  | start next =>
    exact h.sched (fun _ hs => hs.start hallowed.2) rfl rfl fun _ => ⟨rfl, rfl, rfl, rfl⟩
  | switch next =>
    obtain ⟨hrun, hready, hne⟩ := hallowed
    obtain ⟨base, hs, -⟩ := h.rooted
    exact h.sched (fun _ hs => hs.switch hrun hready hne) rfl rfl
      (hset (u := s) rfl ⟨rfl, (hs.current hrun).2.symm, rfl, rfl⟩)
  | exit next =>
    obtain ⟨hrun, hready, hne⟩ := hallowed
    exact h.sched (fun _ hs => hs.exit hrun hready hne) rfl rfl (hset (u := s) rfl ⟨rfl, rfl, rfl, rfl⟩)
  | gc => exact procGcRun_sound h
  | mmap a1 => exact sysMmap_sound h hallowed hmappable
  | devMap a1 a2 => exact sysDevMap_sound h hallowed hmappable

theorem Booted.sound {boot : Nat → Prop} {others : List Nat} (h : Booted kernel boot others s) :
    Sound (kernelSlots kernel s.vm) kernel s := by
  refine ⟨⟨_, h.rooted, fun f hf => .inr hf⟩, fun i hi => ?_⟩
  rw [h.absent i] at hi
  cases hi

end

/-- A process with a segment that is executed and one that is written. -/
def loaded : List Op :=
  [.createUserRegions (some 0x200020) (fun _ => 0)
    [⟨0x200000000000, 0, 0, 0x1000, 1⟩, ⟨0x200000001000, 0, 0, 0x1000, 2⟩]
    (fun _ => 0), .start 0]

end Siathos.Proc.Memory
