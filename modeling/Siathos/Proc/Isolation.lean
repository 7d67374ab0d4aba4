import Siathos.Proc.Bytes
import Siathos.Proc.Conserve
import Siathos.Proc.Trees

/-!
# Address spaces are apart

Mapping pages for one process leaves the tables of the kernel and of the other processes as they are, as long
as the pages are below entries of the PML4 that are not the kernel's, and no segment is longer than its pages.
-/

open Lib Siathos.Paging

namespace Siathos.Proc.Memory

/-- A walk over the tables from the PML4 `root` comes to the table `f`. -/
def Reaches (m : Vm) (root f : Nat) : Prop :=
  ∃ p : List Nat, p.length ≤ 3 ∧ (∀ i ∈ p, i < 512) ∧ Radix.follow next m.tables 0 root p = some f

/-- The process whose address space changes. One that is being made has none yet. -/
def target (s : Sys) : Op → Option Nat
  | .mmap _ => some s.current
  | .devMap _ _ => some s.current
  | _ => none

/-- A table of the kernel or of another process. -/
def Foreign (kernel : Nat) (s : Sys) (o : Op) (f : Nat) : Prop :=
  Reaches s.vm kernel f ∨ ∃ i, (s.procs i).present = true ∧ target s o ≠ some i ∧ Reaches s.vm (s.procs i).cr3 f

/-- Foreign tables are as they were, and entries have changed only in tables of the process and in pages that
were free. -/
structure Isolated (kernel : Nat) (s : Sys) (o : Op) (t : Sys) : Prop where
  tables : ∀ f, Foreign kernel s o f → ∀ i, t.vm.tables f i = s.vm.tables f i
  bytes : ∀ f, Foreign kernel s o f → ∀ a, a / 4096 = f → t.vm.bytes a = s.vm.bytes a
  own : ∀ f i, t.vm.tables f i ≠ s.vm.tables f i →
    s.vm.pmm.used f = false ∨ ∃ k, target s o = some k ∧ Reaches s.vm (s.procs k).cr3 f

/-- Pages are mapped below entries of the PML4 that are not the kernel's, code and segments are not longer than
their pages, and every process of ring 0 gets a PML4. -/
def Contained (slots : Nat → Bool) (kernel : Nat) (s : Sys) : Op → Prop
  | .createArgv room => .pml4 ∉ refusals s (createArgv kernel room s).1
  | .createUserArgs _ _ userSize _ => userSize ≤ codePages userSize * 0x1000
  | .createUserRegions _ _ regs _ => 0 < regs.length ∧ regs.length ≤ 7 →
    Own slots (reached s.vm.pmm.total regs) ∧ ∀ g ∈ loadable s.vm.pmm.total regs, g.Fits
  | .mmap a1 => Mmaps s a1 → Apart slots (mmapAt s) (mmapCount a1)
  | .devMap a1 a2 => DevMaps s a1 a2 → Apart slots (devMapAt s) (devMapCount a2)
  | _ => True

/-- The pages with the kernel's tables are in use. -/
def Reserved (kernel : Nat) (m : Vm) : Prop := ∀ f, Reaches m kernel f → m.pmm.used f = true

/-! ## Walks -/

/-- The paths of a walk down to the last level. -/
def walks : Radix.Paths where
  Ok p := p.length ≤ 3 ∧ ∀ i ∈ p, i < 512
  init p i := by
    rintro ⟨hlen, hlt⟩
    refine ⟨?_, fun j hj => hlt j (List.mem_append_left _ hj)⟩
    rw [List.length_append] at hlen
    exact (Nat.le_add_right _ _).trans hlen

theorem reaches_congr {m m' : Vm} {root : Nat} (h : ∀ f, Reaches m root f → ∀ i, m'.tables f i = m.tables f i)
    (f : Nat) :
    Reaches m' root f ↔ Reaches m root f := by
  have hfollow : ∀ p, walks.Ok p → Radix.follow next m'.tables 0 root p = Radix.follow next m.tables 0 root p := by
    intro p hp
    refine Radix.seat_congr (P := walks) next (fun _ : Unit => some root) (fun _ q i t hq ht => ?_) () hp
    obtain ⟨hlen, hlt⟩ := walks.init q i hq
    exact h t ⟨q, hlen, hlt, ht⟩ i
  constructor
  · rintro ⟨p, hlen, hlt, hf⟩
    exact ⟨p, hlen, hlt, (hfollow p ⟨hlen, hlt⟩).symm.trans hf⟩
  · rintro ⟨p, hlen, hlt, hf⟩
    exact ⟨p, hlen, hlt, (hfollow p ⟨hlen, hlt⟩).trans hf⟩

section

variable {slots : Nat → Bool} {kernel : Nat} {roots : Nat → Option Nat} {base : Nat → Prop} {m : Vm} {k r : Nat}

theorem reaches_of_seat (hr : roots k = some r) {p : List Nat} {f : Nat} (hp : (own slots).Ok p) (hlen : p.length ≤ 3)
    (hs : seat roots m k p = some f) : Reaches m r f := by
  rw [seat, Radix.seat, hr] at hs
  exact ⟨p, hlen, hp.2.1, hs⟩

theorem reaches_cases (h : Space slots kernel roots base m) (hr : roots k = some r) {f : Nat} (hf : Reaches m r f) :
    Reaches m kernel f ∨ ∃ p, (own slots).Ok p ∧ p.length ≤ 3 ∧ seat roots m k p = some f := by
  obtain ⟨p, hlen, hlt, hf⟩ := hf
  have hseat : seat roots m k p = some f := by
    rw [seat, Radix.seat, hr]
    exact hf
  cases p with
  | nil => exact .inr ⟨[], own_nil slots, hlen, hseat⟩
  | cons i p =>
    cases hslot : slots i with
    | false => exact .inr ⟨i :: p, ⟨by omega, hlt, by simpa using hslot⟩, hlen, hseat⟩
    | true =>
      refine .inl ⟨i :: p, hlen, hlt, ?_⟩
      rw [Radix.follow, ← h.shared k r hr i (hlt i List.mem_cons_self) hslot]
      exact hf

end

/-! ## The invariant -/

section

variable {slots : Nat → Bool} {kernel : Nat} {s₀ s t : Sys}

/-- The trees are apart from the pages that were in use at boot, which have kept their tables. -/
structure Spaces (slots : Nat → Bool) (kernel : Nat) (s₀ s : Sys) : Prop where
  rooted : ∃ base, Rooted slots kernel base s ∧ ∀ f, s₀.vm.pmm.used f = true ∨ f ∈ s.chunks → base f
  kept : ∀ f, s₀.vm.pmm.used f = true → ∀ i, s.vm.tables f i = s₀.vm.tables f i

theorem Spaces.kernel_reaches (h : Spaces slots kernel s₀ s) (hboot : Reserved kernel s₀.vm) (f : Nat) :
    Reaches s.vm kernel f → s₀.vm.pmm.used f = true :=
  fun hf => hboot f ((reaches_congr (fun g hg => h.kept g (hboot g hg)) f).mp hf)

/-- Pages in use have kept their bytes, and their entries if they are no tables of the process. -/
structure Spares (slots : Nat → Bool) (s : Sys) (o : Op) (t : Sys) : Prop where
  tables : ∀ f i, s.vm.pmm.used f = true →
    (∀ k, target s o = some k → ∀ p, (own slots).Ok p → p.length ≤ 3 → seat (roots s) s.vm k p ≠ some f) →
    t.vm.tables f i = s.vm.tables f i
  bytes : ∀ a, s.vm.pmm.used (a / 4096) = true → t.vm.bytes a = s.vm.bytes a

theorem Spares.same {o : Op} (htables : t.vm.tables = s.vm.tables) (hbytes : t.vm.bytes = s.vm.bytes) :
    Spares slots s o t :=
  ⟨fun f i _ _ => by rw [htables], fun a _ => by rw [hbytes]⟩

theorem Spaces.foreign (h : Spaces slots kernel s₀ s) (hboot : Reserved kernel s₀.vm) {o : Op} {f : Nat}
    (hf : Foreign kernel s o f) : s.vm.pmm.used f = true ∧
      ∀ k, target s o = some k → ∀ p, (own slots).Ok p → p.length ≤ 3 → seat (roots s) s.vm k p ≠ some f := by
  obtain ⟨base, hs, hbase⟩ := h.rooted
  have hkernel : Reaches s.vm kernel f → s.vm.pmm.used f = true ∧
      ∀ k, target s o = some k → ∀ p, (own slots).Ok p → p.length ≤ 3 → seat (roots s) s.vm k p ≠ some f := by
    intro hf
    have hb := hbase f (.inl (h.kernel_reaches hboot f hf))
    exact ⟨(hs.space.used f).mpr (.inl hb), fun k _ p hp _ => hs.space.apart f hb k p hp⟩
  rcases hf with hf | ⟨i, hi, hne, hf⟩
  · exact hkernel hf
  · rcases reaches_cases hs.space (roots_some hi) hf with hf | ⟨p, hp, -, hseat⟩
    · exact hkernel hf
    · refine ⟨hs.space.seated_used hp hseat, fun k hk q hq _ hseat' => hne ?_⟩
      rw [hk, (hs.space.unshared i p k q f hp hq hseat hseat').1]

theorem Spaces.step (h : Spaces slots kernel s₀ s) (hboot : Reserved kernel s₀.vm) {o : Op}
    (htarget : ∀ k, target s o = some k → (s.procs k).present = true)
    (hstep : ∀ base, Rooted slots kernel base s → (∀ f ∈ s.chunks, base f) →
      (∃ base', Rooted slots kernel base' t ∧ ∀ f, base f ∨ f ∈ t.chunks → base' f) ∧ Spares slots s o t) :
    Spaces slots kernel s₀ t ∧ Isolated kernel s o t := by
  obtain ⟨base, hs, hbase⟩ := h.rooted
  obtain ⟨⟨base', ht, hmono⟩, hspares⟩ := hstep base hs fun f hf => hbase f (.inr hf)
  refine ⟨⟨⟨base', ht, fun f hf => hmono f (hf.imp_left fun hf => hbase f (.inl hf))⟩, fun f hf i => ?_⟩,
    fun f hf i => ?_,
    fun f hf a ha => ?_, fun f i hne => ?_⟩
  · have hb := hbase f (.inl hf)
    rw [hspares.tables f i ((hs.space.used f).mpr (.inl hb)) fun k _ p hp _ => hs.space.apart f hb k p hp]
    exact h.kept f hf i
  · obtain ⟨hused, hno⟩ := h.foreign hboot hf
    exact hspares.tables f i hused hno
  · exact hspares.bytes a (ha.symm ▸ (h.foreign hboot hf).1)
  · by_contra hno
    rw [not_or, Bool.not_eq_false, not_exists] at hno
    refine hne (hspares.tables f i hno.1 fun k hk p hp hlen hseat => hno.2 k ⟨hk, ?_⟩)
    exact reaches_of_seat (roots_some (htarget k hk)) hp hlen hseat

/-! ## The operations -/

section

variable {base : Nat → Prop}

theorem Touches.spares {b : BitVec 64} {n : Nat} {Entry : BitVec 64 → Prop} {base' : Nat → Prop} {m' : Vm} {o : Op}
    (h : Touches slots kernel (roots s) base' s.current b n Entry s.vm m') (ho : target s o = some s.current)
    (htables : t.vm.tables = m'.tables) (hbytes : ∀ a, s.vm.pmm.used (a / 4096) = true → t.vm.bytes a = s.vm.bytes a) :
    Spares slots s o t :=
  ⟨fun f i hf hno => htables ▸ h.words f i hf (hno s.current ho), hbytes⟩

theorem sysMmap_rooted (h : Rooted slots kernel base s) (hchunks : ∀ f ∈ s.chunks, base f) (hrun : s.running = true)
    {a1 : BitVec 64} (hapart : Mmaps s a1 → Apart slots (mmapAt s) (mmapCount a1)) :
    (∃ base', Rooted slots kernel base' (sysMmap a1 s).1 ∧ ∀ f, base f ∨ f ∈ (sysMmap a1 s).1.chunks → base' f) ∧
      Spares slots s (.mmap a1) (sysMmap a1 s).1 := by
  by_cases hmaps : Mmaps s a1
  swap
  · rw [sysMmap_refuses hmaps]
    exact ⟨⟨base, h, fun f hf => hf.elim id (hchunks f)⟩, Spares.same rfl rfl⟩
  have hbytes : ∀ a, s.vm.pmm.used (a / 4096) = true → (sysMmap a1 s).1.vm.bytes a = s.vm.bytes a :=
    fun a ha => sysMmap_bytes a1 s ha
  cases hcall : sysMmap a1 s with
  | mk t e =>
    rw [hcall] at hbytes
    obtain ⟨base', hmono, -, hres⟩ := sysMmap_spec h.space (h.root hrun) (hapart hmaps) hcall
    have hgrown : ∀ f, base f ∨ f ∈ s.chunks → base' f := fun f hf => hmono f (hf.elim id (hchunks f))
    rcases hres with ⟨rfl, -⟩ | ⟨m', ht, rfl, -⟩ | ⟨m', -, -, hg, rfl, -⟩
    · exact ⟨⟨base, h, fun f hf => hf.elim id (hchunks f)⟩, Spares.same rfl rfl⟩
    · have hrooted := Rooted.keep (s := s) (t := { s with vm := m' }) (fun _ => ⟨rfl, rfl⟩) ht.space h.current h.idle
      exact ⟨⟨base', hrooted, hgrown⟩, ht.spares rfl rfl hbytes⟩
    · have ht := hg.touches (Nat.le_refl _)
      have hrooted := h.touch (p := mmapped (s.procs s.current) (mmapCount a1)) ht.space ⟨rfl, rfl⟩ rfl
      exact ⟨⟨base', hrooted, hgrown⟩, ht.spares rfl rfl hbytes⟩

theorem sysDevMap_rooted (h : Rooted slots kernel base s) (hchunks : ∀ f ∈ s.chunks, base f) (hrun : s.running = true)
    {a1 a2 : BitVec 64} (hapart : DevMaps s a1 a2 → Apart slots (devMapAt s) (devMapCount a2)) :
    (∃ base', Rooted slots kernel base' (sysDevMap a1 a2 s).1 ∧ ∀ f, base f ∨ f ∈ (sysDevMap a1 a2 s).1.chunks →
    base' f) ∧
      Spares slots s (.devMap a1 a2) (sysDevMap a1 a2 s).1 := by
  by_cases hmaps : DevMaps s a1 a2
  swap
  · rw [sysDevMap_refuses hmaps]
    exact ⟨⟨base, h, fun f hf => hf.elim id (hchunks f)⟩, Spares.same rfl rfl⟩
  have hbytes : ∀ a, s.vm.pmm.used (a / 4096) = true → (sysDevMap a1 a2 s).1.vm.bytes a = s.vm.bytes a :=
    fun a ha => sysDevMap_bytes a1 a2 s ha
  cases hcall : sysDevMap a1 a2 s with
  | mk t e =>
    rw [hcall] at hbytes
    obtain ⟨base', hmono, -, hres⟩ := sysDevMap_spec h.space (h.root hrun) (hapart hmaps) hcall
    rcases hres with ⟨rfl, -⟩ | ⟨m', devioBase, devioUsed, ht, rfl⟩
    · exact ⟨⟨base, h, fun f hf => hf.elim id (hchunks f)⟩, Spares.same rfl rfl⟩
    · have hrooted := h.touch (p := { s.procs s.current with devioBase, devioUsed }) ht.space ⟨rfl, rfl⟩ rfl
      exact ⟨⟨base', hrooted, fun f hf => hmono f (hf.elim id (hchunks f))⟩, ht.spares rfl rfl hbytes⟩

theorem Rooted.contained (h : Rooted slots kernel base s) (hchunks : ∀ f ∈ s.chunks, base f)
    (huser : slots (idxL4 userVaddrBase) = false) {o : Op}
    (hstep : Guarded (Contained slots kernel) (Step kernel) s o t) :
    (∃ base', Rooted slots kernel base' t ∧ ∀ f, base f ∨ f ∈ t.chunks → base' f) ∧ Spares slots s o t := by
  obtain ⟨hcontained, hallowed, rfl⟩ := hstep
  have hroom : ∀ {room}, Found s room → ∀ p ∈ room, p ≠ 0 := fun hfound p hp => (hfound p hp).1
  have hsame : ∀ f, base f ∨ f ∈ s.chunks → base f := fun f hf => hf.elim id (hchunks f)
  cases o with
  | createArgv room =>
    obtain ⟨hrooted, hwords⟩ := createArgv_rooted h hchunks (hroom hallowed) hcontained
    exact ⟨hrooted, fun f i hf _ => hwords f hf i, fun a ha => createArgv_bytes kernel room s ha⟩
  | createUserArgs room userCode userSize zone =>
    have hcall : createUserArgs kernel room userCode userSize zone s = (_, _) := rfl
    obtain ⟨hrooted, hwords⟩ := createUserArgs_rooted h hchunks huser (hroom hallowed) hcall
    exact ⟨hrooted, fun f i hf _ => hwords f hf i,
      fun a ha => createUserArgs_bytes kernel room userCode hcontained zone s ha⟩
  | createUserRegions room img regs zone =>
    by_cases hlen : 0 < regs.length ∧ regs.length ≤ 7
    · obtain ⟨hown, hfits⟩ := hcontained hlen
      have hcall : createUserRegions kernel room img regs zone s = (_, _) := rfl
      obtain ⟨hrooted, hwords⟩ := createUserRegions_rooted h hchunks (hroom hallowed) hown hcall
      exact ⟨hrooted, fun f i hf _ => hwords f hf i, fun a ha => createUserRegions_bytes kernel room img hfits zone ha⟩
    · have hearly : createUserRegions kernel room img regs zone s = (s, -9) := if_pos (by omega)
      rw [apply, hearly]
      exact ⟨⟨base, h, hsame⟩, Spares.same rfl rfl⟩
  | start next => exact ⟨⟨base, h.start hallowed.2, hsame⟩, Spares.same rfl rfl⟩
  | switch next => exact ⟨⟨base, h.switch hallowed.1 hallowed.2.1 hallowed.2.2, hsame⟩, Spares.same rfl rfl⟩
  | exit next => exact ⟨⟨base, h.exit hallowed.1 hallowed.2.1 hallowed.2.2, hsame⟩, Spares.same rfl rfl⟩
  | gc =>
    obtain ⟨hrooted, hcollects⟩ := procGcRun_rooted h
    have hbytes := procGcRun_bytes kernel s
    dsimp only [apply]
    generalize procGcRun kernel s = t at hrooted hcollects hbytes ⊢
    rw [← hcollects.chunks] at hsame
    exact ⟨⟨base, hrooted, hsame⟩, Spares.same hcollects.tables hbytes⟩
  | mmap a1 => exact sysMmap_rooted h hchunks hallowed hcontained
  | devMap a1 a2 => exact sysDevMap_rooted h hchunks hallowed hcontained

end

/-! ## Runs -/

theorem Spaces.target (h : Spaces slots kernel s₀ s) {o : Op} (hstep : Step kernel s o t) {k : Nat}
    (hk : target s o = some k) : (s.procs k).present = true := by
  obtain ⟨base, hs, -⟩ := h.rooted
  have hcurrent : s.running = true → some s.current = some k → (s.procs k).present = true := by
    intro hrun heq
    obtain rfl := Option.some.inj heq
    exact (hs.current hrun).1.2.1
  cases o with
  | mmap a1 => exact hcurrent hstep.1 hk
  | devMap a1 a2 => exact hcurrent hstep.1 hk
  | _ => cases hk

theorem Booted.spaces {boot : Nat → Prop} {others : List Nat} (h : Booted kernel boot others s) :
    Spaces (kernelSlots kernel s.vm) kernel s s := by
  refine ⟨⟨_, h.rooted, fun f hf => hf.imp_left (h.used f).mp⟩, fun _ _ _ => rfl⟩

theorem Spaces.contained (h : Spaces slots kernel s₀ s) (hreserved : Reserved kernel s₀.vm)
    (huser : slots (idxL4 userVaddrBase) = false) {o : Op} (hg : Guarded (Contained slots kernel) (Step kernel) s o t) :
    Spaces slots kernel s₀ t ∧ Isolated kernel s o t :=
  h.step hreserved (fun _ hk => h.target hg.2 hk) fun _ hs hchunks => hs.contained hchunks huser hg

theorem spaces_run {boot : Nat → Prop} {others : List Nat} {ops : List Op} (hboot : Booted kernel boot others s₀)
    (hreserved : Reserved kernel s₀.vm)
    (hrun : Run (Guarded (Contained (kernelSlots kernel s₀.vm) kernel) (Step kernel)) s₀ ops s) :
    Spaces (kernelSlots kernel s₀.vm) kernel s₀ s :=
  hrun.invariant (fun _ _ _ h hg => (h.contained hreserved hboot.machine.user hg).1) hboot.spaces

/-- A contained step leaves the tables of the kernel and of the other processes as they are. -/
theorem spaces_isolated {boot : Nat → Prop} {others : List Nat} {ops : List Op} (hboot : Booted kernel boot others s₀)
    (hreserved : Reserved kernel s₀.vm)
    (hrun : Run (Guarded (Contained (kernelSlots kernel s₀.vm) kernel) (Step kernel)) s₀ ops s) :
    ∀ o t, Guarded (Contained (kernelSlots kernel s₀.vm) kernel) (Step kernel) s o t → Isolated kernel s o t :=
  fun _ _ hg => ((spaces_run hboot hreserved hrun).contained hreserved hboot.machine.user hg).2

end

/-- A machine where the kernel maps the first 4 GB, by its PML4 in page 1 and a table in page 2. -/
def identitySys (total : Nat) : Sys :=
  { freshSys total with
    vm := {
      pmm := ⟨total, fun f => decide (f < 3), [], false⟩
      tables := fun t i =>
        if t = 1 ∧ i = 0 then entry (pageAddr 2) 0x3
        else if t = 2 ∧ i < 4 then entry (pageAddr (i * 0x40000)) 0x83
        else 0
      bytes := fun _ => 0 } }

theorem identitySys_booted {total : Nat} (h : total ≤ 2 ^ 36) : Booted 1 (fun f => f < 3) [] (identitySys total) :=
  ⟨⟨h, rfl, rfl, present_zero⟩, fun _ => decide_eq_true_iff, fun _ => rfl, rfl, ⟨rfl, rfl⟩, ⟨rfl, rfl, rfl⟩⟩

theorem identitySys_reserved (total : Nat) : Reserved 1 (identitySys total).vm := by
  have hchild : ∀ i c, next 0 ((identitySys total).vm.tables 1 i) = some c → c = 2 := by
    intro i c hc
    by_cases hi : i = 0
    · have hfirst : next 0 (entry (pageAddr 2) 0x3) = some 2 := by decide
      have hword : (identitySys total).vm.tables 1 i = entry (pageAddr 2) 0x3 := if_pos ⟨rfl, hi⟩
      rw [hword, hfirst] at hc
      exact (Option.some.inj hc).symm
    · have hword : (identitySys total).vm.tables 1 i = 0 := by simp [identitySys, hi]
      rw [hword, next_absent present_zero] at hc
      cases hc
  have hleaf : ∀ i, next 1 ((identitySys total).vm.tables 2 i) = none := by
    intro i
    by_cases hi : i < 4
    · have hword : (identitySys total).vm.tables 2 i = entry (pageAddr (i * 0x40000)) 0x83 := by simp [identitySys, hi]
      rw [hword, next, large_entry]
      simp [large]
    · have hword : (identitySys total).vm.tables 2 i = 0 := by simp [identitySys, hi]
      rw [hword, next_absent present_zero]
  rintro f ⟨p, -, -, hf⟩
  cases p with
  | nil =>
    obtain rfl := Option.some.inj hf
    rfl
  | cons i p =>
    obtain ⟨c, hc, hf⟩ := Option.bind_eq_some_iff.mp hf
    obtain rfl := hchild i c hc
    cases p with
    | nil =>
      obtain rfl := Option.some.inj hf
      rfl
    | cons j p =>
      rw [Radix.follow, hleaf j] at hf
      cases hf

/-- A process that runs. -/
def spaced : List Op :=
  [.createUserRegions (some 0x200020) (fun _ => 0) [⟨0x200000000000, 0, 0, 0x1000, 1⟩] (fun _ => 0), .start 0]

theorem spaced_admitted :
    Admits (fun s o => Contained (kernelSlots 1 (identitySys 32).vm) 1 s o ∧ Allowed s o) (apply 1)
    (identitySys 32) spaced := by
  refine ⟨⟨fun _ => ⟨?_, ?_⟩, ?_⟩, ⟨trivial, ?_⟩, trivial⟩
  · unfold Own
    decide +kernel
  · decide +kernel
  · decide +kernel
  · decide +kernel

theorem spaces_isolated_mmap : Isolated 1 (spaced.foldl (apply 1) (identitySys 32)) (.mmap 1)
    (apply 1 (spaced.foldl (apply 1) (identitySys 32)) (.mmap 1)) := by
  refine spaces_isolated (identitySys_booted (by decide)) (identitySys_reserved 32)
    (Run.of_admits_guarded spaced_admitted)
    (.mmap 1) _ ⟨fun _ => ?_, ?_, rfl⟩
  · unfold Apart
    decide +kernel
  · decide +kernel

/-- The segment is not canonical, and its page is mapped below the kernel's entry 0. -/
theorem kernel_table_written : Booted 1 (fun f => f < 3) [] (identitySys 32) ∧ Reserved 1 (identitySys 32).vm ∧
    ∃ o t, Step 1 (identitySys 32) o t ∧ ¬ Isolated 1 (identitySys 32) o t := by
  refine ⟨identitySys_booted (by decide), identitySys_reserved 32, .createUserRegions (some 0x200020) (fun _ => 0)
    [⟨0x0001000100000000, 0, 0, 0x1000, 1⟩] (fun _ => 0), _, ⟨by decide +kernel, rfl⟩, fun h => ?_⟩
  have hkernel : Reaches (identitySys 32).vm 1 2 := ⟨[0], by decide, by decide, by decide⟩
  have hkept := h.tables 2 (.inl hkernel) 4
  revert hkept
  decide +kernel

end Siathos.Proc.Memory
