import Siathos.Proc.Pages

/-!
# How the creation of a process ends

The functions that make a process of ring 3 take a slot, a stack, a PML4 and pages, one after the other.
`Ends` lists the ways in which they end.
-/

open Lib Siathos.Paging

namespace Siathos.Proc.Memory

@[simp] theorem Sys.set_same (s : Sys) (i : Nat) (p : Pcb) : (s.set i p).procs i = p := if_pos rfl

theorem Sys.set_other {s : Sys} {i j : Nat} (p : Pcb) (h : j ≠ i) : (s.set i p).procs j = s.procs j := if_neg h

@[simp] theorem Sys.set_vm (s : Sys) (i : Nat) (p : Pcb) : (s.set i p).vm = s.vm := rfl

/-- What `pmm_alloc` was asked for in vain between two states. -/
def refusals (s t : Sys) : List Purpose :=
  t.vm.pmm.refused.take (t.vm.pmm.refused.length - s.vm.pmm.refused.length)

theorem refusals_eq {s t : Sys} {l : List Purpose} (h : t.vm.pmm.refused = l ++ s.vm.pmm.refused) :
    refusals s t = l := by
  rw [refusals, h, List.length_append, Nat.add_sub_cancel, List.take_left']
  rfl

/-- The slot that `find_free` gives holds no process that has ended. -/
def SlotEmpty (s : Sys) : Prop := ∀ i ∈ findFree s, (s.procs i).present = false

/-! ## The kernel stack -/

/-- `kmalloc` has given a block. The PMM has lost pages where the heap had to grow. -/
structure Stacked (room : Option Nat) (s s' : Sys) (stack : Nat) : Prop where
  ne : stack ≠ 0
  blocks : s'.blocks = stack :: s.blocks
  procs : s'.procs = s.procs
  scheduling : s'.current = s.current ∧ s'.active = s.active ∧ s'.running = s.running
  stray : s'.stray = s.stray
  tables : s'.vm.tables = s.vm.tables
  total : s'.vm.pmm.total = s.vm.pmm.total
  doubled : s'.vm.pmm.doubled = s.vm.pmm.doubled
  refused : s'.vm.pmm.refused = s.vm.pmm.refused
  mono : ∀ f, s.vm.pmm.used f = true → s'.vm.pmm.used f = true
  grown : (∀ f, s'.vm.pmm.used f = s.vm.pmm.used f) ↔ room ≠ none
  space : ∀ {slots : Nat → Bool} {kernel : Nat} {roots : Nat → Option Nat} {boot : Nat → Prop},
    Space slots kernel roots (fun f => boot f ∨ f ∈ s.chunks) s.vm →
    Space slots kernel roots (fun f => boot f ∨ f ∈ s'.chunks) s'.vm

/-- Nothing was given. -/
def noHeap (s : Sys) : Sys :=
  { s with vm := { s.vm with pmm := { s.vm.pmm with refused := .heap :: s.vm.pmm.refused } } }

theorem kmalloc_cases {room : Option Nat} {s : Sys} (hnull : s.vm.pmm.used 0 = true) (hroom : ∀ p ∈ room, p ≠ 0) :
    (∃ s' stack, kmalloc room s = (s', stack) ∧ Stacked room s s' stack) ∨ kmalloc room s = (noHeap s, 0) := by
  cases room with
  | some p =>
    exact .inl ⟨_, p, rfl, hroom p rfl, rfl, rfl, ⟨rfl, rfl, rfl⟩, rfl, rfl, rfl, rfl, rfl, fun _ h => h, by simp,
      fun h => h⟩
  | none =>
    unfold kmalloc
    dsimp only
    cases halloc : pmmAlloc s.vm.pmm .heap 256 with
    | mk pmm more =>
      by_cases hmore : more = 0
      · subst hmore
        obtain rfl := pmmAlloc_null hnull (by decide) halloc
        exact .inr rfl
      · left
        have htakes := pmmAlloc_takes halloc hmore
        refine ⟨{ s with
          vm := { s.vm with pmm }
          blocks := (more * 4096 + sizeofHeapNode) :: s.blocks
          chunks := List.range' more 256 ++ s.chunks }, more * 4096 + sizeofHeapNode, ?_, by simp [sizeofHeapNode],
          rfl, rfl,
          ⟨rfl, rfl, rfl⟩, rfl, rfl, htakes.total, htakes.doubled, htakes.refused,
          fun f hf => (htakes.used f).mpr (.inl hf), ?_, fun h => (h.alloc htakes).base_congr fun f => ?_⟩
        · exact if_neg hmore
        · refine iff_of_false (fun hsame => ?_) (by simp)
          have hused := (htakes.used more).mpr (.inr ⟨Nat.le_refl more, by omega⟩)
          have := hsame more
          rw [(htakes.free more (Nat.le_refl more) (by omega)).1] at this
          exact absurd (this.symm.trans hused) (by simp)
        · rw [List.mem_append, List.mem_range'_1]
          tauto

theorem kfree_eq {p : Nat} {s : Sys} {l : List Nat} (hp : p ≠ 0) (h : s.blocks = p :: l) :
    kfree p s = { s with blocks := l } := by
  rw [kfree, if_neg hp, h]
  simp

theorem kfree_vm (p : Nat) (s : Sys) : (kfree p s).vm = s.vm := by
  unfold kfree
  split <;> rfl

theorem kfree_procs (p : Nat) (s : Sys) : (kfree p s).procs = s.procs := by
  unfold kfree
  split <;> rfl

/-! ## A slot, a stack and a PML4 -/

section

variable {slots : Nat → Bool} {kernel : Nat} {roots : Nat → Option Nat} {room : Option Nat} {s : Sys}

/-- The slot `idx`, a stack and the PML4 `pm` are taken. -/
structure Begun (slots : Nat → Bool) (kernel : Nat) (roots : Nat → Option Nat) (base : Nat → Prop) (room : Option Nat)
    (s : Sys) (idx : Nat) (s' : Sys) (stack pm : Nat) (m : Vm) : Prop where
  found : findFree s = some idx
  stacked : Stacked room { s with nextPid := s.nextPid + 1 } s' stack
  pm_ne : pm ≠ 0
  opens : Opens slots roots idx pm s'.vm m
  space : Space slots kernel (Function.update roots idx (some pm)) base m

/-- No PML4 was given. -/
def noPml4 (s : Sys) : Sys :=
  { s with vm := { s.vm with pmm := { s.vm.pmm with refused := .pml4 :: s.vm.pmm.refused } } }

theorem begin_cases {B : Sys → Nat → Prop} {idx : Nat} (hnull : s.vm.pmm.used 0 = true) (hroom : ∀ p ∈ room, p ≠ 0)
    (hfree : findFree s = some idx) (hroot : roots idx = none)
    (hspace : ∀ s' stack, Stacked room { s with nextPid := s.nextPid + 1 } s' stack →
    Space slots kernel roots (B s') s'.vm) :
    kmalloc room { s with nextPid := s.nextPid + 1 } = (noHeap { s with nextPid := s.nextPid + 1 }, 0) ∨
    ∃ s' stack, kmalloc room { s with nextPid := s.nextPid + 1 } = (s', stack) ∧
      Stacked room { s with nextPid := s.nextPid + 1 } s' stack ∧
      (newAddressSpace kernel s'.vm = ((noPml4 s').vm, 0) ∨
        ∃ m pm, newAddressSpace kernel s'.vm = (m, pm) ∧ Begun slots kernel roots (B s') room s idx s' stack pm m) := by
  rcases kmalloc_cases (s := { s with nextPid := s.nextPid + 1 }) hnull hroom with ⟨s', stack, heq, hs⟩ | heq
  · refine .inr ⟨s', stack, heq, hs, ?_⟩
    rcases newAddressSpace_spec (hspace s' stack hs) hroot with ⟨m, pm, heq', hpm, hopens, hspace⟩ | heq'
    · exact .inr ⟨m, pm, heq', hfree, hs, hpm, hopens, hspace⟩
    · exact .inl heq'
  · exact .inl heq

theorem Begun.root {base : Nat → Prop} {idx stack pm : Nat} {s' : Sys} {m : Vm}
    (_ : Begun slots kernel roots base room s idx s' stack pm m) : Function.update roots idx (some pm) idx = some pm :=
  Function.update_self ..

theorem Begun.refused {base : Nat → Prop} {idx stack pm : Nat} {s' : Sys} {m : Vm}
    (h : Begun slots kernel roots base room s idx s' stack pm m) :
    m.pmm.refused = s.vm.pmm.refused :=
  h.opens.refused.trans h.stacked.refused

theorem Begun.refusals_free {base : Nat → Prop} {idx stack pm : Nat} {s' : Sys} {m : Vm}
    (h : Begun slots kernel roots base room s idx s' stack pm m) {vm : Vm} {l : List Purpose}
    (hl : vm.pmm.refused = l ++ m.pmm.refused) (p : Pcb) :
    refusals s ((kfree stack { s' with vm }).set idx p) = l := by
  refine refusals_eq ?_
  rw [Sys.set_vm, kfree_vm, ← h.refused]
  exact hl

theorem Begun.refusals_set {base : Nat → Prop} {idx stack pm : Nat} {s' : Sys} {m : Vm}
    (h : Begun slots kernel roots base room s idx s' stack pm m) {vm : Vm} {l : List Purpose}
    (hl : vm.pmm.refused = l ++ m.pmm.refused) (p : Pcb) :
    refusals s ({ s' with vm }.set idx p) = l := by
  refine refusals_eq ?_
  rw [← h.refused]
  exact hl

end

/-! ## The ends -/

section

variable (slots : Nat → Bool) (kernel : Nat) (roots : Nat → Option Nat) (B : Sys → Nat → Prop) (room : Option Nat)
    (s : Sys)
  (Called Cause : Prop) (umap given : List Region) (Flags : BitVec 64 → Prop)

/-- The ways in which a creation for ring 3 ends. `Called` is that there is a slot and something to load, `Cause` that
something to load is refused for its address, and `given` what is loaded before a failure. -/
inductive Ends : Sys → Int → Prop
  | early {e : Int} : e < 0 → ¬ Called ∧ given = [] → Ends s e
  | noStack {idx : Nat} {p : Pcb} : Called ∧ given = [] → findFree s = some idx → p.present = false →
      Ends ((noHeap { s with nextPid := s.nextPid + 1 }).set idx p) (-2)
  | noSpace {idx stack : Nat} {s' : Sys} {p : Pcb} : Called ∧ given = [] → findFree s = some idx →
      Stacked room { s with nextPid := s.nextPid + 1 } s' stack → p.present = false →
      Ends ((kfree stack (noPml4 s')).set idx p) (-3)
  | undone {idx stack pm : Nat} {s' : Sys} {m m' : Vm} {base' : Nat → Prop} {l : List Purpose} {done : List Region}
      {Flags' : BitVec 64 → Prop} {p : Pcb} {e : Int} : Called →
      Begun slots kernel roots (B s') room s idx s' stack pm m →
      Loads slots kernel (Function.update roots idx (some pm)) idx (B s') base' l done Flags' m m' →
      done = given ∧ done <+: umap ∧ Own slots done →
      (∀ x ∈ l, x = .table ∨ x = .segment) → (.segment ∈ l ∨ Cause) → p.present = false → e < 0 →
      Ends ((kfree stack { s' with vm := freeAddressSpace kernel pm m' }).set idx p) e
  | leaked {idx stack pm : Nat} {s' : Sys} {m m' : Vm} {base' : Nat → Prop} {l : List Purpose} {done : List Region}
      {Flags' : BitVec 64 → Prop} {p : Pcb} {e : Int} : Called →
      Begun slots kernel roots (B s') room s idx s' stack pm m →
      Loads slots kernel (Function.update roots idx (some pm)) idx (B s') base' l done Flags' m m' →
      (.code ∈ l ∨ .userStack ∈ l) → p.present = false → e < 0 → Ends ((kfree stack { s' with vm := m' }).set idx p) e
  | made {idx stack pm : Nat} {s' : Sys} {m m' : Vm} {base' : Nat → Prop} {l : List Purpose} {q : Pcb} : Called →
      Begun slots kernel roots (B s') room s idx s' stack pm m →
      Loads slots kernel (Function.update roots idx (some pm)) idx (B s') base' l umap Flags m m' →
      (∀ x ∈ l, x = .table) → ¬ Cause ∧ Own slots umap → q.present = true ∧ q.terminated = false → q.stack = stack ∧
      q.cr3 = pm →
      q.isUser = true ∧ q.umap = umap ∧ q.umapHeap = none → Ends ({ s' with vm := m' }.set idx q) q.pid

end

section

variable {slots : Nat → Bool} {kernel : Nat} {roots : Nat → Option Nat} {B : Sys → Nat → Prop} {room : Option Nat}
    {s : Sys}

/-! ## `proc_create_user_args` -/

def codePages (userSize : Nat) : Nat :=
  if (userSize + 0xFFF) / 0x1000 = 0 ∨ (userSize + 0xFFF) / 0x1000 > 512 then 512 else (userSize + 0xFFF) / 0x1000

theorem codePages_le (userSize : Nat) : 0 < codePages userSize ∧ codePages userSize ≤ 512 := by
  unfold codePages
  split <;> omega

/-- The code and the stack. -/
def argsUmap (userSize : Nat) : List Region :=
  [region userVaddrBase (codePages userSize), userStack [region userVaddrBase (codePages userSize)]]

def argsFlags (flags : BitVec 64) : Prop := flags = 0x5 ∨ flags = 0x7 ||| nx

theorem createUserArgs_ends (hnull : s.vm.pmm.used 0 = true) (hroom : ∀ p ∈ room, p ≠ 0)
    (hroot : ∀ idx, findFree s = some idx → roots idx = none)
    (hspace : ∀ s' stack, Stacked room { s with nextPid := s.nextPid + 1 } s' stack →
    Space slots kernel roots (B s') s'.vm)
    {userCode : Nat → BitVec 8} {userSize : Nat} {zone : Nat → BitVec 8} (hown : Own slots (argsUmap userSize))
    {t : Sys}
    {e : Int} (ht : createUserArgs kernel room userCode userSize zone s = (t, e)) :
    Ends slots kernel roots B room s (findFree s ≠ none) False (argsUmap userSize) [] argsFlags t e := by
  unfold createUserArgs at ht
  cases hfree : findFree s with
  | none =>
    rw [hfree] at ht
    cases ht
    exact .early (by decide) ⟨fun h => h rfl, rfl⟩
  | some idx =>
    have hcalled : some idx ≠ none := by simp
    rw [hfree] at ht
    dsimp only at ht
    rcases begin_cases hnull hroom hfree (hroot idx hfree) hspace with
      heq | ⟨s', stack, heq, hs, heq' | ⟨m, pm, heq', h⟩⟩
    · rw [heq] at ht
      dsimp only at ht
      rw [if_pos rfl] at ht
      cases ht
      exact .noStack ⟨hcalled, rfl⟩ hfree rfl
    · rw [heq] at ht
      dsimp only at ht
      rw [if_neg hs.ne, heq'] at ht
      dsimp only at ht
      rw [if_pos rfl] at ht
      cases ht
      exact .noSpace ⟨hcalled, rfl⟩ hfree hs rfl
    · rw [heq] at ht
      dsimp only at ht
      rw [if_neg hs.ne, heq'] at ht
      dsimp only at ht
      rw [if_neg h.pm_ne] at ht
      have hpages : (if (userSize + 0xFFF) / 0x1000 = 0 ∨ (userSize + 0xFFF) / 0x1000 > 512 then 512 else
          (userSize + 0xFFF) / 0x1000) = codePages userSize := rfl
      have hne : codePages userSize ≠ 0 := Nat.pos_iff_ne_zero.mp (codePages_le userSize).1
      have hbase : userVaddrBase &&& 0xFFF = 0 := by decide
      have hall := hown
      rw [argsUmap, ← List.singleton_append, own_append] at hown
      simp only [hpages] at ht
      cases halloc : pmmAlloc m.pmm .code (codePages userSize) with
      | mk pmm f =>
        rw [halloc] at ht
        dsimp only at ht
        by_cases hf : f = 0
        · subst hf
          rw [if_pos rfl] at ht
          cases ht
          exact .leaked hcalled h (pmmAlloc_refused h.space hne (by decide) halloc) (.inl (by simp)) rfl (by decide)
        · rw [if_neg hf] at ht
          obtain ⟨base', l₁, hloads₁, htable₁⟩ :=
            mapPages_loads (b := fill { m with pmm } (f * 0x1000) userSize userCode)
            h.space h.root hbase plain_code hown.1 (pmmAlloc_takes halloc hf) hne rfl
          rcases enterUser_loads hloads₁.space h.root hown.2 zone
            { s.procs idx with present := true, terminated := false, pid := s.nextPid, stack, cr3 := pm } with
            ⟨m₂, heq₂, hloads₂⟩ | ⟨m₂, base'', l₂, heq₂, hloads₂, htable₂⟩
          · change enterUser pm [⟨userVaddrBase, BitVec.ofNat 64 (codePages userSize * 0x1000)⟩] _ _ _ = _ at heq₂
            rw [heq₂] at ht
            cases ht
            exact .leaked hcalled h (hloads₁.trans hloads₂) (.inr (by simp)) rfl (by decide)
          · change enterUser pm [⟨userVaddrBase, BitVec.ofNat 64 (codePages userSize * 0x1000)⟩] _ _ _ = _ at heq₂
            rw [heq₂] at ht
            cases ht
            exact .made hcalled h (hloads₁.trans hloads₂)
              (fun x hx => (List.mem_append.mp hx).elim (htable₂ x) (htable₁ x)) ⟨fun h => h, hall⟩ ⟨rfl, rfl⟩
                ⟨rfl, rfl⟩
              ⟨rfl, rfl, rfl⟩

/-! ## `proc_create_user_regions` -/

/-- The segments and the stack. -/
def regionsUmap (regs : List Ureg) : List Region := regs.map Ureg.region ++ [userStack (regs.map Ureg.region)]

def regionsFlags (regs : List Ureg) (flags : BitVec 64) : Prop := (∃ g ∈ regs, flags = g.pageFlags) ∨ flags = 0x7 ||| nx

/-- The memory and the PML4 of a new process, where there is a slot and kernel stack and PML4 are given. -/
def opened (kernel : Nat) (room : Option Nat) (s : Sys) : Option (Vm × Nat) :=
  match findFree s with
  | none => none
  | some _ =>
    let (s, stack) := kmalloc room { s with nextPid := s.nextPid + 1 }
    if stack = 0 then none
    else
      let (vm, pm) := newAddressSpace kernel s.vm
      if pm = 0 then none else some (vm, pm)

theorem opened_free (h : findFree s = none) : opened kernel room s = none := by rw [opened, h]

theorem opened_stack {s' : Sys} (h : kmalloc room { s with nextPid := s.nextPid + 1 } = (s', 0)) :
    opened kernel room s = none := by
  unfold opened
  split
  · rfl
  · rw [h]
    exact if_pos rfl

theorem opened_pml4 {s' : Sys} {stack : Nat} {m : Vm}
    (h : kmalloc room { s with nextPid := s.nextPid + 1 } = (s', stack))
    (h' : newAddressSpace kernel s'.vm = (m, 0)) : opened kernel room s = none := by
  unfold opened
  split
  · rfl
  · rw [h]
    dsimp only
    rw [h']
    split
    · rfl
    · exact if_pos rfl

theorem Begun.opened {base : Nat → Prop} {idx stack pm : Nat} {s' : Sys} {m : Vm}
    (h : Begun slots kernel roots base room s idx s' stack pm m)
    (heq : kmalloc room { s with nextPid := s.nextPid + 1 } = (s', stack))
    (heq' : newAddressSpace kernel s'.vm = (m, pm)) :
    opened kernel room s = some (m, pm) := by
  unfold Memory.opened
  rw [h.found, heq]
  dsimp only
  rw [if_neg h.stacked.ne, heq']
  exact if_neg h.pm_ne

/-- The segments that `proc_create_user_regions` comes to load. -/
def segmentsGiven (kernel : Nat) (room : Option Nat) (img : Nat → BitVec 8) (regs : List Ureg) (s : Sys) : List Ureg :=
  if regs.length = 0 ∨ regs.length > 7 then []
  else match opened kernel room s with
  | none => []
  | some (vm, pm) => given pm img regs vm

/-- There is a slot, and as many segments as `proc_create_user_regions` takes. -/
def Called (regs : List Ureg) (s : Sys) : Prop := (0 < regs.length ∧ regs.length ≤ 7) ∧ findFree s ≠ none

def Low (regs : List Ureg) : Prop := ∃ g ∈ regs, g.base < userVaddrBase

/-- The segments that are loaded, and the stack where these are all. -/
def reached (total : Nat) (regs : List Ureg) : List Region :=
  (loadable total regs).map Ureg.region ++ if loadable total regs = regs then [userStack (regs.map Ureg.region)] else []

theorem Own.reached {regs : List Ureg} (h : Own slots (regionsUmap regs)) (total : Nat) :
    Own slots (reached total regs) := by
  rw [regionsUmap, own_append] at h
  refine own_append.mpr ⟨fun g hg => ?_, ?_⟩
  · obtain ⟨r, hr, rfl⟩ := List.mem_map.mp hg
    exact h.1 _ (List.mem_map_of_mem ((List.takeWhile_sublist _).subset hr))
  · split
    · exact h.2
    · exact fun g hg => nomatch hg

/-- What a call comes to map: the segments that are loaded, and the stack where these are all. -/
def placed (kernel : Nat) (room : Option Nat) (img : Nat → BitVec 8) (regs : List Ureg) (s : Sys) : List Region :=
  (segmentsGiven kernel room img regs s).map Ureg.region ++
    if segmentsGiven kernel room img regs s = regs then [userStack (regs.map Ureg.region)] else []

theorem kmalloc_total (room : Option Nat) (s : Sys) : (kmalloc room s).1.vm.pmm.total = s.vm.pmm.total := by
  have htotal := pmmAlloc_total s.vm.pmm .heap 256
  unfold kmalloc
  split
  · rfl
  · dsimp only
    split <;> exact htotal

theorem opened_total {m : Vm} {pm : Nat} (h : opened kernel room s = some (m, pm)) : m.pmm.total = s.vm.pmm.total := by
  unfold opened at h
  split at h
  · cases h
  · dsimp only at h
    have hstack := kmalloc_total room { s with nextPid := s.nextPid + 1 }
    generalize kmalloc room { s with nextPid := s.nextPid + 1 } = r at h hstack
    have hpml4 := pmmAlloc_total r.1.vm.pmm .pml4 1
    split at h
    · cases h
    · split at h
      · cases h
      · cases h
        refine Eq.trans ?_ (hpml4.trans hstack)
        unfold newAddressSpace
        split <;> next halloc => rw [halloc]

theorem segmentsGiven_loadable (img : Nat → BitVec 8) (regs : List Ureg) :
    segmentsGiven kernel room img regs s <+: loadable s.vm.pmm.total regs := by
  unfold segmentsGiven
  split
  · exact List.nil_prefix
  · split
    · exact List.nil_prefix
    · next hopened =>
      rw [← opened_total hopened]
      exact given_loadable _ _ _ _

theorem own_placed {regs : List Ureg} (h : Own slots (reached s.vm.pmm.total regs)) (img : Nat → BitVec 8) :
    Own slots (placed kernel room img regs s) := by
  have hpre : segmentsGiven kernel room img regs s <+: loadable s.vm.pmm.total regs := segmentsGiven_loadable img regs
  rw [reached, own_append] at h
  refine own_append.mpr ⟨fun g hg => ?_, ?_⟩
  · obtain ⟨r, hr, rfl⟩ := List.mem_map.mp hg
    exact h.1 _ (List.mem_map_of_mem (hpre.subset hr))
  · split
    · next hall =>
      rw [hall] at hpre
      have hloadable : loadable s.vm.pmm.total regs = regs :=
        (hpre.eq_of_length_le (List.takeWhile_sublist _).length_le).symm
      rw [if_pos hloadable] at h
      exact h.2
    · exact fun g hg => nomatch hg

theorem createUserRegions_ends (hnull : s.vm.pmm.used 0 = true) (hroom : ∀ p ∈ room, p ≠ 0)
    (hroot : ∀ idx, findFree s = some idx → roots idx = none)
    (hspace : ∀ s' stack, Stacked room { s with nextPid := s.nextPid + 1 } s' stack →
    Space slots kernel roots (B s') s'.vm)
    {img : Nat → BitVec 8} {regs : List Ureg} {zone : Nat → BitVec 8}
    (hown : Called regs s → Own slots (placed kernel room img regs s)) {t : Sys} {e : Int}
    (ht : createUserRegions kernel room img regs zone s = (t, e)) :
    Ends slots kernel roots B room s (Called regs s) (Low regs) (regionsUmap regs)
      ((segmentsGiven kernel room img regs s).map Ureg.region) (regionsFlags regs) t e := by
  unfold createUserRegions at ht
  by_cases hlen : regs.length = 0 ∨ regs.length > 7
  · rw [if_pos hlen] at ht
    cases ht
    have hnothing : segmentsGiven kernel room img regs s = [] := if_pos hlen
    refine .early (by decide) ⟨fun h => ?_, congrArg (List.map Ureg.region) hnothing⟩
    have := h.1
    omega
  · rw [if_neg hlen] at ht
    have hnothing : opened kernel room s = none → (segmentsGiven kernel room img regs s).map Ureg.region = [] := by
      intro hnone
      rw [segmentsGiven, if_neg hlen, hnone]
      rfl
    cases hfree : findFree s with
    | none =>
      rw [hfree] at ht
      cases ht
      exact .early (by decide) ⟨fun h => h.2 hfree, hnothing (opened_free hfree)⟩
    | some idx =>
      have hcalled : Called regs s := ⟨⟨by omega, by omega⟩, by simp [hfree]⟩
      rw [hfree] at ht
      dsimp only at ht
      rcases begin_cases hnull hroom hfree (hroot idx hfree) hspace with
        heq | ⟨s', stack, heq, hs, heq' | ⟨m, pm, heq', h⟩⟩
      · rw [heq] at ht
        dsimp only at ht
        rw [if_pos rfl] at ht
        cases ht
        exact .noStack ⟨hcalled, hnothing (opened_stack heq)⟩ hfree rfl
      · rw [heq] at ht
        dsimp only at ht
        rw [if_neg hs.ne, heq'] at ht
        dsimp only at ht
        rw [if_pos rfl] at ht
        cases ht
        exact .noSpace ⟨hcalled, hnothing (opened_pml4 heq heq')⟩ hfree hs rfl
      · rw [heq] at ht
        dsimp only at ht
        rw [if_neg hs.ne, heq'] at ht
        dsimp only at ht
        rw [if_neg h.pm_ne] at ht
        have hopened := h.opened heq heq'
        have hown := hown hcalled
        have hgiven : segmentsGiven kernel room img regs s = given pm img regs m := by
          rw [segmentsGiven, if_neg hlen, hopened]
        rw [placed, hgiven, own_append] at hown
        obtain ⟨m₁, res, base', l₁, heq₁, hpre, hloads₁, hres⟩ := loadRegions_loads h.space h.root img hown.1 []
        rw [heq₁] at ht
        rcases hres with ⟨rfl, hall, htable₁, hbases⟩ | ⟨e', rfl, hneg, hwhy, hcause⟩
        · rw [hall] at hloads₁
          rw [hall, if_pos rfl] at hown
          dsimp only at ht
          rw [List.nil_append] at ht
          rcases enterUser_loads hloads₁.space h.root hown.2 zone
            { s.procs idx with present := true, terminated := false, pid := s.nextPid, stack, cr3 := pm } with
            ⟨m₂, heq₂, hloads₂⟩ | ⟨m₂, base'', l₂, heq₂, hloads₂, htable₂⟩
          · rw [heq₂] at ht
            cases ht
            exact .leaked hcalled h (hloads₁.trans hloads₂) (.inr (by simp)) rfl (by decide)
          · rw [heq₂] at ht
            cases ht
            exact .made hcalled h (hloads₁.trans hloads₂)
              (fun x hx => (List.mem_append.mp hx).elim (htable₂ x) (htable₁ x))
              ⟨fun ⟨g, hg, hlow⟩ => (hbases g hg).1 hlow, own_append.mpr hown⟩ ⟨rfl, rfl⟩ ⟨rfl, rfl⟩ ⟨rfl, rfl, rfl⟩
        · dsimp only at ht
          cases ht
          refine .undone hcalled h hloads₁ ⟨by rw [hgiven], ?_, hown.1⟩ hwhy hcause rfl hneg
          exact (List.IsPrefix.map Ureg.region hpre).trans (List.prefix_append _ _)

end

end Siathos.Proc.Memory
