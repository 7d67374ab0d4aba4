import Siathos.Proc.Bytes

/-!
# Creation is all or nothing

A creation that fails leaves memory and the table of processes as they were, and one that returns a pid has mapped
everything, as long as `pmm_alloc` refuses nothing that the code does not look at or does not give back.
-/

open Lib Siathos.Paging

namespace Siathos.Proc.Memory

/-- What boot establishes: page 0 and the kernel's PML4 are in use, and the kernel maps nothing at `USER_VADDR_BASE`. -/
structure Machine (kernel : Nat) (m : Vm) : Prop where
  total : m.pmm.total ≤ 2 ^ 36
  null : m.pmm.used 0 = true
  kernelUsed : m.pmm.used kernel = true
  user : present (m.tables kernel (idxL4 userVaddrBase)) = false

/-- The process has its stack and its PML4, and in ring 3 all of its regions are mapped. -/
structure Complete (t : Sys) (p : Pcb) : Prop where
  stack : p.stack ≠ 0 ∧ p.stack ∈ t.blocks
  space : p.cr3 ≠ 0 ∧ t.vm.pmm.used p.cr3 = true
  mapped : p.isUser = true → ∀ g ∈ p.umap, ∀ i < pagesOf g, (lookup t.vm p.cr3 (page g.base i)).isSome = true

/-- The slots of its PML4 that the kernel uses. -/
def kernelSlots (kernel : Nat) (m : Vm) (i : Nat) : Bool := present (m.tables kernel i)

theorem Machine.space {kernel : Nat} {m : Vm} (h : Machine kernel m) :
    Space (kernelSlots kernel m) kernel (fun _ => none) (fun f => m.pmm.used f = true) m := by
  refine ⟨h.total, h.null, fun f => ⟨fun hf => .inl hf, ?_⟩, fun f _ k p _ hs => ?_, fun k p k' p' t _ _ hs _ => ?_,
    fun k p f _ hs => ?_, h.kernelUsed, fun i _ => rfl, fun k r hr => ?_, fun k p t i _ _ hs => ?_⟩
  · rintro (hf | ⟨k, p, -, hs⟩)
    · exact hf
    · cases hs
  all_goals first | cases hs | cases hr

theorem Stacked.machine {kernel stack : Nat} {room : Option Nat} {s s' : Sys} (hs : Stacked room s s' stack)
    (h : Machine kernel s.vm) :
    Space (kernelSlots kernel s.vm) kernel (fun _ => none) (fun f => s'.vm.pmm.used f = true) s'.vm := by
  have hslots : kernelSlots kernel s.vm = kernelSlots kernel s'.vm := by
    unfold kernelSlots
    rw [hs.tables]
  rw [hslots]
  refine Machine.space ⟨hs.total ▸ h.total, hs.mono _ h.null, hs.mono _ h.kernelUsed, ?_⟩
  rw [hs.tables]
  exact h.user

section

variable {slots : Nat → Bool} {kernel idx stack pm : Nat} {room : Option Nat} {s s' : Sys} {base : Nat → Prop} {m : Vm}

end

/-! ## `proc_create_argv` -/

theorem userStack_code {n : Nat} (h : n ≤ 512) :
    userStack [region userVaddrBase n] = region (page userVaddrBase (n + 16)) userStackPages := by
  have hbase : userVaddrBase.toNat = 0x200000000000 := rfl
  have hpos : userVaddrBase + BitVec.ofNat 64 (n * 0x1000) > 0 := by
    rw [gt_iff_lt, BitVec.lt_def, BitVec.toNat_add, BitVec.toNat_ofNat, hbase]
    change 0 < _
    omega
  refine congrArg (region · userStackPages) (BitVec.eq_of_toNat_eq ?_)
  rw [maxEnd, List.foldl_cons, List.foldl_nil, region, if_pos hpos, BitVec.toNat_add, toNat_pageFloor]
  have hround : (0xFFF : BitVec 64).toNat = 4095 := rfl
  have hgap : (0x10000 : BitVec 64).toNat = 65536 := rfl
  simp only [page, BitVec.toNat_add, BitVec.toNat_ofNat, hbase, hround, hgap]
  omega

theorem idxL4_user {i : Nat} (h : i < 2 ^ 27) : idxL4 (page userVaddrBase i) = idxL4 userVaddrBase := by
  have hvpn : vpn userVaddrBase = 2 ^ 33 := by decide
  rw [idxL4_eq, idxL4_eq, vpn_page (by decide), hvpn]
  omega

theorem argsUmap_spec {slots : Nat → Bool} (hslot : slots (idxL4 userVaddrBase) = false) (userSize : Nat) :
    Own slots (argsUmap userSize) ∧ Disjoint (argsUmap userSize) := by
  have hn := (codePages_le userSize).2
  have hcode : pagesOf (region userVaddrBase (codePages userSize)) = codePages userSize := pagesOf_region (by omega) _
  have hstack : pagesOf (region (page userVaddrBase (codePages userSize + 16)) userStackPages) = userStackPages :=
    pagesOf_region (by decide) _
  unfold argsUmap
  rw [userStack_code hn]
  constructor
  · intro g hg i hi
    rcases List.mem_pair.mp hg with rfl | rfl
    · rw [hcode] at hi
      exact (congrArg slots (idxL4_user (by omega))).trans hslot
    · rw [hstack] at hi
      unfold userStackPages at hi
      change slots (idxL4 (page (page userVaddrBase _) i)) = false
      rw [page_page, idxL4_user (by omega)]
      exact hslot
  · rw [Disjoint, List.pairwise_pair]
    rintro u ⟨i, hi, hu⟩ ⟨j, hj, hu'⟩
    rw [hcode] at hi
    rw [hstack] at hj
    unfold userStackPages at hj
    have heq : vpn (page userVaddrBase i) = vpn (page userVaddrBase (codePages userSize + 16 + j)) := by
      rw [← page_page]
      exact hu.symm.trans hu'
    have := vpn_page_inj (by decide) (by omega) (by omega) heq
    omega

/-! ## All or nothing -/

/-- What is mapped lies in slots of the PML4 that the kernel does not use, and no segment that is loaded is
longer than its pages. The code checks neither. -/
def Tidy (kernel : Nat) (room : Option Nat) (img : Nat → BitVec 8) (regs : List Ureg) (s : Sys) : Prop :=
  Called regs s → Own (kernelSlots kernel s.vm) (placed kernel room img regs s) ∧
    ∀ g ∈ segmentsGiven kernel room img regs s, g.Fits

def noProcess : Pcb := ⟨false, false, 0, 0, 0, false, [], none, 0, 0⟩

/-- A machine with `total` pages of memory, of which two are in use. -/
def freshSys (total : Nat) : Sys where
  vm := ⟨⟨total, fun f => decide (f < 2), [], false⟩, fun _ _ => 0, fun _ => 0⟩
  blocks := []
  procs := fun _ => noProcess
  nextPid := 1
  current := 0
  active := 1
  running := false
  chunks := []
  stray := false

theorem freshSys_machine {total : Nat} (h : total ≤ 2 ^ 36) : Machine 1 (freshSys total).vm :=
  ⟨h, rfl, rfl, present_zero⟩

end Siathos.Proc.Memory
