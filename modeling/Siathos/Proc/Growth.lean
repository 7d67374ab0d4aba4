import Siathos.Paging.Supply
import Siathos.Proc.Pages

/-!
# Memory that a running process gets

`SYS_MMAP` maps pages of memory, and takes back those that it has mapped where it fails. `SYS_DEV_MAP` maps
pages of a device.
-/

open Lib Siathos.Paging

namespace Siathos.Proc.Memory

section

variable {slots : Nat → Bool} {kernel : Nat} {roots : Nat → Option Nat} {base : Nat → Prop} {m : Vm} {k r : Nat}

/-! ## A page more or less -/

/-- The pages from `lo` to `hi` above `b` have such entries, and nothing else has changed. -/
structure Grows (slots : Nat → Bool) (kernel : Nat) (roots : Nat → Option Nat) (base : Nat → Prop) (k : Nat)
    (b : BitVec 64) (lo hi : Nat) (Entry : BitVec 64 → Prop) (m m' : Vm) : Prop where
  frames : Frames slots roots k m m'
  space : Space slots kernel roots base m'
  entries : ∀ i, lo ≤ i → i < hi → Entry (pte roots m' k (page b i))
  rest : ∀ k' u, slots (idxL4 u) = false → (∀ i, lo ≤ i → i < hi → k' = k → vpn u ≠ vpn (page b i)) →
    pte roots m' k' u = pte roots m k' u

theorem Grows.none {b : BitVec 64} {lo : Nat} {Entry : BitVec 64 → Prop} {m' : Vm}
    (h : Space slots kernel roots base m')
    (hframes : Frames slots roots k m m')
    (hrest : ∀ k' u, slots (idxL4 u) = false → pte roots m' k' u = pte roots m k' u) :
    Grows slots kernel roots base k b lo lo Entry m m' :=
  ⟨hframes, h, fun i hle hlt => absurd hle (by omega), fun k' u hu _ => hrest k' u hu⟩

theorem Grows.cons {b : BitVec 64} {lo hi : Nat} {Entry : BitVec 64 → Prop} {w : BitVec 64} {m' m'' : Vm}
    (hb : b &&& 0xFFF = 0) (hhi : hi ≤ 2 ^ 36) (hlo : lo < hi) (hslot : slots (idxL4 (page b lo)) = false)
    (h : Maps slots roots k (tablePath (page b lo)) (idxL1 (page b lo)) w m m') (hw : Entry w)
    (h' : Grows slots kernel roots base k b (lo + 1) hi Entry m' m'') :
    Grows slots kernel roots base k b lo hi Entry m m'' := by
  refine ⟨h.toFrames.trans h'.frames, h'.space, fun i hle hlt => ?_, fun k' u hu hno => ?_⟩
  · rcases Nat.lt_or_eq_of_le hle with hlt' | rfl
    · exact h'.entries i hlt' hlt
    · rw [h'.rest k _ hslot fun j hj hj' _ heq => ?_, h.pte k hslot, if_pos ⟨rfl, rfl⟩]
      · exact hw
      · have := vpn_page_inj hb (by omega) (by omega) heq
        omega
  · rw [h'.rest k' u hu fun i hle hlt => hno i (by omega) hlt, h.pte k' hu, if_neg]
    rintro ⟨hk, heq⟩
    exact hno lo (Nat.le_refl lo) hlo hk heq

/-! ## `SYS_MMAP` -/

/-- The entry names a page of memory for data. -/
def DataEntry (w : BitVec 64) : Prop := ∃ c < 2 ^ 40, w = entry (pageAddr c) (0x7 ||| nx)

theorem Space.takeBack (h : Space slots kernel roots base m) {pmm' : Pmm} {c : Nat} (ht : Takes m.pmm pmm' c 1)
    (hc : c ≠ 0)
    {m' : Vm} (hspace : Space slots kernel roots (fun j => base j ∨ c ≤ j ∧ j < c + 1) m')
    (hframes : Frames slots roots k m m') :
    Space slots kernel roots base { m' with pmm := pmmFree m'.pmm c 1 } ∧
      Frames slots roots k m { m' with pmm := pmmFree m'.pmm c 1 } := by
  obtain ⟨hfree, hlt⟩ := ht.free c (Nat.le_refl c) (by omega)
  have hbc : ∀ j, base j → j ≠ c := by
    rintro j hb rfl
    rw [(h.used j).mpr (.inl hb)] at hfree
    cases hfree
  have hck : c ≠ kernel := fun heq => hbc kernel h.kernelHeld heq.symm
  have hused : m'.pmm.used c = true := (hspace.used c).mpr (.inl (.inr ⟨Nat.le_refl c, by omega⟩))
  have hlt' : c < m'.pmm.total := by rwa [hframes.total]
  refine ⟨(Space.release hspace (.inr ⟨Nat.le_refl c, by omega⟩) hck hc hlt').base_congr fun j => ?_,
    ?_, ?_, fun f hf => ?_, hframes.words, hframes.fresh⟩
  · constructor
    · intro hb
      exact ⟨.inl hb, hbc j hb⟩
    · rintro ⟨hb | hj, hne⟩
      · exact hb
      · omega
  · rw [pmmFree_total, hframes.total]
  · rw [pmmFree_doubled hc hused, hframes.doubled]
  · have hne : f ≠ c := by
      rintro rfl
      rw [hf] at hfree
      cases hfree
    rw [pmmFree_page hc hlt', hframes.mono f hf]
    simp [hne]

theorem mmapPages_spec {b : BitVec 64} (hb : b &&& 0xFFF = 0) (h : Space slots kernel roots base m)
    (hr : roots k = some r) {done n : Nat} (hn : done + n ≤ 2 ^ 36)
    (hslot : ∀ i, done ≤ i → i < done + n → slots (idxL4 (page b i)) = false) :
    ∃ base' m' d, d ≤ n ∧ mmapPages r b done n m = (m', if d = n then none else some (done + d)) ∧
      Enough roots m k 1 (page b done) n d ∧ (∀ f, base f → base' f) ∧
      ((∀ i, done ≤ i → i < done + d → next 3 (pte roots m k (page b i)) = none) → ∀ f, base' f → base f) ∧
      (∀ i, done ≤ i → i < done + d → ∀ f, next 3 (pte roots m k (page b i)) = some f → base' f) ∧
      Grows slots kernel roots base' k b done (done + d) DataEntry m m' := by
  induction n generalizing done m base with
  | zero =>
    exact ⟨base, m, 0, Nat.le_refl 0, rfl, Enough.zero 1 _, fun _ hf => hf, fun _ _ hf => hf,
      fun i hle hlt => absurd hle (by omega), Grows.none h (Frames.refl k m) fun _ _ _ => rfl⟩
  | succ n ih =>
    have hfirst := hslot done (Nat.le_refl _) (by omega)
    have hnull : m.pmm.used 0 = true := (h.used 0).mpr (.inl h.null)
    unfold mmapPages
    rcases pmmAlloc_one hnull .mmap with ⟨hfull, halloc⟩ | ⟨pmm, c, halloc, hc, htakes, hcount⟩
    · rw [halloc]
      have hext : Extends slots roots k m { m with pmm := { m.pmm with refused := .mmap :: m.pmm.refused } } :=
        Extends.take rfl rfl fun _ hf => hf
      exact ⟨base, _, 0, Nat.zero_le _, rfl, Enough.none (by omega), fun _ hf => hf, fun _ _ hf => hf,
        fun i hle hlt => absurd hle (by omega), Grows.none (h.refuse _) hext.toFrames fun _ _ _ => rfl⟩
    · rw [halloc]
      dsimp only
      rw [if_neg hc]
      obtain ⟨hfree, hlt⟩ := htakes.free c (Nat.le_refl c) (by omega)
      have hg := granted_of_takes h htakes
      have hck : c ≠ kernel ∧ c ≠ 0 := hg.other 0 (by omega)
      have hlt' : c < pmm.total := hg.lt 0 (by omega)
      have hok := own_tablePath hfirst
      have hbase : ∀ j, ((base j ∨ c ≤ j ∧ j < c + 1) ∨ next 3 (pte roots m k (page b done)) = some j) ∧ j ≠ c ↔
          base j ∨ next 3 (pte roots m k (page b done)) = some j := by
        intro j
        constructor
        · rintro ⟨(hb | hj) | hj, hne⟩
          · exact .inl hb
          · omega
          · exact .inr hj
        · intro hj
          refine ⟨hj.imp .inl id, ?_⟩
          rintro rfl
          have hused : m.pmm.used j = true := by
            rcases hj with hj | hj
            · exact (h.used j).mpr (.inl hj)
            · exact h.seated_used hok ((seat_page roots m k (page b done)).trans hj)
          rw [hused] at hfree
          cases hfree
      have htake : Extends slots roots k m { m with pmm } :=
        Extends.take htakes.total htakes.doubled fun f hf => (htakes.used f).mpr (.inl hf)
      have hmakes := mapUser_makes (h.alloc htakes) (0x7 ||| nx) hr hfirst (page_aligned hb done)
        (pageAddr_aligned c)
      rcases mapUser_page (h.alloc htakes) hr hfirst (page_aligned hb done) (plain_data.next (h.small hlt) 3)
        (.inr ⟨Nat.le_refl c, by omega⟩) hck.1 hck.2 hlt' with ⟨m', heq, hspace, hext, -⟩ | ⟨m', heq, hspace, hmaps, -⟩
      · rw [heq] at hmakes
        have heq : mapUser r (b + BitVec.ofNat 64 (done * 0x1000)) (pageAddr c) (0x7 ||| nx) { m with pmm } =
          (m', false) :=
          heq
        have hfew : freeFrames pmm < (missing roots m k (wayTo (page b done))).card := by
          rcases hmakes with ⟨m'', heq', -⟩ | ⟨-, hfew⟩
          · cases heq'
          · exact hfew
        obtain ⟨hspace, hframes⟩ := Space.takeBack h htakes hc hspace (htake.toFrames.trans hext.toFrames)
        rw [heq]
        exact ⟨base, { m' with pmm := pmmFree m'.pmm c 1 }, 0, Nat.zero_le _, rfl, Enough.none (by omega),
          fun _ hf => hf, fun _ _ hf => hf, fun i hle hlt => absurd hle (by omega),
          Grows.none hspace hframes fun k' u hu => (hext.pte k' hu).trans rfl⟩
      · rw [heq] at hmakes
        have heq : mapUser r (b + BitVec.ofNat 64 (done * 0x1000)) (pageAddr c) (0x7 ||| nx) { m with pmm } =
          (m', true) :=
          heq
        have hmakes : Makes slots roots k (wayTo (page b done)) { m with pmm } m' := by
          rcases hmakes with ⟨m'', heq', hmakes⟩ | ⟨⟨m'', heq'⟩, -⟩
          · cases heq'
            exact hmakes
          · cases heq'
        rw [heq]
        have hspace : Space slots kernel roots
            (fun j => base j ∨ next 3 (pte roots m k (page b done)) = some j) m' :=
          hspace.base_congr fun j => (hbase j).symm
        have hmaps : Maps slots roots k (tablePath (page b done)) (idxL1 (page b done))
            (entry (pageAddr c) (0x7 ||| nx)) m m' := htake.maps hmaps
        have hentry : DataEntry (entry (pageAddr c) (0x7 ||| nx)) := ⟨c, h.small hlt, rfl⟩
        have hcount' : done + 1 + n ≤ 2 ^ 36 := by omega
        obtain ⟨base', m'', d, hd, heq', henough, hmono, hsame, hlost, hgrows⟩ :=
          ih hspace hcount' fun i hle hlt => hslot i (by omega) (by omega)
        have hsum : done + 1 + d = done + (d + 1) := by omega
        rw [hsum] at hsame hlost hgrows heq'
        have hlater : ∀ i, done + 1 ≤ i → i < done + (d + 1) →
            pte roots m' k (page b i) = pte roots m k (page b i) := by
          intro i hle hlt
          rw [hmaps.pte k (hslot i (by omega) (by omega)), if_neg]
          rintro ⟨-, heq⟩
          have := vpn_page_inj hb (by omega) (by omega) heq
          omega
        refine ⟨base', m'', d + 1, by omega, ?_, ?_, fun f hf => hmono f (.inl hf), fun hvacant f hf => ?_,
          fun i hle hlt f hf => ?_, hgrows.cons hb (by omega) (by omega) hfirst hmaps hentry⟩
        · simpa using heq'
        · refine Enough.cons (fun i hi => ?_) (show ({ m with pmm } : Vm).tables = m.tables from rfl) hcount hmakes ?_
          · rw [page_page]
            exact hslot _ (by omega) (by omega)
          · rwa [page_page]
        · have hempty := hvacant done (Nat.le_refl _) (by omega)
          have hnext : ∀ i, done + 1 ≤ i → i < done + (d + 1) → next 3 (pte roots m' k (page b i)) = none := by
            intro i hle hlt
            rw [hlater i hle hlt]
            exact hvacant i (by omega) hlt
          rcases hsame hnext f hf with hf | hf
          · exact hf
          · rw [hempty] at hf
            cases hf
        · rcases Nat.eq_or_lt_of_le hle with rfl | hlt'
          · exact hmono f (.inr hf)
          · exact hlost i hlt' hlt f (by rwa [hlater i hlt' hlt])

/-- Entries have been emptied in the tree `k`, whose tables are as before. -/
structure Clears (slots : Nat → Bool) (kernel : Nat) (roots : Nat → Option Nat) (base : Nat → Prop) (k : Nat)
    (b : BitVec 64) (lo hi : Nat) (m m' : Vm) : Prop where
  total : m'.pmm.total = m.pmm.total
  doubled : m'.pmm.doubled = m.pmm.doubled
  space : Space slots kernel roots base m'
  seats : ∀ p f, (own slots).Ok p → p.length ≤ 3 → seat roots m' k p = some f → seat roots m k p = some f
  words : ∀ f i, (∀ p, (own slots).Ok p → p.length ≤ 3 → seat roots m k p ≠ some f) → m'.tables f i = m.tables f i
  entries : ∀ i, lo ≤ i → i < hi → pte roots m' k (page b i) = 0
  rest : ∀ k' u, slots (idxL4 u) = false → (∀ i, lo ≤ i → i < hi → k' = k → vpn u ≠ vpn (page b i)) →
    pte roots m' k' u = pte roots m k' u

theorem unmapPages_succ (pml4 : Nat) (v : BitVec 64) (n : Nat) (m : Vm) :
    unmapPages pml4 v (n + 1) m =
      let r := unmapUser pml4 (page v n) (unmapPages pml4 v n m)
      if r.2 = 0 then r.1 else { r.1 with pmm := pmmFree r.1.pmm r.2 1 } := by
  rw [unmapPages, List.range_succ, List.foldl_append]
  rfl

theorem DataEntry.next {w : BitVec 64} (h : DataEntry w) : ∃ c, Paging.next 3 w = some c ∧ pfn w = c := by
  obtain ⟨c, hc, rfl⟩ := h
  exact ⟨c, plain_data.next hc 3, pfn_entry hc plain_data.addr⟩

theorem next_present {d : Nat} {w : BitVec 64} {c : Nat} (h : next d w = some c) : present w = true := by
  by_contra hp
  rw [next_absent (by simpa using hp)] at h
  cases h

/-- The rollback of `SYS_MMAP`, over pages that it has mapped. -/
theorem unmapPages_spec {b : BitVec 64} (hb : b &&& 0xFFF = 0) (h : Space slots kernel roots base m)
    (hr : roots k = some r) {n : Nat} (hn : n ≤ 2 ^ 36)
    (hmapped : ∀ i < n, slots (idxL4 (page b i)) = false ∧ DataEntry (pte roots m k (page b i))) :
    Clears slots kernel roots base k b 0 n m (unmapPages r b n m) := by
  induction n with
  | zero =>
    exact ⟨rfl, rfl, h, fun _ _ _ _ hs => hs, fun _ _ _ => rfl, fun i _ hi => absurd hi (by omega), fun _ _ _ _ => rfl⟩
  | succ n ih =>
    have ih := ih (by omega) fun i hi => hmapped i (by omega)
    rw [unmapPages_succ]
    generalize unmapPages r b n m = m₁ at ih ⊢
    obtain ⟨hslot, hentry⟩ := hmapped n (by omega)
    have hsame : pte roots m₁ k (page b n) = pte roots m k (page b n) := by
      refine ih.rest k _ hslot fun i _ hi _ heq => ?_
      have := vpn_page_inj hb (by omega) (by omega) heq
      omega
    rw [← hsame] at hentry
    obtain ⟨c, hnext, hpfn⟩ := hentry.next
    have hseat := (seat_page roots m₁ k (page b n)).trans hnext
    have hc : c ≠ 0 := ih.space.seated_ne_zero (own_tablePath hslot) hseat
    have hused := ih.space.seated_used (own_tablePath hslot) hseat
    have hlt := ih.space.inRange k _ c (own_tablePath hslot) hseat
    have hck : c ≠ kernel := by
      rintro rfl
      exact ih.space.apart c ih.space.kernelHeld k _ (own_tablePath hslot) hseat
    rcases unmapUser_eq ih.space hr hslot (page_aligned hb n) with ⟨habs, -⟩ | ⟨t, ht, hword, heq⟩
    · rw [next_present hnext] at habs
      cases habs
    · rw [heq, hpfn]
      dsimp only
      rw [if_neg hc]
      have hzero : next 3 (0 : BitVec 64) = none := next_absent present_zero
      obtain ⟨hspace, hmaps⟩ := ih.space.unmapped (own_tablePath hslot) rfl ht hzero
      rw [hword, hnext] at hspace
      have hbc : ¬ base c := fun hbc => ih.space.apart c hbc k _ (own_tablePath hslot) hseat
      have hback : ∀ p f, (own slots).Ok p → p.length ≤ 3 →
          seat roots (leafWrite m₁ t (idxL1 (page b n)) 0) k p = some f → seat roots m₁ k p = some f := by
        intro p f hp hlen hs
        rcases hmaps.fresh p f hp hlen hs with hs' | hfree
        · exact hs'
        · have := hspace.seated_used hp hs
          rw [show (leafWrite m₁ t (idxL1 (page b n)) 0).pmm = m₁.pmm from rfl, hfree] at this
          cases this
      refine ⟨?_, ?_, ?_, fun p f hp hlen hs => ih.seats p f hp hlen (hback p f hp hlen hs), fun f i hno => ?_,
        fun i _ hi => ?_, fun k' u hu hno => ?_⟩
      · rw [pmmFree_total]
        exact ih.total
      · exact (pmmFree_doubled hc hused).trans ih.doubled
      · refine (hspace.release (.inr rfl) hck hc hlt).base_congr fun j => ?_
        constructor
        · intro hj
          refine ⟨.inl hj, ?_⟩
          rintro rfl
          exact hbc hj
        · rintro ⟨hj | hj, hne⟩
          · exact hj
          · exact absurd (Option.some.inj hj).symm hne
      · rw [← ih.words f i hno]
        refine Radix.write_other (.inl ?_)
        rintro rfl
        exact hno _ ((own slots).init _ _ (own_tablePath hslot)) (by simp [tablePath])
          (ih.seats _ _ ((own slots).init _ _ (own_tablePath hslot)) (by simp [tablePath]) ht)
      · have hu := (hmapped i hi).1
        refine (hmaps.pte k hu).trans ?_
        split
        · rfl
        · rename_i hne
          refine ih.entries i (Nat.zero_le i) ?_
          rcases Nat.lt_succ_iff_lt_or_eq.mp hi with hi | rfl
          · exact hi
          · exact absurd ⟨rfl, rfl⟩ hne
      · refine (hmaps.pte k' hu).trans ?_
        rw [if_neg fun hsame => hno n (Nat.zero_le n) (by omega) hsame.1 hsame.2]
        exact ih.rest k' u hu fun i _ hi => hno i (Nat.zero_le i) (by omega)

/-! ## `SYS_DEV_MAP` -/

/-- The entry names a page of a device. -/
def DeviceEntry (w : BitVec 64) : Prop := ∃ phys, w = entry phys (0x7 ||| nx ||| pteAvailMmio)

theorem DeviceEntry.next {w : BitVec 64} (h : DeviceEntry w) : Paging.next 3 w = none := by
  obtain ⟨phys, rfl⟩ := h
  have hmmio : mmio (0x7 ||| nx ||| pteAvailMmio) = true := by decide
  rw [Paging.next, mmio_entry, hmmio]
  simp

theorem aligned_add {a b : BitVec 64} (ha : a &&& 0xFFF = 0) (hb : b &&& 0xFFF = 0) : (a + b) &&& 0xFFF = 0 := by
  rw [aligned_iff] at ha hb ⊢
  rw [BitVec.toNat_add]
  omega

theorem page_succ (v : BitVec 64) (i : Nat) : page (v + 0x1000) i = page v (i + 1) := by
  rw [page, page, BitVec.add_assoc, Nat.succ_mul, Nat.add_comm, BitVec.ofNat_add]
  rfl

theorem Grows.shift {v : BitVec 64} {d : Nat} {Entry : BitVec 64 → Prop} {m' : Vm}
    (h : Grows slots kernel roots base k (v + 0x1000) 0 d Entry m m') :
    Grows slots kernel roots base k v 1 (d + 1) Entry m m' := by
  refine ⟨h.frames, h.space, fun i hle hlt => ?_, fun k' u hu hno => h.rest k' u hu fun i _ hlt => ?_⟩
  · obtain ⟨j, rfl⟩ := Nat.exists_eq_add_of_le' hle
    rw [← page_succ]
    exact h.entries j (Nat.zero_le j) (by omega)
  · rw [page_succ]
    exact hno (i + 1) (by omega) (by omega)

theorem devPages_spec {v phys : BitVec 64} (hv : v &&& 0xFFF = 0) (hph : phys &&& 0xFFF = 0)
    (h : Space slots kernel roots base m) (hr : roots k = some r) {n : Nat} (hn : n ≤ 2 ^ 36)
    (hslot : ∀ i < n, slots (idxL4 (page v i)) = false) :
    ∃ base' m' d ok, (∀ f, base f → base' f) ∧
      ((∀ i < n, next 3 (pte roots m k (page v i)) = none) → ∀ f, base' f → base f) ∧
      devPages r v phys n m = (m', ok) ∧ d ≤ n ∧ (ok = true → d = n) ∧
      Grows slots kernel roots base' k v 0 d DeviceEntry m m' := by
  induction n generalizing v phys m base with
  | zero =>
    exact ⟨base, m, 0, true, fun _ hf => hf, fun _ _ hf => hf, rfl, Nat.le_refl 0, fun _ => rfl,
      Grows.none h (Frames.refl k m) fun _ _ _ => rfl⟩
  | succ n ih =>
    have hfirst := hslot 0 (by omega)
    have hentry : DeviceEntry (entry phys (0x7 ||| nx ||| pteAvailMmio)) := ⟨phys, rfl⟩
    have hstep : (0x1000 : BitVec 64) &&& 0xFFF = 0 := by decide
    have hmap := mapUser_mmio h hr hfirst (page_aligned hv 0) hph hentry.next
    rw [page_zero] at hfirst hmap
    unfold devPages
    rcases hmap with ⟨m', heq, hspace, hext, -⟩ | ⟨m', heq, hspace, hmaps, -⟩
    · rw [heq]
      exact ⟨base, m', 0, false, fun _ hf => hf, fun _ _ hf => hf, rfl, by omega, by simp,
        Grows.none hspace hext.toFrames fun k' u hu => hext.pte k' hu⟩
    · rw [heq]
      obtain ⟨base', m'', d, ok, hmono, hsame, heq', hle, hok, hgrows⟩ :=
        ih (aligned_add hv hstep) (aligned_add hph hstep) hspace (by omega) fun i hi => by
          rw [page_succ]
          exact hslot (i + 1) (by omega)
      refine ⟨base', m'', d + 1, ok, fun f hf => hmono f (.inl hf), fun hvacant f hf => ?_, heq', by omega,
        fun htrue => by rw [hok htrue], ?_⟩
      · have hempty : next 3 (leafAt roots m k (tablePath v) (idxL1 v)) = none := by
          have := hvacant 0 (by omega)
          rwa [page_zero] at this
        have hnext : ∀ i < n, next 3 (pte roots m' k (page (v + 0x1000) i)) = none := by
          intro i hi
          rw [page_succ, hmaps.pte k (hslot (i + 1) (by omega)), if_neg]
          · exact hvacant (i + 1) (by omega)
          · rintro ⟨-, hpage⟩
            have hzero : vpn v = vpn (page v 0) := by rw [page_zero]
            have := vpn_page_inj hv (by omega) (by omega) (hpage.trans hzero)
            omega
        rcases hsame hnext f hf with hf | hf
        · exact hf
        · rw [hempty] at hf
          cases hf
      · rw [← page_zero v] at hfirst hmaps
        exact hgrows.shift.cons hv (by omega) (by omega) hfirst hmaps hentry

/-! ## What the calls do -/

/-- Pages among the `n` from `b` on have got entries of this kind in the tree `k`. -/
structure Touches (slots : Nat → Bool) (kernel : Nat) (roots : Nat → Option Nat) (base : Nat → Prop) (k : Nat)
    (b : BitVec 64) (n : Nat) (Entry : BitVec 64 → Prop) (m m' : Vm) : Prop where
  total : m'.pmm.total = m.pmm.total
  doubled : m'.pmm.doubled = m.pmm.doubled
  space : Space slots kernel roots base m'
  words : ∀ f i, m.pmm.used f = true → (∀ p, (own slots).Ok p → p.length ≤ 3 → seat roots m k p ≠ some f) →
    m'.tables f i = m.tables f i
  entries : ∀ i < n, slots (idxL4 (page b i)) = false →
    pte roots m' k (page b i) = pte roots m k (page b i) ∨ Entry (pte roots m' k (page b i))
  rest : ∀ k' u, slots (idxL4 u) = false → (∀ i < n, k' = k → vpn u ≠ vpn (page b i)) →
  pte roots m' k' u = pte roots m k' u

theorem Grows.touches {b : BitVec 64} {d n : Nat} {Entry : BitVec 64 → Prop} {m' : Vm} (hd : d ≤ n)
    (h : Grows slots kernel roots base k b 0 d Entry m m') : Touches slots kernel roots base k b n Entry m m' := by
  refine ⟨h.frames.total, h.frames.doubled, h.space, h.frames.words, fun i _ hu => ?_,
    fun k' u hu hno => h.rest k' u hu fun i _ hi => hno i (by omega)⟩
  by_cases hin : ∃ j < d, vpn (page b i) = vpn (page b j)
  · obtain ⟨j, hj, heq⟩ := hin
    rw [pte_congr heq]
    exact .inr (h.entries j (Nat.zero_le j) hj)
  · exact .inl (h.rest k _ hu fun j _ hj _ heq => hin ⟨j, hj, heq⟩)

theorem Grows.undone {b : BitVec 64} {d n : Nat} {Entry : BitVec 64 → Prop} {m' m'' : Vm} (hd : d ≤ n)
    (h : Grows slots kernel roots base k b 0 d Entry m m') (h' : Clears slots kernel roots base k b 0 d m' m'') :
    Touches slots kernel roots base k b n (fun w => w = 0) m m'' := by
  refine ⟨h'.total.trans h.frames.total, h'.doubled.trans h.frames.doubled, h'.space, fun f i hf hno => ?_,
    fun i _ hu => ?_,
    fun k' u hu hno => ?_⟩
  · rw [h'.words f i fun p hp hlen hs => ?_, h.frames.words f i hf hno]
    rcases h.frames.fresh p f hp hlen hs with hs | hfree
    · exact hno p hp hlen hs
    · rw [hf] at hfree
      cases hfree
  · by_cases hin : ∃ j < d, vpn (page b i) = vpn (page b j)
    · obtain ⟨j, hj, heq⟩ := hin
      rw [pte_congr heq]
      exact .inr (h'.entries j (Nat.zero_le j) hj)
    · rw [h'.rest k _ hu fun j _ hj _ heq => hin ⟨j, hj, heq⟩, h.rest k _ hu fun j _ hj _ heq => hin ⟨j, hj, heq⟩]
      exact .inl rfl
  · rw [h'.rest k' u hu fun i _ hi => hno i (by omega), h.rest k' u hu fun i _ hi => hno i (by omega)]

theorem Touches.mono {b : BitVec 64} {n : Nat} {Entry Entry' : BitVec 64 → Prop} {m' : Vm}
    (h : Touches slots kernel roots base k b n Entry m m') (hsub : ∀ w, Entry w → Entry' w) :
    Touches slots kernel roots base k b n Entry' m m' :=
  ⟨h.total, h.doubled, h.space, h.words, fun i hi hu => (h.entries i hi hu).imp id (hsub _), h.rest⟩

/-- The kernel does not use the slots of the PML4 for the `n` pages from `b` on. -/
def Apart (slots : Nat → Bool) (b : BitVec 64) (n : Nat) : Prop := ∀ i < n, slots (idxL4 (page b i)) = false

/-- No memory is mapped in the `n` pages from `b` on, and the kernel does not use their slots of the PML4. -/
def Vacant (slots : Nat → Bool) (s : Sys) (b : BitVec 64) (n : Nat) : Prop :=
  ∀ i < n, slots (idxL4 (page b i)) = false ∧ ∀ w ∈ lookup s.vm (s.procs s.current).cr3 (page b i), mmio w = true

theorem Vacant.same_base {s : Sys} {b : BitVec 64} {n : Nat} (h : Vacant slots s b n) {base' : Nat → Prop}
    (hmono : ∀ f, base f → base' f) (hsame : Vacant slots s b n → ∀ f, base' f → base f) : base' = base :=
  funext fun f => propext ⟨hsame h f, hmono f⟩

theorem Vacant.apart {s : Sys} {b : BitVec 64} {n : Nat} (h : Vacant slots s b n) :
    Apart slots b n := fun i hi => (h i hi).1

theorem Vacant.next {s : Sys} {b : BitVec 64} {n : Nat} (h : Vacant slots s b n)
    (hs : Space slots kernel roots base s.vm)
    (hr : roots k = some (s.procs s.current).cr3) {i : Nat} (hi : i < n) :
    Paging.next 3 (pte roots s.vm k (page b i)) = none := by
  obtain ⟨hslot, hmmio⟩ := h i hi
  rw [lookup_eq hs hr hslot] at hmmio
  by_cases hp : present (pte roots s.vm k (page b i)) = true
  · rw [if_pos hp] at hmmio
    simp [Paging.next, hmmio _ rfl]
  · exact next_absent (by simpa using hp)

/-- The heap of `SYS_MMAP`, or the one that it would make. -/
def heapOf (p : Pcb) : Region :=
  (if p.umapHeap = none then p.umap ++ [⟨heapStart p.umap, 0⟩] else p.umap).getD (p.umapHeap.getD p.umap.length) ⟨0, 0⟩

/-- Where `SYS_MMAP` maps its pages, and how many. -/
def mmapAt (s : Sys) : BitVec 64 := (heapOf (s.procs s.current)).base + (heapOf (s.procs s.current)).size

def mmapCount (a1 : BitVec 64) : Nat := if a1 = 0 then 1 else a1.toNat

theorem mmapCount_pos (a1 : BitVec 64) : 0 < mmapCount a1 := by
  unfold mmapCount
  split
  · decide
  · rename_i hne
    refine Nat.pos_iff_ne_zero.mpr fun hzero => hne (BitVec.eq_of_toNat_eq hzero)

/-- The process whose heap has grown. -/
def mmapped (p : Pcb) (n : Nat) : Pcb :=
  { p with
    umap := (if p.umapHeap = none then p.umap ++ [⟨heapStart p.umap, 0⟩] else p.umap).set
      (p.umapHeap.getD p.umap.length)
      ⟨(heapOf p).base, (heapOf p).base + (heapOf p).size + BitVec.ofNat 64 (n * 0x1000) - (heapOf p).base⟩
    umapHeap := some (p.umapHeap.getD p.umap.length) }

theorem mmapPages_unaligned {b : BitVec 64} (hb : ¬ b &&& 0xFFF = 0) (h : Space slots kernel roots base m) {n : Nat} :
    ∃ m', mmapPages r b 0 (n + 1) m = (m', some 0) ∧ Grows slots kernel roots base k b 0 0 DataEntry m m' := by
  have hzero : b + BitVec.ofNat 64 (0 * 0x1000) = b := by simp
  have hmap : ∀ (phys flags : BitVec 64) (m : Vm), mapUser r b phys flags m = (m, false) := by
    intro phys flags m
    rw [mapUser, if_pos (.inr (.inl hb))]
  unfold mmapPages
  cases halloc : pmmAlloc m.pmm .mmap 1 with
  | mk pmm c =>
    dsimp only
    rw [hzero, hmap]
    by_cases hc : c = 0
    · subst hc
      have hnull : m.pmm.used 0 = true := (h.used 0).mpr (.inl h.null)
      obtain rfl := pmmAlloc_null hnull (by decide) halloc
      have hext : Extends slots roots k m { m with pmm := { m.pmm with refused := .mmap :: m.pmm.refused } } :=
        Extends.take rfl rfl fun _ hf => hf
      exact ⟨_, if_pos rfl, Grows.none (h.refuse _) hext.toFrames fun _ _ _ => rfl⟩
    · have htakes := pmmAlloc_takes halloc hc
      have htake : Extends slots roots k m { m with pmm } :=
        Extends.take htakes.total htakes.doubled fun f hf => (htakes.used f).mpr (.inl hf)
      obtain ⟨hspace, hframes⟩ := Space.takeBack h htakes hc (h.alloc htakes) htake.toFrames
      exact ⟨_, if_neg hc, Grows.none hspace hframes fun _ _ _ => rfl⟩

/-- The call of `SYS_MMAP` is one that maps pages. -/
def Mmaps (s : Sys) (a1 : BitVec 64) : Prop :=
  (s.procs s.current).isUser = true ∧ mmapCount a1 ≤ 8192 ∧
    ¬ ((s.procs s.current).umapHeap = none ∧ (s.procs s.current).umap.length ≥ umapMax)

theorem sysMmap_refuses {s : Sys} {a1 : BitVec 64} (h : ¬ Mmaps s a1) : sysMmap a1 s = (s, err) := by
  unfold sysMmap
  dsimp only
  change (if _ then _ else if mmapCount a1 > 8192 then _ else _) = _
  by_cases huser : (s.procs s.current).isUser = true
  · rw [if_neg (by simp [huser])]
    by_cases hcount : mmapCount a1 > 8192
    · exact if_pos hcount
    · rw [if_neg hcount]
      exact if_pos (by_contra fun hfull => h ⟨huser, Nat.le_of_not_gt hcount, hfull⟩)
  · exact if_pos (by simpa using huser)

theorem sysMmap_maps {s : Sys} {a1 : BitVec 64} {vm : Vm} (h : Mmaps s a1)
    (heq : mmapPages (s.procs s.current).cr3 (mmapAt s) 0 (mmapCount a1) s.vm = (vm, none)) :
    sysMmap a1 s = ({ s with vm }.set s.current (mmapped (s.procs s.current) (mmapCount a1)), mmapAt s) := by
  obtain ⟨huser, hcount, hroom⟩ := h
  have hfew : ¬ (if a1 = 0 then 1 else a1.toNat) > 8192 := Nat.not_lt.mpr hcount
  unfold mmapAt mmapCount heapOf at heq
  unfold sysMmap
  dsimp only
  rw [if_neg (by simp [huser]), if_neg hfew, if_neg hroom, heq]
  rfl

/-- Out of memory at page `done`, the call takes the pages back that it has mapped. -/
theorem sysMmap_fails {s : Sys} {a1 : BitVec 64} {vm : Vm} {done : Nat} (h : Mmaps s a1)
    (heq : mmapPages (s.procs s.current).cr3 (mmapAt s) 0 (mmapCount a1) s.vm = (vm, some done)) :
    sysMmap a1 s = ({ s with
      vm := unmapPages (s.procs s.current).cr3 (mmapAt s) (if mmapAt s < page (mmapAt s) done then done else 0) vm },
      err) := by
  obtain ⟨huser, hcount, hroom⟩ := h
  have hfew : ¬ (if a1 = 0 then 1 else a1.toNat) > 8192 := Nat.not_lt.mpr hcount
  unfold mmapAt mmapCount heapOf at heq
  unfold sysMmap
  dsimp only
  rw [if_neg (by simp [huser]), if_neg hfew, if_neg hroom, heq]
  rfl

theorem sysMmap_spec {s : Sys} (h : Space slots kernel roots base s.vm) (hr : roots k = some (s.procs s.current).cr3)
    {a1 : BitVec 64} (hslot : Apart slots (mmapAt s) (mmapCount a1)) {t : Sys} {e : BitVec 64}
    (ht : sysMmap a1 s = (t, e)) :
    ∃ base', (∀ f, base f → base' f) ∧ (Vacant slots s (mmapAt s) (mmapCount a1) → ∀ f, base' f → base f) ∧
    ((t = s ∧ e = err) ∨
    (∃ m', Touches slots kernel roots base' k (mmapAt s) (mmapCount a1) (fun w => w = 0 ∨ DataEntry w) s.vm m' ∧
      t = { s with vm := m' } ∧ e = err) ∨
    ∃ m', (s.procs s.current).isUser = true ∧ mmapAt s &&& 0xFFF = 0 ∧
      Grows slots kernel roots base' k (mmapAt s) 0 (mmapCount a1) DataEntry s.vm m' ∧
      t = { s with vm := m' }.set s.current (mmapped (s.procs s.current) (mmapCount a1)) ∧ e = mmapAt s) := by
  by_cases hmaps : Mmaps s a1
  swap
  · rw [sysMmap_refuses hmaps] at ht
    cases ht
    exact ⟨base, fun _ hf => hf, fun _ _ hf => hf, .inl ⟨rfl, rfl⟩⟩
  have hcount : mmapCount a1 ≤ 8192 := hmaps.2.1
  by_cases hb : mmapAt s &&& 0xFFF = 0
  · have hfew : 0 + mmapCount a1 ≤ 2 ^ 36 := by omega
    obtain ⟨base', m', d, hd, heq, -, hmono, hsame, -, hgrows⟩ :=
      mmapPages_spec hb h hr hfew fun i _ hi => hslot i (by omega)
    refine ⟨base', hmono, fun hvacant => hsame fun i _ hi => hvacant.next h hr (by omega), ?_⟩
    rw [Nat.zero_add] at heq hgrows
    split at heq
    · rename_i hall
      rw [sysMmap_maps hmaps heq] at ht
      cases ht
      rw [hall] at hgrows
      exact .inr (.inr ⟨m', hmaps.1, hb, hgrows, rfl, rfl⟩)
    · rw [sysMmap_fails hmaps heq] at ht
      cases ht
      refine .inr (.inl ⟨_, ?_, rfl, rfl⟩)
      split
      · have hmapped : ∀ i < d, slots (idxL4 (page (mmapAt s) i)) = false ∧
          DataEntry (pte roots m' k (page (mmapAt s) i)) :=
          fun i hi => ⟨hslot i (by omega), hgrows.entries i (Nat.zero_le i) hi⟩
        exact (hgrows.undone (by omega) (unmapPages_spec hb hgrows.space hr (by omega) hmapped)).mono fun _ => .inl
      · exact (hgrows.touches (by omega)).mono fun _ => .inr
  · obtain ⟨n, hn⟩ := Nat.exists_eq_succ_of_ne_zero (Nat.pos_iff_ne_zero.mp (mmapCount_pos a1))
    obtain ⟨m', heq, hgrows⟩ := mmapPages_unaligned (r := (s.procs s.current).cr3) (n := n) hb h
    rw [← Nat.succ_eq_add_one, ← hn] at heq
    rw [sysMmap_fails hmaps heq] at ht
    cases ht
    refine ⟨base, fun _ hf => hf, fun _ _ hf => hf,
      .inr (.inl ⟨m', (hgrows.touches (Nat.zero_le _)).mono fun _ => .inr, ?_, rfl⟩)⟩
    split <;> rfl

/-- Where `SYS_DEV_MAP` maps its pages, and how many. -/
def devMapAt (s : Sys) : BitVec 64 :=
  (if (s.procs s.current).devioBase = 0 then userDevioBase else (s.procs s.current).devioBase) +
    (s.procs s.current).devioUsed

def devMapCount (a2 : BitVec 64) : Nat := ((a2 + 0xFFF) &&& ~~~0xFFF).toNat / 0x1000

/-- The call of `SYS_DEV_MAP` is one that maps pages. -/
def DevMaps (s : Sys) (a1 a2 : BitVec 64) : Prop :=
  (s.procs s.current).isUser = true ∧ ¬ (a1 &&& 0xFFF ≠ 0 ∨ a2 = 0 ∨ a2 > 0x100000)

theorem sysDevMap_refuses {s : Sys} {a1 a2 : BitVec 64} (h : ¬ DevMaps s a1 a2) : sysDevMap a1 a2 s = (s, err) := by
  unfold sysDevMap
  dsimp only
  by_cases huser : (s.procs s.current).isUser = true
  · rw [if_neg (by simp [huser])]
    exact if_pos (by_contra fun hargs => h ⟨huser, hargs⟩)
  · exact if_pos (by simpa using huser)

theorem sysDevMap_maps {s : Sys} {a1 a2 : BitVec 64} {vm : Vm} {ok : Bool} (h : DevMaps s a1 a2)
    (heq : devPages (s.procs s.current).cr3 (devMapAt s) a1 (devMapCount a2) s.vm = (vm, ok)) :
    ∃ devioBase devioUsed,
      (sysDevMap a1 a2 s).1 = { s with vm }.set s.current { s.procs s.current with devioBase, devioUsed } := by
  unfold devMapAt devMapCount at heq
  unfold sysDevMap
  dsimp only
  rw [if_neg (by simp [h.1]), if_neg h.2, heq]
  cases ok
  · exact ⟨_, _, rfl⟩
  · exact ⟨_, _, rfl⟩

theorem sysDevMap_spec {s : Sys} (h : Space slots kernel roots base s.vm) (hr : roots k = some (s.procs s.current).cr3)
    {a1 a2 : BitVec 64} (hslot : Apart slots (devMapAt s) (devMapCount a2)) {t : Sys} {e : BitVec 64}
    (ht : sysDevMap a1 a2 s = (t, e)) :
    ∃ base', (∀ f, base f → base' f) ∧ (Vacant slots s (devMapAt s) (devMapCount a2) → ∀ f, base' f → base f) ∧
    ((t = s ∧ e = err) ∨
    ∃ m' devioBase devioUsed,
      Touches slots kernel roots base' k (devMapAt s) (devMapCount a2) DeviceEntry s.vm m' ∧
      t = { s with vm := m' }.set s.current { s.procs s.current with devioBase, devioUsed }) := by
  by_cases hmaps : DevMaps s a1 a2
  swap
  · rw [sysDevMap_refuses hmaps] at ht
    cases ht
    exact ⟨base, fun _ hf => hf, fun _ _ hf => hf, .inl ⟨rfl, rfl⟩⟩
  have hargs := hmaps.2
  rw [not_or, not_or, not_not] at hargs
  obtain ⟨ha1, ha2, hmax⟩ := hargs
  have hcount : devMapCount a2 ≤ 2 ^ 36 := by
    have hle : ((a2 + 0xFFF) &&& ~~~0xFFF).toNat ≤ (a2 + 0xFFF).toNat := by
      rw [BitVec.toNat_and]
      exact Nat.and_le_left
    have hbound : ¬ a2.toNat > 0x100000 := hmax
    rw [BitVec.toNat_add, show (0xFFF : BitVec 64).toNat = 4095 from rfl] at hle
    unfold devMapCount
    omega
  have hpages : ∃ base' m' ok, (∀ f, base f → base' f) ∧
      (Vacant slots s (devMapAt s) (devMapCount a2) → ∀ f, base' f → base f) ∧
      devPages (s.procs s.current).cr3 (devMapAt s) a1 (devMapCount a2) s.vm = (m', ok) ∧
      Touches slots kernel roots base' k (devMapAt s) (devMapCount a2) DeviceEntry s.vm m' := by
    by_cases hb : devMapAt s &&& 0xFFF = 0
    · obtain ⟨base', m', d, ok, hmono, hsame, heq, hd, -, hgrows⟩ := devPages_spec hb ha1 h hr hcount hslot
      exact ⟨base', m', ok, hmono, fun hvacant => hsame fun i hi => hvacant.next h hr hi, heq, hgrows.touches hd⟩
    · have hgrows : Grows slots kernel roots base k (devMapAt s) 0 0 DeviceEntry s.vm s.vm :=
        Grows.none h (Frames.refl k s.vm) fun _ _ _ => rfl
      have hnone := hgrows.touches (Nat.zero_le (devMapCount a2))
      cases hn : devMapCount a2 with
      | zero =>
        rw [hn] at hnone
        exact ⟨base, s.vm, true, fun _ hf => hf, fun _ _ hf => hf, rfl, hnone⟩
      | succ n =>
        rw [hn] at hnone
        refine ⟨base, s.vm, false, fun _ hf => hf, fun _ _ hf => hf, ?_, hnone⟩
        unfold devPages
        rw [mapUser, if_pos (.inr (.inl hb))]
  obtain ⟨base', m', ok, hmono, hsame, heq, htouches⟩ := hpages
  obtain ⟨devioBase, devioUsed, hstate⟩ := sysDevMap_maps hmaps heq
  rw [ht] at hstate
  exact ⟨base', hmono, hsame, .inr ⟨m', devioBase, devioUsed, htouches, hstate⟩⟩

end

end Siathos.Proc.Memory
