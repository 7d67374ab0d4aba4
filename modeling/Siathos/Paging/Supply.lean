import Mathlib.Data.Finset.Card
import Mathlib.Data.Finset.Union
import Siathos.Paging.Pages

/-!
# Free pages and missing tables

`paging_map_user` takes a page for each table that is missing on the way. It succeeds where there are as many
free pages.
-/

open Lib

namespace Siathos.Paging

/-! ## Free pages -/

def freeFrames (pmm : Pmm) : Nat := ((Finset.range pmm.total).filter fun f => pmm.used f = false).card

theorem Takes.freeFrames {pmm pmm' : Pmm} {f : Nat} (h : Takes pmm pmm' f 1) :
    freeFrames pmm' + 1 = Paging.freeFrames pmm := by
  obtain ⟨hfree, hlt⟩ := h.free f (Nat.le_refl f) (by omega)
  have hrest : (Finset.range pmm'.total).filter (fun j => pmm'.used j = false) =
      ((Finset.range pmm.total).filter fun j => pmm.used j = false).erase f := by
    ext j
    have hj : pmm'.used j = false ↔ pmm.used j = false ∧ j ≠ f := by
      rw [← Bool.not_eq_true, h.used, not_or, Bool.not_eq_true]
      refine and_congr_right fun _ => ?_
      omega
    simp only [Finset.mem_filter, Finset.mem_range, Finset.mem_erase, h.total, hj]
    tauto
  rw [Paging.freeFrames, hrest]
  exact Finset.card_erase_add_one (by simp [hfree, hlt])

theorem freeFrames_full {pmm : Pmm} (h : ∀ i, pmm.fits 1 i = false) : freeFrames pmm = 0 := by
  rw [freeFrames, Finset.card_eq_zero, Finset.filter_eq_empty_iff]
  intro f hf hfree
  have hfits : pmm.fits 1 f = true := by
    refine fits_iff.mpr ⟨List.mem_range.mp (by simpa using hf), fun b hb => ?_⟩
    rwa [Nat.lt_one_iff.mp hb]
  rw [h f] at hfits
  cases hfits

theorem pmmAlloc_one {pmm : Pmm} (hnull : pmm.used 0 = true) (why : Purpose) :
    (freeFrames pmm = 0 ∧ pmmAlloc pmm why 1 = ({ pmm with refused := why :: pmm.refused }, 0)) ∨
    ∃ pmm' c, pmmAlloc pmm why 1 = (pmm', c) ∧ c ≠ 0 ∧ Takes pmm pmm' c 1 ∧ freeFrames pmm' + 1 = freeFrames pmm := by
  rcases pmmAlloc_grows hnull why Nat.one_ne_zero with ⟨hfull, hzero, heq⟩ | ⟨-, hne, htakes⟩
  · exact .inl ⟨freeFrames_full hfull, Prod.ext heq hzero⟩
  · exact .inr ⟨_, _, rfl, hne, htakes, htakes.freeFrames⟩

/-! ## Missing tables -/

/-- The paths from `p` on along `path`. -/
def along (p : List Nat) : List Nat → Finset (List Nat)
  | [] => ∅
  | i :: path => insert (p ++ [i]) (along (p ++ [i]) path)

/-- The tables on the way to the page, below the PML4. -/
def wayTo (v : BitVec 64) : Finset (List Nat) := along [] (tablePath v)

def missing (roots : Nat → Option Nat) (m : Vm) (k : Nat) (ps : Finset (List Nat)) : Finset (List Nat) :=
  ps.filter fun p => seat roots m k p = none

/-- The tables of `ps` are made, each in a page that was free. -/
structure Makes (slots : Nat → Bool) (roots : Nat → Option Nat) (k : Nat) (ps : Finset (List Nat))
    (m m' : Vm) : Prop where
  seats : ∀ q, (own slots).Ok q → q.length ≤ 3 → (seat roots m' k q = none ↔ seat roots m k q = none ∧ q ∉ ps)
  free : freeFrames m'.pmm + (missing roots m k ps).card = freeFrames m.pmm

section

variable {slots : Nat → Bool} {kernel : Nat} {roots : Nat → Option Nat} {base : Nat → Prop} {m m' : Vm} {k r t i : Nat}
  {p : List Nat}

theorem missing_mono {ps ps' : Finset (List Nat)} (h : ps ⊆ ps') : missing roots m k ps ⊆ missing roots m k ps' :=
  Finset.filter_subset_filter _ h

theorem Makes.refl : Makes slots roots k ∅ m m := ⟨fun q _ _ => by simp, by simp [missing]⟩

theorem Makes.card {ps qs : Finset (List Nat)} (h : Makes slots roots k ps m m')
    (hok : ∀ q ∈ qs, (own slots).Ok q ∧ q.length ≤ 3) :
    (missing roots m k (ps ∪ qs)).card = (missing roots m k ps).card + (missing roots m' k qs).card := by
  have hafter : missing roots m' k qs = missing roots m k qs \ ps := by
    ext q
    simp only [missing, Finset.mem_filter, Finset.mem_sdiff, and_assoc]
    refine and_congr_right fun hq => ?_
    obtain ⟨hok, hlen⟩ := hok q hq
    exact h.seats q hok hlen
  have hunion : missing roots m k (ps ∪ qs) = missing roots m k ps ∪ missing roots m' k qs := by
    rw [hafter, missing, missing, missing, Finset.filter_union]
    ext q
    simp only [Finset.mem_union, Finset.mem_sdiff, Finset.mem_filter]
    tauto
  rw [hunion, Finset.card_union_of_disjoint]
  rw [hafter, Finset.disjoint_left]
  intro q hq hq'
  exact (Finset.mem_sdiff.mp hq').2 (Finset.mem_filter.mp hq).1

theorem Makes.trans {ps qs : Finset (List Nat)} {m'' : Vm} (h : Makes slots roots k ps m m')
    (h' : Makes slots roots k qs m' m'') (hok : ∀ q ∈ qs, (own slots).Ok q ∧ q.length ≤ 3) :
    Makes slots roots k (ps ∪ qs) m m'' where
  seats q hq hlen := by
    rw [h'.seats q hq hlen, h.seats q hq hlen, Finset.mem_union, not_or, and_assoc]
  free := by
    have hfirst := h.free
    have hsecond := h'.free
    rw [h.card hok]
    omega

/-- `paging_ensure_table` makes the table, or it was missing and no page is free. -/
theorem ensureTable_makes (h : Space slots kernel roots base m) (hp : (own slots).Ok (p ++ [i])) (hlen : p.length < 3)
    (ht : seat roots m k p = some t) :
    (∃ m' c, ensureTable true t i m = (m', c) ∧ c ≠ 0 ∧ seat roots m' k (p ++ [i]) = some c ∧
      Space slots kernel roots base m' ∧ Makes slots roots k {p ++ [i]} m m') ∨
    (∃ m', ensureTable true t i m = (m', 0)) ∧ freeFrames m.pmm = 0 ∧ seat roots m k (p ++ [i]) = none := by
  have hspec := ensureTable_spec h hp hlen ht
  rcases h.child hp hlen ht with ⟨habs, hnone⟩ | ⟨hpres, hlarge, -, hsome⟩
  · have hnull : m.pmm.used 0 = true := (h.used 0).mpr (.inl h.null)
    rcases pmmAlloc_one hnull .table with ⟨hfull, halloc⟩ | ⟨pmm, c, halloc, hc, htakes, hcount⟩
    · refine .inr ⟨⟨{ m with pmm := { m.pmm with refused := .table :: m.pmm.refused } }, ?_⟩, hfull, hnone⟩
      simp only [ensureTable, habs, Bool.false_eq_true, if_false, halloc]
    · have heq : ensureTable true t i m = (hook { m with pmm } t i c, c) := by
        obtain ⟨c, rfl⟩ := Nat.exists_eq_succ_of_ne_zero hc
        simp only [ensureTable, habs, Bool.false_eq_true, if_false, halloc]
        rfl
      have hlt : c < pmm.total := by
        rw [htakes.total]
        exact (htakes.free c (Nat.le_refl c) (by omega)).2
      have hseat := fun {q : List Nat} (hq : (own slots).Ok q) =>
        (h.alloc htakes).seat_hook (i := i) (.inr ⟨Nat.le_refl c, by omega⟩) hlt hp ht habs k hq
      left
      rcases hspec with ⟨m', c', heq', -, hs, hspace, -⟩ | ⟨heq', -⟩
      · obtain ⟨rfl, rfl⟩ := Prod.mk.inj (heq.symm.trans heq')
        refine ⟨_, c, heq, hc, hs, hspace, fun q hq hq3 => ?_, ?_⟩
        · rw [hseat hq, Finset.mem_singleton]
          by_cases hqp : q = p ++ [i]
          · simp [hqp]
          · simp only [hqp, and_false, if_false, not_false_eq_true, and_true]
        · rw [missing, Finset.filter_singleton, if_pos hnone, Finset.card_singleton]
          exact hcount
      · exact absurd (Prod.mk.inj (heq.symm.trans heq')).2 hc
  · left
    have hne := h.seated_ne_zero hp hsome
    refine ⟨m, pfn (m.tables t i), ?_, hne, hsome, h, fun q _ _ => ?_, ?_⟩
    · simp [ensureTable, hpres, hlarge]
    · refine ⟨fun hq => ⟨hq, ?_⟩, fun hq => hq.1⟩
      rw [Finset.mem_singleton]
      rintro rfl
      rw [hsome] at hq
      cases hq
    · rw [missing, Finset.filter_singleton, if_neg (by simp [hsome]), Finset.card_empty, Nat.add_zero]

theorem own_beginning {path : List Nat} (h : (own slots).Ok (p ++ path)) : (own slots).Ok p := by
  induction path using List.reverseRecOn with
  | nil => rwa [List.append_nil] at h
  | append_singleton path j ih =>
    rw [← List.append_assoc] at h
    exact ih ((own slots).init _ j h)

theorem along_ok {path : List Nat} (h : (own slots).Ok (p ++ path)) :
    ∀ q ∈ along p path, (own slots).Ok q ∧ q.length ≤ (p ++ path).length := by
  induction path generalizing p with
  | nil => simp [along]
  | cons i path ih =>
    have happ : p ++ i :: path = p ++ [i] ++ path := by simp
    rw [happ] at h ⊢
    intro q hq
    rcases Finset.mem_insert.mp hq with rfl | hq
    · refine ⟨own_beginning h, ?_⟩
      have hlen : (p ++ [i]).length + path.length = (p ++ [i] ++ path).length := List.length_append.symm
      omega
    · exact ih h q hq

theorem ensureTables_makes {path : List Nat} (h : Space slots kernel roots base m) (hp : (own slots).Ok (p ++ path))
    (hlen : (p ++ path).length ≤ 3) (ht : seat roots m k p = some t) :
    (∃ m' c, ensureTables t path m = (m', c) ∧ c ≠ 0 ∧ Makes slots roots k (along p path) m m') ∨
    (∃ m', ensureTables t path m = (m', 0)) ∧ freeFrames m.pmm < (missing roots m k (along p path)).card := by
  induction path generalizing t p m with
  | nil =>
    have hne := h.seated_ne_zero ((List.append_nil p).symm ▸ hp) ht
    exact .inl ⟨m, t, rfl, hne, Makes.refl⟩
  | cons i path ih =>
    have happ : p ++ i :: path = p ++ [i] ++ path := by simp
    rw [happ] at hp hlen
    have hpi := own_beginning hp
    have hlen' : p.length < 3 := by
      simp only [List.length_append, List.length_singleton] at hlen
      omega
    have hrest : ∀ q ∈ along (p ++ [i]) path, (own slots).Ok q ∧ q.length ≤ 3 := by
      intro q hq
      obtain ⟨hok, hle⟩ := along_ok hp q hq
      exact ⟨hok, by omega⟩
    unfold ensureTables
    rw [along, Finset.insert_eq]
    rcases ensureTable_makes h hpi hlen' ht with ⟨m', c, heq, hc, hs, hspace, hmakes⟩ | ⟨⟨m', heq⟩, hfull, hnone⟩
    · obtain ⟨c, rfl⟩ := Nat.exists_eq_succ_of_ne_zero hc
      rw [heq]
      rcases ih hspace hp hlen hs with ⟨m'', c', heq', hc', hmakes'⟩ | ⟨⟨m'', heq'⟩, hfew⟩
      · exact .inl ⟨m'', c', heq', hc', hmakes.trans hmakes' hrest⟩
      · refine .inr ⟨⟨m'', heq'⟩, ?_⟩
        have hfree := hmakes.free
        rw [hmakes.card hrest]
        omega
    · rw [heq]
      refine .inr ⟨⟨m', rfl⟩, ?_⟩
      rw [hfull, Finset.card_pos]
      exact ⟨p ++ [i], Finset.mem_filter.mpr ⟨by simp, hnone⟩⟩

/-! ## A page -/

theorem Space.leafWrite_seat (h : Space slots kernel roots base m) (hp : (own slots).Ok p) (hlen : p.length = 3)
    (ht : seat roots m k p = some t) (i : Nat) (w : BitVec 64) (k' : Nat) (q : List Nat) (hq : (own slots).Ok q)
    (hq3 : q.length ≤ 3) : seat roots (leafWrite m t i w) k' q = seat roots m k' q := by
  let tables : Radix.Paths := {
    Ok := fun q => (own slots).Ok q ∧ q.length ≤ 3
    init := fun q j hq => ⟨(own slots).init q j hq.1, by
      have := hq.2
      rw [List.length_append] at this
      omega⟩ }
  refine Radix.seat_congr (P := tables) next roots (fun k'' q' j t' hq' hs => ?_) k' ⟨hq, hq3⟩
  have hlt : q'.length < 3 := by
    have := hq'.2
    rw [List.length_append, List.length_singleton] at this
    omega
  exact Radix.write_other (.inl (h.last_ne hp hlen ht ((own slots).init q' j hq'.1) hlt hs))

theorem wayTo_ok {v : BitVec 64} (hslot : slots (idxL4 v) = false) :
    ∀ q ∈ wayTo v, (own slots).Ok q ∧ q.length ≤ 3 :=
  along_ok ((own slots).init _ _ (own_tablePath hslot))

theorem mapUser_makes (h : Space slots kernel roots base m) {virt phys : BitVec 64} (flags : BitVec 64)
    (hroot : roots k = some r) (hslot : slots (idxL4 virt) = false) (hv : virt &&& 0xFFF = 0)
    (hph : phys &&& 0xFFF = 0) :
    (∃ m', mapUser r virt phys flags m = (m', true) ∧ Makes slots roots k (wayTo virt) m m') ∨
    (∃ m', mapUser r virt phys flags m = (m', false)) ∧ freeFrames m.pmm < (missing roots m k (wayTo virt)).card := by
  have hok := (own slots).init _ _ (own_tablePath hslot)
  have hs : seat roots m k [] = some r := (seat_nil roots m k).trans hroot
  have hne : r ≠ 0 := h.seated_ne_zero (own_nil slots) hs
  have hlen : ([] ++ tablePath virt).length ≤ 3 := by simp [tablePath]
  obtain ⟨m', c, heq, hspace, -, hres⟩ := ensureTables_spec h hok hlen hs
  have hmakes := ensureTables_makes h hok hlen hs
  rw [heq] at hmakes
  change ensureTables r [idxL4 virt, idxL3 virt, idxL2 virt] m = (m', c) at heq
  unfold mapUser
  rw [if_neg (not_or.mpr ⟨hne, not_or.mpr ⟨not_not.mpr hv, not_not.mpr hph⟩⟩), heq]
  rcases hmakes with ⟨m'', c', heq', hc, hmakes⟩ | ⟨⟨m'', heq'⟩, hfew⟩
  · obtain ⟨rfl, rfl⟩ := Prod.mk.inj heq'
    obtain ⟨hseat, -⟩ | ⟨hzero, -⟩ := hres.imp_left And.right
    · obtain ⟨c, rfl⟩ := Nat.exists_eq_succ_of_ne_zero hc
      refine .inl ⟨_, rfl, fun q hq hlen => ?_, hmakes.free⟩
      have hsame := hspace.leafWrite_seat hok rfl hseat (idxL1 virt) (entry phys flags) k q hq hlen
      exact (iff_of_eq (congrArg (· = none) hsame)).trans (hmakes.seats q hq hlen)
    · exact absurd hzero hc
  · obtain ⟨rfl, rfl⟩ := Prod.mk.inj heq'
    exact .inr ⟨⟨m', rfl⟩, hfew⟩

/-! ## Pages one after the other -/

/-- The tables on the way to the first `n` pages from `v` on. -/
def waysTo (v : BitVec 64) (n : Nat) : Finset (List Nat) := (Finset.range n).biUnion fun i => wayTo (page v i)

/-- How many tables the first `n` pages from `v` on need. -/
def needs (roots : Nat → Option Nat) (m : Vm) (k : Nat) (v : BitVec 64) (n : Nat) : Nat :=
  (missing roots m k (waysTo v n)).card

@[simp] theorem needs_zero (v : BitVec 64) : needs roots m k v 0 = 0 := by simp [needs, waysTo, missing]

theorem needs_mono (v : BitVec 64) {n n' : Nat} (h : n ≤ n') : needs roots m k v n ≤ needs roots m k v n' := by
  refine Finset.card_le_card (missing_mono (Finset.biUnion_subset_biUnion_of_subset_left _ ?_))
  simpa using h

theorem waysTo_ok {v : BitVec 64} {n : Nat} (hslot : ∀ i < n, slots (idxL4 (page v i)) = false) :
    ∀ q ∈ waysTo v n, (own slots).Ok q ∧ q.length ≤ 3 := by
  intro q hq
  obtain ⟨i, hi, hq⟩ := Finset.mem_biUnion.mp hq
  exact wayTo_ok (hslot i (Finset.mem_range.mp hi)) q hq

theorem waysTo_page_succ (v : BitVec 64) (d n : Nat) :
    wayTo (page v d) ∪ waysTo (page v (d + 1)) n = waysTo (page v d) (n + 1) := by
  ext q
  simp only [waysTo, Finset.mem_union, Finset.mem_biUnion, Finset.mem_range, page_page]
  constructor
  · rintro (hq | ⟨i, hi, hq⟩)
    · exact ⟨0, by omega, hq⟩
    · exact ⟨i + 1, by omega, by rwa [Nat.add_right_comm] at hq⟩
  · rintro ⟨i, hi, hq⟩
    rcases Nat.eq_zero_or_pos i with rfl | hpos
    · exact .inl hq
    · obtain ⟨i, rfl⟩ := Nat.exists_eq_add_of_le' hpos
      exact .inr ⟨i, by omega, by rwa [Nat.add_right_comm]⟩

theorem Makes.needs {v : BitVec 64} {d : Nat} (h : Makes slots roots k (wayTo (page v d)) m m') {n : Nat}
    (hslot : ∀ i < n, slots (idxL4 (page v (d + 1 + i))) = false) :
    needs roots m k (page v d) (n + 1) =
      (missing roots m k (wayTo (page v d))).card + needs roots m' k (page v (d + 1)) n := by
  have hok : ∀ q ∈ waysTo (page v (d + 1)) n, (own slots).Ok q ∧ q.length ≤ 3 :=
    waysTo_ok fun i hi => by
      rw [page_page]
      exact hslot i hi
  rw [Paging.needs, ← waysTo_page_succ, h.card hok]
  rfl

/-- Of `n` pages from `v` on, the first `d` can be mapped: there are free pages for their tables, and `cost`
more for each. -/
def Enough (roots : Nat → Option Nat) (m : Vm) (k cost : Nat) (v : BitVec 64) (n d : Nat) : Prop :=
  ∀ j ≤ n, j ≤ d ↔ cost * j + needs roots m k v j ≤ freeFrames m.pmm

theorem page_zero (v : BitVec 64) : page v 0 = v := by simp [page]

theorem needs_one (v : BitVec 64) : needs roots m k v 1 = (missing roots m k (wayTo v)).card := by
  simp [needs, waysTo, page_zero]

theorem needs_tables (h : m'.tables = m.tables) (v : BitVec 64) (n : Nat) :
    needs roots m' k v n = needs roots m k v n := by
  rw [needs, needs, missing, missing, seat, seat, h]

theorem Enough.zero (cost : Nat) (v : BitVec 64) : Enough roots m k cost v 0 0 := by
  intro j hj
  rw [Nat.le_zero.mp hj, needs_zero]
  simp

theorem Enough.none {cost : Nat} {v : BitVec 64} {n : Nat}
    (h : freeFrames m.pmm < cost + (missing roots m k (wayTo v)).card) :
    Enough roots m k cost v n 0 := by
  intro j _
  rcases Nat.eq_zero_or_pos j with rfl | hj
  · simp
  · have hle : needs roots m k v 1 ≤ needs roots m k v j := needs_mono v hj
    have hcost : cost * 1 ≤ cost * j := Nat.mul_le_mul_left cost hj
    rw [needs_one] at hle
    omega

/-- A page, for which `cost` pages are taken first, and the pages after it. -/
theorem Enough.cons {cost n d : Nat} {v : BitVec 64} {m₀ : Vm} (hslot : ∀ i < n, slots (idxL4 (page v (i + 1))) = false)
    (htables : m₀.tables = m.tables) (hcost : freeFrames m₀.pmm + cost = freeFrames m.pmm)
    (hmakes : Makes slots roots k (wayTo v) m₀ m') (h : Enough roots m' k cost (page v 1) n d) :
    Enough roots m k cost v (n + 1) (d + 1) := by
  intro j hj
  rcases Nat.eq_zero_or_pos j with rfl | hpos
  · simp
  · obtain ⟨j, rfl⟩ := Nat.exists_eq_add_of_le' hpos
    rw [← page_zero v] at hmakes
    have hneeds := hmakes.needs (n := j) fun i hi => by
      rw [Nat.zero_add, Nat.add_comm]
      exact hslot i (by omega)
    have hfree := hmakes.free
    rw [page_zero, Nat.zero_add] at hneeds
    rw [page_zero] at hfree
    rw [← needs_tables htables, hneeds, Nat.add_le_add_iff_right, h j (by omega), Nat.mul_succ]
    omega

end

end Siathos.Paging
