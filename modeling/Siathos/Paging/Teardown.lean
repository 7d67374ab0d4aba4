import Siathos.Paging.Tree
import Mathlib.Logic.Function.Basic

/-!
# Making and freeing address spaces

`paging_free_address_space` frees each page of one tree once, and no other page.
-/

open Lib

namespace Siathos.Paging

/-! ## Freeing many pages -/

def freeAll (pmm : Pmm) (l : List Nat) : Pmm := l.foldl (fun pmm f => pmmFree pmm f 1) pmm

theorem freeAll_append (pmm : Pmm) (l l' : List Nat) : freeAll pmm (l ++ l') = freeAll (freeAll pmm l) l' :=
  List.foldl_append

theorem freeAll_flatMap (pmm : Pmm) (l : List Nat) (g : Nat → List Nat) :
    freeAll pmm (l.flatMap g) = l.foldl (fun pmm i => freeAll pmm (g i)) pmm :=
  List.foldl_flatMap ..

/-- The pages of `l` are free, and each was in use when its turn came. -/
structure Frees (pmm pmm' : Pmm) (l : List Nat) : Prop where
  used : ∀ f, pmm'.used f = true ↔ pmm.used f = true ∧ f ∉ l
  total : pmm'.total = pmm.total
  refused : pmm'.refused = pmm.refused
  doubled : pmm'.doubled = pmm.doubled

theorem pmmFree_refused (pmm : Pmm) (page pages : Nat) : (pmmFree pmm page pages).refused = pmm.refused := by
  unfold pmmFree
  split <;> rfl

theorem freeAll_frees {pmm : Pmm} {l : List Nat} (hnodup : l.Nodup)
    (h : ∀ f ∈ l, f ≠ 0 ∧ f < pmm.total ∧ pmm.used f = true) : Frees pmm (freeAll pmm l) l := by
  induction l generalizing pmm with
  | nil => exact ⟨fun f => by simp [freeAll], rfl, rfl, rfl⟩
  | cons f l ih =>
    obtain ⟨hne, hlt, hused⟩ := h f List.mem_cons_self
    obtain ⟨hf, hnodup⟩ := List.nodup_cons.mp hnodup
    have hfree := pmmFree_page hne hlt
    have hrest := @ih (pmmFree pmm f 1) hnodup fun g hg => by
      obtain ⟨hne', hlt', hused'⟩ := h g (List.mem_cons_of_mem f hg)
      refine ⟨hne', by rwa [pmmFree_total], ?_⟩
      rw [hfree, hused']
      have : g ≠ f := by
        rintro rfl
        exact hf hg
      simp [this]
    refine ⟨fun g => ?_, hrest.total.trans (pmmFree_total _ _ _), hrest.refused.trans (pmmFree_refused _ _ _),
      hrest.doubled.trans (pmmFree_doubled hne hused)⟩
    change (freeAll (pmmFree pmm f 1) l).used g = true ↔ _
    rw [hrest.used, hfree, Bool.and_eq_true, and_assoc, List.mem_cons, not_or]
    simp

/-! ## Freeing a tree -/

theorem freeSubtree_eq (tables : Nat → Nat → BitVec 64) (level : Nat) (h : level ≤ 2) (t : Nat) (pmm : Pmm) :
    freeSubtree tables (level + 1) t pmm = freeAll pmm (Radix.places next 512 tables (3 - level) (level + 1) t) := by
  induction level generalizing t pmm with
  | zero =>
    rw [freeSubtree, Radix.places, freeAll_append, freeAll_flatMap]
    refine congrArg (fun pmm => pmmFree pmm t 1) (List.foldl_ext _ _ _ fun pmm i _ => ?_)
    simp only [Radix.places, next]
    cases present (tables t i) <;> cases large (tables t i) <;> cases mmio (tables t i) <;> rfl
  | succ level ih =>
    rw [freeSubtree, Radix.places, freeAll_append, freeAll_flatMap]
    refine congrArg (fun pmm => pmmFree pmm t 1) (List.foldl_ext _ _ _ fun pmm i _ => ?_)
    have hd : 3 - (level + 1) + 1 = 3 - level := by omega
    have hne : ¬ 3 - (level + 1) = 3 := by omega
    have hlevel : level + 1 + 1 > 1 := by omega
    simp only [next, hd, hne, hlevel, decide_false, Bool.false_and, Bool.not_false, Bool.and_true, if_true]
    cases present (tables t i) with
    | false => rfl
    | true =>
      cases large (tables t i) with
      | true => rfl
      | false => exact ih (by omega) _ _

section

variable {slots : Nat → Bool} {kernel : Nat} {roots : Nat → Option Nat} {base : Nat → Prop} {m : Vm} {k r : Nat}

/-- The tables and pages of the tree below `r`, as they are freed. -/
def treeOf (slots : Nat → Bool) (tables : Nat → Nat → BitVec 64) (r : Nat) : List Nat :=
  ((List.range 512).flatMap fun i =>
    if slots i then [] else ((next 0 (tables r i)).map (Radix.places next 512 tables 1 3)).getD []) ++ [r]

theorem treeOf_congr {slots slots' : Nat → Bool} {tables : Nat → Nat → BitVec 64}
    (h : ∀ i < 512, slots i = slots' i ∨ next 0 (tables r i) = none) : treeOf slots tables r =
    treeOf slots' tables r := by
  unfold treeOf
  refine congrArg (fun l => l ++ [r]) (congrArg List.flatten (List.map_congr_left fun i hi => ?_))
  rcases h i (List.mem_range.mp hi) with heq | hnone
  · rw [heq]
  · simp [hnone]

theorem freeAddressSpace_freed (hne : r ≠ 0) (hrk : r ≠ kernel)
    (hflat : ∀ i < 512, present (m.tables r i) = true → m.tables r i ≠ m.tables kernel i →
    large (m.tables r i) = false) :
    freeAddressSpace kernel r m =
      { m with pmm := freeAll m.pmm (treeOf (fun i => decide (m.tables r i = m.tables kernel i)) m.tables r) } := by
  unfold freeAddressSpace
  rw [if_neg (by simp [hne, hrk]), treeOf, freeAll_append, freeAll_flatMap]
  refine congrArg (fun pmm => { m with pmm := pmmFree pmm r 1 }) (List.foldl_ext _ _ _ fun pmm i hi => ?_)
  cases hp : present (m.tables r i) with
  | false => simp [hp, next_absent hp, freeAll]
  | true =>
    by_cases hsame : m.tables r i = m.tables kernel i
    · simp [hsame, freeAll]
    · have hnext : next 0 (m.tables r i) = some (pfn (m.tables r i)) := by
        simp [next, hp, hflat i (List.mem_range.mp hi) hp hsame]
      simp only [hp, hsame, hnext, decide_false, Bool.not_true, Bool.false_eq_true, if_false, Option.map_some,
        Option.getD_some]
      exact freeSubtree_eq m.tables 2 (Nat.le_refl 2) _ pmm

theorem freeAddressSpace_eq (h : Space slots kernel roots base m) (hr : roots k = some r) :
    freeAddressSpace kernel r m = { m with pmm := freeAll m.pmm (treeOf slots m.tables r) } := by
  have hs : seat roots m k [] = some r := (seat_nil roots m k).trans hr
  have hne := h.seated_ne_zero (own_nil slots) hs
  have hrk : r ≠ kernel := by
    rintro rfl
    exact h.apart r h.kernelHeld k [] (own_nil slots) hs
  -- an entry of the process's own names a table, and is not the kernel's
  have hown : ∀ i < 512, slots i = false → present (m.tables r i) = true →
      large (m.tables r i) = false ∧ m.tables r i ≠ m.tables kernel i := by
    intro i hi hslot hp
    have hok : (own slots).Ok ([] ++ [i]) := ⟨by simp, by simpa using hi, by simpa using hslot⟩
    obtain ⟨c, hc, heq⟩ := h.inner k [] r i hok (by simp) hs hp
    refine ⟨by rw [heq, large_entry]; decide, fun hsame => ?_⟩
    have := h.kernelSlots i hi
    rw [← hsame, hp, hslot] at this
    cases this
  rw [freeAddressSpace_freed hne hrk, treeOf_congr]
  · intro i hi
    cases hslot : slots i with
    | true => simp [h.shared k r hr i hi hslot]
    | false =>
      cases hp : present (m.tables r i) with
      | false => exact .inr (next_absent hp)
      | true => simp [(hown i hi hslot hp).2]
  · intro i hi hp hne
    cases hslot : slots i with
    | true => exact absurd (h.shared k r hr i hi hslot) hne
    | false => exact (hown i hi hslot hp).1

theorem seat_cons (roots : Nat → Option Nat) (m : Vm) (k i : Nat) (q : List Nat) (hr : roots k = some r) :
    seat roots m k (i :: q) = (next 0 (m.tables r i)).bind fun c => Radix.follow next m.tables 1 c q := by
  rw [seat, Radix.seat, hr, Option.bind_some, Radix.follow]

theorem own_cons {i : Nat} {q : List Nat} : (own slots).Ok (i :: q) ↔
    q.length ≤ 3 ∧ i < 512 ∧ (∀ j ∈ q, j < 512) ∧ slots i = false := by
  simp only [own, List.length_cons, List.mem_cons, forall_eq_or_imp, List.head?_cons, Option.mem_def, Option.some.injEq,
    forall_eq']
  constructor
  · rintro ⟨h1, ⟨h2, h3⟩, h4⟩
    exact ⟨by omega, h2, h3, h4⟩
  · rintro ⟨h1, h2, h3, h4⟩
    exact ⟨by omega, ⟨h2, h3⟩, h4⟩

theorem below_iff (hr : roots k = some r) {i : Nat} (hi : i < 512) (hslot : slots i = false) {f : Nat} :
    f ∈ ((next 0 (m.tables r i)).map (Radix.places next 512 m.tables 1 3)).getD [] ↔
      ∃ q, (own slots).Ok (i :: q) ∧ seat roots m k (i :: q) = some f := by
  simp only [own_cons, seat_cons roots m k i _ hr, hi, hslot, true_and, and_true]
  cases hc : next 0 (m.tables r i) with
  | none => simp
  | some c => simp [Radix.mem_places, and_assoc]

theorem mem_treeOf (hr : roots k = some r) {f : Nat} :
    f ∈ treeOf slots m.tables r ↔ ∃ q, (own slots).Ok q ∧ seat roots m k q = some f := by
  rw [treeOf, List.mem_append, List.mem_flatMap, List.mem_singleton]
  constructor
  · rintro (⟨i, hi, hf⟩ | rfl)
    · cases hslot : slots i with
      | true => simp [hslot] at hf
      | false =>
        rw [hslot, if_neg (by simp)] at hf
        obtain ⟨q, hq, hs⟩ := (below_iff hr (List.mem_range.mp hi) hslot).mp hf
        exact ⟨i :: q, hq, hs⟩
    · exact ⟨[], own_nil slots, (seat_nil roots m k).trans hr⟩
  · rintro ⟨q, hq, hs⟩
    cases q with
    | nil =>
      rw [seat_nil, hr] at hs
      exact .inr (Option.some.inj hs).symm
    | cons i q =>
      obtain ⟨-, hi, -, hslot⟩ := own_cons.mp hq
      refine .inl ⟨i, List.mem_range.mpr hi, ?_⟩
      rw [hslot, if_neg (by simp)]
      exact (below_iff hr hi hslot).mpr ⟨q, hq, hs⟩

theorem nodup_treeOf_of (hr : roots k = some r) (hsame : ∀ q q' f, (own slots).Ok q → (own slots).Ok q' →
    seat roots m k q = some f → seat roots m k q' = some f → q = q') : (treeOf slots m.tables r).Nodup := by
  rw [treeOf, List.nodup_append]
  refine ⟨List.nodup_flatMap.mpr ⟨fun i hi => ?_, ?_⟩, List.nodup_singleton r, ?_⟩
  · have hi := List.mem_range.mp hi
    split
    · exact List.nodup_nil
    · rename_i hslot
      have hslot : slots i = false := by simpa using hslot
      cases hc : next 0 (m.tables r i) with
      | none => exact List.nodup_nil
      | some c =>
        refine Radix.nodup_places next fun q q' f hq hq' hw hw' hf hf' => ?_
        have heq := hsame (i :: q) (i :: q') f (own_cons.mpr ⟨hq, hi, hw, hslot⟩) (own_cons.mpr ⟨hq', hi, hw', hslot⟩)
          (by rw [seat_cons roots m k i q hr, hc]; exact hf) (by rw [seat_cons roots m k i q' hr, hc]; exact hf')
        exact (List.cons.inj heq).2
  · refine List.Pairwise.imp_of_mem ?_ List.nodup_range
    intro i j hi hj hne f hf hf'
    have hi := List.mem_range.mp hi
    have hj := List.mem_range.mp hj
    dsimp only at hf hf'
    split at hf
    · cases hf
    · rename_i hslot
      split at hf'
      · cases hf'
      · rename_i hslot'
        obtain ⟨q, hq, hs⟩ := (below_iff hr hi (by simpa using hslot)).mp hf
        obtain ⟨q', hq', hs'⟩ := (below_iff hr hj (by simpa using hslot')).mp hf'
        exact hne (List.cons.inj (hsame _ _ f hq hq' hs hs')).1
  · intro f hf g hg
    rintro rfl
    obtain rfl := List.mem_singleton.mp hg
    obtain ⟨i, hi, hf⟩ := List.mem_flatMap.mp hf
    split at hf
    · cases hf
    · rename_i hslot
      obtain ⟨q, hq, hs⟩ := (below_iff hr (List.mem_range.mp hi) (by simpa using hslot)).mp hf
      have := hsame _ _ f hq (own_nil slots) hs ((seat_nil roots m k).trans hr)
      cases this

theorem nodup_treeOf (h : Space slots kernel roots base m) (hr : roots k = some r) : (treeOf slots m.tables r).Nodup :=
  nodup_treeOf_of hr fun q q' f hq hq' hs hs' => (h.unshared k q k q' f hq hq' hs hs').2

theorem seat_update (roots : Nat → Option Nat) (m : Vm) (k : Nat) (v : Option Nat) (k' : Nat) (q : List Nat) :
    seat (Function.update roots k v) m k' q =
      if k' = k then v.bind fun t => Radix.follow next m.tables 0 t q else seat roots m k' q := by
  unfold seat Radix.seat
  split
  · rename_i heq
    rw [heq, Function.update_self]
  · rename_i hne
    rw [Function.update_of_ne hne]

theorem seat_dropped {m : Vm} {k k' f : Nat} {q : List Nat}
    (hs : seat (Function.update roots k none) m k' q = some f) : k' ≠ k ∧ seat roots m k' q = some f := by
  rw [seat_update] at hs
  split at hs
  · cases hs
  · rename_i hne
    exact ⟨hne, hs⟩

/-- The pages of the tree `k` are in no tree any more. -/
theorem Space.drop (h : Space slots kernel roots base m) (k : Nat) :
    Space slots kernel (Function.update roots k none)
      (fun f => base f ∨ ∃ q, (own slots).Ok q ∧ seat roots m k q = some f)
      m := by
  refine ⟨h.total, .inl h.null, fun f => ?_, ?_,
    fun k₁ p₁ k₂ p₂ f h₁ h₂ hs₁ hs₂ =>
      h.unshared k₁ p₁ k₂ p₂ f h₁ h₂ (seat_dropped hs₁).2 (seat_dropped hs₂).2,
    fun k' q f hq hs => h.inRange k' q f hq (seat_dropped hs).2, .inl h.kernelHeld, h.kernelSlots, fun k' r' hr' => ?_,
    fun k' q t i hq hlen hs => h.inner k' q t i hq hlen (seat_dropped hs).2⟩
  · rw [h.used]
    constructor
    · rintro (hf | ⟨k', q, hq, hs⟩)
      · exact .inl (.inl hf)
      · by_cases hk : k' = k
        · exact .inl (.inr ⟨q, hq, hk ▸ hs⟩)
        · exact .inr ⟨k', q, hq, (seat_update roots m k none k' q).trans ((if_neg hk).trans hs)⟩
    · rintro ((hf | ⟨q, hq, hs⟩) | ⟨k', q, hq, hs⟩)
      · exact .inl hf
      · exact .inr ⟨k, q, hq, hs⟩
      · exact .inr ⟨k', q, hq, (seat_dropped hs).2⟩
  · rintro f (hf | ⟨q', hq', hs'⟩) k' q hq hs
    · exact h.apart f hf k' q hq (seat_dropped hs).2
    · obtain ⟨hne, hs⟩ := seat_dropped hs
      exact hne (h.unshared k' q k q' f hq hq' hs hs').1
  · have hs := (seat_nil (Function.update roots k none) m k').trans hr'
    exact h.shared k' r' ((seat_nil roots m k').symm.trans (seat_dropped hs).2)

theorem Space.frees (h : Space slots kernel roots base m) {pmm : Pmm} {l : List Nat} (hfrees : Frees m.pmm pmm l)
    (hl : ∀ f ∈ l, base f) (hnull : 0 ∉ l) (hkernel : kernel ∉ l) :
    Space slots kernel roots (fun f => base f ∧ f ∉ l) { m with pmm } := by
  refine ⟨?_, ⟨h.null, hnull⟩, fun f => ?_, fun f hf => h.apart f hf.1, h.unshared, fun k p f hp hs => ?_,
    ⟨h.kernelHeld, hkernel⟩, h.kernelSlots, h.shared, fun k p t i hp hlen hs hw => ?_⟩
  · rw [hfrees.total]
    exact h.total
  · rw [hfrees.used, h.used]
    constructor
    · rintro ⟨hb | hs, hno⟩
      · exact .inl ⟨hb, hno⟩
      · exact .inr hs
    · rintro (⟨hb, hno⟩ | ⟨k, p, hp, hs⟩)
      · exact ⟨.inl hb, hno⟩
      · exact ⟨.inr ⟨k, p, hp, hs⟩, fun hmem => h.apart f (hl f hmem) k p hp hs⟩
  · rw [hfrees.total]
    exact h.inRange k p f hp hs
  · rw [hfrees.total]
    exact h.inner k p t i hp hlen hs hw

/-- What freeing the tree `k` does. -/
theorem freeAddressSpace_spec (h : Space slots kernel roots base m) (hr : roots k = some r) :
    Space slots kernel (Function.update roots k none) base (freeAddressSpace kernel r m) ∧
    (freeAddressSpace kernel r m).tables = m.tables ∧
    Frees m.pmm (freeAddressSpace kernel r m).pmm (treeOf slots m.tables r) := by
  rw [freeAddressSpace_eq h hr]
  have hmem : ∀ f, f ∈ treeOf slots m.tables r ↔ _ := fun f => mem_treeOf (m := m) hr
  have hfrees : Frees m.pmm (freeAll m.pmm (treeOf slots m.tables r)) (treeOf slots m.tables r) := by
    refine freeAll_frees (nodup_treeOf h hr) fun f hf => ?_
    obtain ⟨q, hq, hs⟩ := (hmem f).mp hf
    exact ⟨h.seated_ne_zero hq hs, h.inRange k q f hq hs, h.seated_used hq hs⟩
  have hnot : ∀ f, base f → f ∉ treeOf slots m.tables r := by
    intro f hb hf
    obtain ⟨q, hq, hs⟩ := (hmem f).mp hf
    exact h.apart f hb k q hq hs
  generalize treeOf slots m.tables r = l at hfrees hmem hnot ⊢
  generalize freeAll m.pmm l = pmm at hfrees ⊢
  refine ⟨?_, rfl, hfrees⟩
  refine ((h.drop k).frees hfrees (fun f hf => .inr ((hmem f).mp hf)) (hnot 0 h.null)
    (hnot kernel h.kernelHeld)).base_congr fun f => ?_
  rw [← hmem]
  constructor
  · intro hb
    exact ⟨.inl hb, hnot f hb⟩
  · rintro ⟨hb | hf, hno⟩
    · exact hb
    · exact absurd hf hno

/-! ## A new address space -/

/-- A new tree `k` has a PML4 and nothing else. -/
structure Opens (slots : Nat → Bool) (roots : Nat → Option Nat) (k c : Nat) (m m' : Vm) : Prop where
  total : m'.pmm.total = m.pmm.total
  free : m.pmm.used c = false
  used : ∀ f, m'.pmm.used f = true ↔ m.pmm.used f = true ∨ f = c
  refused : m'.pmm.refused = m.pmm.refused
  doubled : m'.pmm.doubled = m.pmm.doubled
  bytes : m'.bytes = m.bytes
  words : ∀ f i, f ≠ c → m'.tables f i = m.tables f i
  mine : ∀ q, (own slots).Ok q → seat (Function.update roots k (some c)) m' k q = if q = [] then some c else none
  others : ∀ k' q, k' ≠ k → (own slots).Ok q → seat (Function.update roots k (some c)) m' k' q = seat roots m k' q

theorem Opens.seated {c : Nat} {m' : Vm} (h : Opens slots roots k c m m') {k' : Nat} {q : List Nat} {f : Nat}
    (hq : (own slots).Ok q) (hs : seat (Function.update roots k (some c)) m' k' q = some f) :
    (k' = k ∧ q = [] ∧ f = c) ∨ (k' ≠ k ∧ seat roots m k' q = some f) := by
  rcases eq_or_ne k' k with rfl | hne
  · rw [h.mine q hq] at hs
    split at hs
    · rename_i hnil
      exact .inl ⟨rfl, hnil, (Option.some.inj hs).symm⟩
    · cases hs
  · rw [h.others k' q hne hq] at hs
    exact .inr ⟨hne, hs⟩

theorem Space.opens (h : Space slots kernel roots base m) {c : Nat} {m' : Vm} (hk : roots k = none)
    (ho : Opens slots roots k c m m') (hlt : c < m.pmm.total) (hroot : ∀ i, m'.tables c i = m.tables kernel i) :
    Space slots kernel (Function.update roots k (some c)) base m' := by
  have hfresh := h.unused_unseated ho.free
  have hheld : ∀ f, base f → f ≠ c := by
    rintro f hf rfl
    have hfree := ho.free
    rw [(h.used f).mpr (.inl hf)] at hfree
    cases hfree
  have hkernel : ∀ i, m'.tables kernel i = m.tables kernel i := fun i => ho.words kernel i (hheld kernel h.kernelHeld)
  refine ⟨?_, h.null, fun f => ?_, fun f hf k' q hq hs => ?_, fun k₁ p₁ k₂ p₂ f h₁ h₂ hs₁ hs₂ => ?_,
    fun k' q f hq hs => ?_, h.kernelHeld, fun i hi => ?_, fun k' r hr i hi hslot => ?_,
    fun k' q t i hq hlen hs hw => ?_⟩
  · rw [ho.total]
    exact h.total
  · rw [ho.used, h.used]
    constructor
    · rintro ((hf | ⟨k', q, hq, hs⟩) | rfl)
      · exact .inl hf
      · refine .inr ⟨k', q, hq, ?_⟩
        rw [ho.others k' q ?_ hq]
        · exact hs
        · rintro rfl
          rw [seat, Radix.seat, hk] at hs
          cases hs
      · exact .inr ⟨k, [], own_nil slots, ho.mine [] (own_nil slots)⟩
    · rintro (hf | ⟨k', q, hq, hs⟩)
      · exact .inl (.inl hf)
      · rcases ho.seated hq hs with ⟨-, -, rfl⟩ | ⟨-, hs⟩
        · exact .inr rfl
        · exact .inl (.inr ⟨k', q, hq, hs⟩)
  · rcases ho.seated hq hs with ⟨-, -, rfl⟩ | ⟨-, hs⟩
    · exact hheld f hf rfl
    · exact h.apart f hf k' q hq hs
  · rcases ho.seated h₁ hs₁ with ⟨rfl, rfl, rfl⟩ | ⟨-, hs₁'⟩
    · rcases ho.seated h₂ hs₂ with ⟨rfl, rfl, -⟩ | ⟨-, hs₂'⟩
      · exact ⟨rfl, rfl⟩
      · exact absurd hs₂' (hfresh k₂ p₂ h₂)
    · rcases ho.seated h₂ hs₂ with ⟨rfl, rfl, rfl⟩ | ⟨-, hs₂'⟩
      · exact absurd hs₁' (hfresh k₁ p₁ h₁)
      · exact h.unshared k₁ p₁ k₂ p₂ f h₁ h₂ hs₁' hs₂'
  · rw [ho.total]
    rcases ho.seated hq hs with ⟨-, -, rfl⟩ | ⟨-, hs⟩
    · exact hlt
    · exact h.inRange k' q f hq hs
  · rw [hkernel]
    exact h.kernelSlots i hi
  · rw [hkernel]
    rcases ho.seated (own_nil slots) ((seat_nil _ m' k').trans hr) with ⟨-, -, rfl⟩ | ⟨-, hs⟩
    · exact hroot i
    · rw [ho.words r i]
      · exact h.shared k' r ((seat_nil roots m k').symm.trans hs) i hi hslot
      · rintro rfl
        exact hfresh k' [] (own_nil slots) hs
  · rw [ho.total]
    rcases ho.seated ((own slots).init q i hq) hs with ⟨-, rfl, rfl⟩ | ⟨-, hs'⟩
    · obtain ⟨-, hi, -, hslot⟩ := own_cons.mp hq
      rw [hroot, h.kernelSlots i hi, hslot] at hw
      cases hw
    · have hne : t ≠ c := by
        rintro rfl
        exact hfresh k' q ((own slots).init q i hq) hs'
      rw [ho.words t i hne] at hw ⊢
      exact h.inner k' q t i hq hlen hs' hw

theorem newAddressSpace_spec (h : Space slots kernel roots base m) (hk : roots k = none) :
    (∃ m' c, newAddressSpace kernel m = (m', c) ∧ c ≠ 0 ∧ Opens slots roots k c m m' ∧
      Space slots kernel (Function.update roots k (some c)) base m') ∨
    newAddressSpace kernel m = ({ m with pmm := { m.pmm with refused := .pml4 :: m.pmm.refused } }, 0) := by
  unfold newAddressSpace
  cases halloc : pmmAlloc m.pmm .pml4 1 with
  | mk pmm c =>
    by_cases hc : c = 0
    · subst hc
      right
      have hnull : m.pmm.used 0 = true := (h.used 0).mpr (.inl h.null)
      obtain rfl := pmmAlloc_null hnull (by decide) halloc
      rfl
    left
    have htakes := pmmAlloc_takes halloc hc
    obtain ⟨hfree, hlt⟩ := htakes.free c (Nat.le_refl c) (by omega)
    have hfresh := h.unused_unseated hfree
    let m' : Vm := ⟨pmm, fun t i => if t = c then m.tables kernel i else m.tables t i, m.bytes⟩
    have hwords : ∀ f i, f ≠ c → m'.tables f i = m.tables f i := fun f i hne => if_neg hne
    have hroot : ∀ i, m'.tables c i = m.tables kernel i := fun i => if_pos rfl
    have hothers : ∀ k' q, k' ≠ k → (own slots).Ok q →
        seat (Function.update roots k (some c)) m' k' q = seat roots m k' q := by
      intro k' q hne hq
      rw [seat_update, if_neg hne]
      refine Radix.seat_congr next roots (fun k' p i t hp hs => hwords t i ?_) k' hq
      rintro rfl
      exact hfresh k' p ((own slots).init p i hp) hs
    have hmine : ∀ q, (own slots).Ok q →
        seat (Function.update roots k (some c)) m' k q = if q = [] then some c else none := by
      intro q hq
      rw [seat_update, if_pos rfl, Option.bind_some]
      cases q with
      | nil => rfl
      | cons i q =>
        obtain ⟨-, hi, -, hslot⟩ := own_cons.mp hq
        have hp : present (m.tables kernel i) = false := by rw [h.kernelSlots i hi, hslot]
        rw [Radix.follow, hroot, next_absent hp]
        rfl
    have hused : ∀ f, pmm.used f = true ↔ m.pmm.used f = true ∨ f = c := by
      intro f
      rw [htakes.used]
      exact or_congr_right ⟨fun h => by omega, fun h => by omega⟩
    have hopens : Opens slots roots k c m m' :=
      ⟨htakes.total, hfree, hused, htakes.refused, htakes.doubled, rfl, hwords, hmine, hothers⟩
    refine ⟨m', c, ?_, hc, hopens, h.opens hk hopens hlt hroot⟩
    cases c with
    | zero => exact absurd rfl hc
    | succ c => rfl

end

end Siathos.Paging
