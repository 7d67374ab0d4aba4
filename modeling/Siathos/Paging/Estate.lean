import Siathos.Paging.Identity

/-!
# Whose page each page is

`Estate` gives every table of the kernel, and every table and page of a process, its one place. A call of
`paging.c` adds places to one tree, and `Grown` says which.
-/

open Lib

namespace Siathos.Paging.Identity

/-! ## Entries -/

theorem next_eq_some {d : Nat} {w : BitVec 64} {c : Nat} :
    next d w = some c ↔ present w = true ∧ large w = false ∧ (d = 3 → mmio w = false) ∧ pfn w = c := by
  unfold next
  split
  · rename_i hw
    simp only [Bool.and_eq_true, Bool.not_eq_true', Bool.and_eq_false_iff, decide_eq_false_iff_not] at hw
    obtain ⟨⟨hp, hl⟩, hm⟩ := hw
    simp only [hp, hl, Option.some.injEq, true_and]
    refine ⟨fun h => ⟨fun hd => hm.resolve_left (not_not.mpr hd), h⟩, fun h => h.2⟩
  · rename_i hw
    simp only [reduceCtorEq, false_iff]
    rintro ⟨hp, hl, hm, -⟩
    refine hw ?_
    simp only [hp, hl, Bool.not_false, Bool.and_true, Bool.true_and, Bool.not_eq_true', Bool.and_eq_false_iff,
      decide_eq_false_iff_not]
    by_cases hd : d = 3
    · exact .inr (hm hd)
    · exact .inl hd

theorem next_inner {d : Nat} {w : BitVec 64} (hd : d < 3) (hp : present w = true) (hl : large w = false) :
    next d w = some (pfn w) :=
  next_eq_some.mpr ⟨hp, hl, fun h => absurd h (by omega), rfl⟩

theorem next_large {d : Nat} {w : BitVec 64} (hl : large w = true) : next d w = none := by
  simp [next, hl]

theorem next_hooked {c : Nat} {flags : BitVec 64} (hc : c < 2 ^ 40) (hflags : flags = 3 ∨ flags = 7) (d : Nat) :
    next d (entry (pageAddr c) flags) = some c := by
  refine next_eq_some.mpr ?_
  rw [present_entry, large_entry, mmio_entry]
  rcases hflags with rfl | rfl
  · exact ⟨by decide, by decide, fun _ => by decide, pfn_entry hc (by decide)⟩
  · exact ⟨by decide, by decide, fun _ => by decide, pfn_entry hc (by decide)⟩

/-! ## Places -/

/-- The place of a page: a tree and a path in it. -/
abbrev Places := Nat → Option (Option Nat × List Nat)

structure Estate (device : Nat → Prop) (kernel : Nat) (roots : Option Nat → Option Nat) (shares : Nat → Nat → Bool)
    (place : Places) (m : Vm) : Prop where
  total : m.pmm.total ≤ 2 ^ 36
  null : m.pmm.used 0 = true
  placed : Radix.Placed next (ownPaths shares) roots m.tables place
  kernelRoot : roots none = some kernel
  used : ∀ f x, place f = some x → f ≠ 0 ∧ (f < m.pmm.total → m.pmm.used f = true)
  mine : ∀ f k p, place f = some (some k, p) → f < m.pmm.total ∧ ¬ device f
  flat : ∀ t K p i, place t = some (K, p) → p.length < 2 → (ownPaths shares).Ok K (p ++ [i]) →
    present (m.tables t i) = true → large (m.tables t i) = false
  last : ∀ t k p i, place t = some (some k, p) → p.length = 3 → (ownPaths shares).Ok (some k) (p ++ [i]) →
    present (m.tables t i) = true → mmio (m.tables t i) = false → large (m.tables t i) = false
  shared : ∀ k r i, roots (some k) = some r → i < 512 → shares k i = true →
    next 0 (m.tables r i) = next 0 (m.tables kernel i) ∧ (next 0 (m.tables kernel i)).isSome
  deviceUsed : ∀ f, device f → f < m.pmm.total → m.pmm.used f = true

/-- The pages that were free and are in use. -/
def Fresh (m m' : Vm) (f : Nat) : Prop := f < m.pmm.total ∧ m.pmm.used f = false ∧ m'.pmm.used f = true

theorem mem_taken {m m' : Vm} {f : Nat} : f ∈ taken m m' ↔ Fresh m m' f := by
  simp [taken, Fresh]

/-- Tables at most `n` entries deep were added to the tree `K`, and pages were taken for nothing else. The
kernel may have lost tables of the last level. -/
structure Grown (n : Nat) (K : Option Nat) (m m' : Vm) (place place' : Places) : Prop where
  bound : n ≤ 2 ∨ K ≠ none ∧ n ≤ 3
  total : m'.pmm.total = m.pmm.total
  mono : ∀ f, m.pmm.used f = true → m'.pmm.used f = true
  kept : ∀ f k p, place f = some (k, p) → p.length ≤ 2 ∨ k ≠ none ∧ p.length ≤ 3 → place' f = some (k, p)
  old : ∀ f k p, place' f = some (some k, p) → p.length ≤ 3 →
    place f = some (some k, p) ∨ some k = K ∧ p ≠ [] ∧ p.length ≤ n ∧ Fresh m m' f
  fresh : ∀ f, Fresh m m' f → ∃ p, p ≠ [] ∧ p.length ≤ n ∧ place' f = some (K, p)

section

variable {device : Nat → Prop} {kernel : Nat} {roots : Option Nat → Option Nat} {shares : Nat → Nat → Bool}
variable {place place' place'' : Places} {m m' m'' : Vm} {n : Nat} {K : Option Nat} {p : List Nat} {t i c : Nat}

theorem Grown.refl (h : n ≤ 2 ∨ K ≠ none ∧ n ≤ 3) : Grown n K m m place place :=
  ⟨h, rfl, fun _ hf => hf, fun _ _ _ hf _ => hf, fun _ _ _ hf _ => .inl hf, fun f hf => by simp [Fresh] at hf⟩

theorem Grown.trans (h : Grown n K m m' place place') (h' : Grown n K m' m'' place' place'') :
    Grown n K m m'' place place'' := by
  have hfree : ∀ f, m'.pmm.used f = false → m.pmm.used f = false := by
    intro f hf
    by_contra hno
    rw [h.mono f (by simpa using hno)] at hf
    cases hf
  refine ⟨h.bound, h'.total.trans h.total, fun f hf => h'.mono f (h.mono f hf),
    fun f k p hf hp => h'.kept f k p (h.kept f k p hf hp) hp, fun f k p hf hp => ?_, fun f hf => ?_⟩
  · rcases h'.old f k p hf hp with hf' | ⟨hk, hne, hlen, hlt, hfr, hus⟩
    · rcases h.old f k p hf' hp with hf | ⟨hk, hne, hlen, hlt, hfr, hus⟩
      · exact .inl hf
      · exact .inr ⟨hk, hne, hlen, hlt, hfr, h'.mono f hus⟩
    · refine .inr ⟨hk, hne, hlen, ?_, hfree f hfr, hus⟩
      rwa [h.total] at hlt
  · obtain ⟨hlt, hfr, hus⟩ := hf
    cases hmid : m'.pmm.used f with
    | true =>
      obtain ⟨p, hne, hlen, hp⟩ := h.fresh f ⟨hlt, hfr, hmid⟩
      refine ⟨p, hne, hlen, h'.kept f K p hp ?_⟩
      rcases h.bound with hn | ⟨hK, hn⟩
      · exact .inl (by omega)
      · exact .inr ⟨hK, by omega⟩
    | false => exact h'.fresh f ⟨by rwa [h.total], hmid, hus⟩

namespace Estate

theorem small (h : Estate device kernel roots shares place m) {f : Nat} (hf : f < m.pmm.total) : f < 2 ^ 40 := by
  have := h.total
  omega

theorem unplaced (h : Estate device kernel roots shares place m) {f : Nat} (hlt : f < m.pmm.total)
    (hfree : m.pmm.used f = false) : place f = none := by
  cases hp : place f with
  | none => rfl
  | some x =>
    rw [(h.used f x hp).2 hlt] at hfree
    cases hfree

theorem root (h : Estate device kernel roots shares place m) {r : Nat} (hr : roots K = some r) :
    place r = some (K, []) :=
  (h.placed.root K r).mpr hr

/-! ## A table more -/

/-- The page `c` is cleared and becomes the child `i` of `t`. -/
def hooked (m : Vm) (pmm : Pmm) (t i c : Nat) (flags : BitVec 64) : Vm :=
  { m with pmm, tables := Radix.write (Radix.zero m.tables c 0) t i (entry (pageAddr c) flags) }

theorem hooked_self {pmm : Pmm} {flags : BitVec 64} :
    (hooked m pmm t i c flags).tables t i = entry (pageAddr c) flags :=
  Radix.write_same ..

theorem hooked_child {pmm : Pmm} {flags : BitVec 64} (hne : t ≠ c) (j : Nat) :
    (hooked m pmm t i c flags).tables c j = 0 := by
  unfold hooked
  dsimp only
  rw [Radix.write_other (.inl hne.symm)]
  exact if_pos rfl

theorem hooked_other {pmm : Pmm} {flags : BitVec 64} {t' j : Nat} (hc : t' ≠ c) (hw : t' ≠ t ∨ j ≠ i) :
    (hooked m pmm t i c flags).tables t' j = m.tables t' j := by
  unfold hooked
  dsimp only
  rw [Radix.write_other hw]
  exact if_neg hc

theorem hook (h : Estate device kernel roots shares place m) (ht : place t = some (K, p))
    (hok : (ownPaths shares).Ok K (p ++ [i])) (habs : present (m.tables t i) = false) {pmm : Pmm}
    (htakes : Takes m.pmm pmm c 1) {flags : BitVec 64} (hflags : flags = 3 ∨ flags = 7) :
    Estate device kernel roots shares (Function.update place c (some (K, p ++ [i]))) (hooked m pmm t i c flags) := by
  obtain ⟨hfree, hlt⟩ := htakes.free c (Nat.le_refl c) (by omega)
  have hc := h.unplaced hlt hfree
  have hne : ∀ {t' x}, place t' = some x → t' ≠ c := by
    rintro t' x hx rfl
    rw [hc] at hx
    cases hx
  have hused : pmm.used c = true := (htakes.used c).mpr (.inr ⟨Nat.le_refl c, by omega⟩)
  have hc0 : c ≠ 0 := by
    rintro rfl
    rw [h.null] at hfree
    cases hfree
  have hlarge : large (entry (pageAddr c) flags) = false := (next_eq_some.mp (next_hooked (h.small hlt) hflags 0)).2.1
  -- an entry is empty, or it is the new one, or it is as before
  have hwords : ∀ {t' K' p'} j, Function.update place c (some (K, p ++ [i])) t' = some (K', p') →
      (hooked m pmm t i c flags).tables t' j = 0 ∨
      (hooked m pmm t i c flags).tables t' j = entry (pageAddr c) flags ∨
      place t' = some (K', p') ∧ (hooked m pmm t i c flags).tables t' j = m.tables t' j := by
    intro t' K' p' j hp
    rcases eq_or_ne t' c with rfl | htc
    · exact .inl (hooked_child (hne ht) j)
    · rw [Function.update_of_ne htc] at hp
      by_cases hw : t' ≠ t ∨ j ≠ i
      · exact .inr (.inr ⟨hp, hooked_other htc hw⟩)
      · obtain ⟨rfl, rfl⟩ : t' = t ∧ j = i := by simpa [not_or] using hw
        exact .inr (.inl hooked_self)
  refine ⟨?_, (htakes.used 0).mpr (.inl h.null), ?_, h.kernelRoot, fun f x hx => ?_, fun f k q hq => ?_,
    fun t' K' p' j hp hlen hok' hw => ?_, fun t' k p' j hp hlen hok' hw hm => ?_, fun k r j hr hj hslot => ?_,
    fun f hf hlt' => ?_⟩
  · exact htakes.total ▸ h.total
  · refine h.placed.grow ht hok (next_absent habs) ?_ hc (fun j _ => ?_) fun t' j hp hw => ?_
    · rw [hooked_self, next_hooked (h.small hlt) hflags]
    · rw [hooked_child (hne ht)]
      exact next_absent present_zero
    · obtain ⟨x, hx⟩ := Option.isSome_iff_exists.mp hp
      exact hooked_other (hne hx) hw
  · rcases eq_or_ne f c with rfl | hfc
    · exact ⟨hc0, fun _ => hused⟩
    · rw [Function.update_of_ne hfc] at hx
      refine ⟨(h.used f x hx).1, fun hf => (htakes.used f).mpr (.inl ((h.used f x hx).2 ?_))⟩
      rwa [← htakes.total]
  · change f < pmm.total ∧ ¬ device f
    rw [htakes.total]
    rcases eq_or_ne f c with rfl | hfc
    · refine ⟨hlt, fun hd => ?_⟩
      rw [h.deviceUsed f hd hlt] at hfree
      cases hfree
    · rw [Function.update_of_ne hfc] at hq
      exact h.mine f k q hq
  · rcases hwords j hp with heq | heq | ⟨hp, heq⟩
    · rw [heq, present_zero] at hw
      cases hw
    · rw [heq]
      exact hlarge
    · rw [heq] at hw ⊢
      exact h.flat t' K' p' j hp hlen hok' hw
  · rcases hwords j hp with heq | heq | ⟨hp, heq⟩
    · rw [heq, present_zero] at hw
      cases hw
    · rw [heq]
      exact hlarge
    · rw [heq] at hw hm ⊢
      exact h.last t' k p' j hp hlen hok' hw hm
  · obtain ⟨hsame, hsome⟩ := h.shared k r j hr hj hslot
    have hrp := h.root hr
    have hkp := h.root h.kernelRoot
    rw [hooked_other (hne hrp), hooked_other (hne hkp)]
    · exact ⟨hsame, hsome⟩
    · -- the kernel has an entry there
      refine Radix.Placed.elsewhere ht hkp ?_
      rintro rfl rfl rfl
      rw [h.placed.same ht hkp] at habs
      rw [next_absent habs] at hsome
      cases hsome
    · -- the slot is not the process's own
      refine Radix.Placed.elsewhere ht hrp ?_
      rintro rfl rfl rfl
      have := hok.2.2 j (by simp)
      rw [hslot] at this
      cases this
  · exact (htakes.used f).mpr (.inl (h.deviceUsed f hf (htakes.total ▸ hlt')))

theorem hook_grown (h : Estate device kernel roots shares place m) {pmm : Pmm} (htakes : Takes m.pmm pmm c 1)
    (flags : BitVec 64) (hn : n ≤ 2 ∨ K ≠ none ∧ n ≤ 3) (hlen : p.length < n) :
    Grown n K m (hooked m pmm t i c flags) place (Function.update place c (some (K, p ++ [i]))) := by
  obtain ⟨hfree, hlt⟩ := htakes.free c (Nat.le_refl c) (by omega)
  have hc := h.unplaced hlt hfree
  have hused : pmm.used c = true := (htakes.used c).mpr (.inr ⟨Nat.le_refl c, by omega⟩)
  have hsnoc : (p ++ [i]).length ≤ n := by
    rw [List.length_append, List.length_singleton]
    omega
  refine ⟨hn, htakes.total, fun f hf => (htakes.used f).mpr (.inl hf), fun f k q hq _ => ?_, fun f k q hq _ => ?_,
    fun f hf => ?_⟩
  · rw [Function.update_of_ne]
    · exact hq
    · rintro rfl
      rw [hc] at hq
      cases hq
  · rcases eq_or_ne f c with rfl | hfc
    · rw [Function.update_self] at hq
      obtain ⟨rfl, rfl⟩ := Prod.mk.inj (Option.some.inj hq)
      exact .inr ⟨rfl, by simp, hsnoc, hlt, hfree, hused⟩
    · rw [Function.update_of_ne hfc] at hq
      exact .inl hq
  · obtain ⟨-, hfr, hus⟩ := hf
    obtain rfl : f = c := by
      rcases (htakes.used f).mp hus with hu | hu
      · rw [hu] at hfr
        cases hfr
      · omega
    exact ⟨p ++ [i], by simp, hsnoc, Function.update_self ..⟩

/-- Calls of `pmm_alloc` that are refused, or whose pages go elsewhere. -/
theorem withPmm (h : Estate device kernel roots shares place m) {pmm : Pmm} (ht : pmm.total = m.pmm.total)
    (hmono : ∀ f, m.pmm.used f = true → pmm.used f = true) :
    Estate device kernel roots shares place { m with pmm } := by
  refine ⟨?_, hmono 0 h.null, h.placed, h.kernelRoot, fun f x hx => ?_, fun f k p hp => ?_, h.flat, h.last, h.shared,
    fun f hd hf => ?_⟩
  · exact ht ▸ h.total
  · refine ⟨(h.used f x hx).1, fun hf => hmono f ((h.used f x hx).2 ?_)⟩
    rwa [← ht]
  · change f < pmm.total ∧ _
    rw [ht]
    exact h.mine f k p hp
  · exact hmono f (h.deviceUsed f hd (ht ▸ hf))

/-! ## Deep entries -/

theorem write (h : Estate device kernel roots shares place m) (ht : place t = some (K, p)) (hlen : 2 ≤ p.length)
    {w : BitVec 64} (hplaced : Radix.Placed next (ownPaths shares) roots (Radix.write m.tables t i w) place')
    (hplace : ∀ f K' q, place' f = some (K', q) → place f = some (K', q) ∨
      q.length = 4 ∧ f ≠ 0 ∧ f < m.pmm.total ∧ m.pmm.used f = true ∧ ¬ device f)
    (hw : p.length = 3 → present w = true → mmio w = false → large w = false) :
    Estate device kernel roots shares place' { m with tables := Radix.write m.tables t i w } := by
  have hother : ∀ {t' K' q j}, place t' = some (K', q) → q.length < 2 →
    Radix.write m.tables t i w t' j = m.tables t' j := by
    intro t' K' q j hq hlt
    refine Radix.write_other (Radix.Placed.elsewhere ht hq ?_)
    rintro - rfl
    omega
  refine ⟨h.total, h.null, hplaced, h.kernelRoot, fun f x hx => ?_, fun f k q hq => ?_,
    fun t' K' q j hq hlt hok hp => ?_, fun t' k q j hq hlt hok hp hm => ?_, fun k r j hr hj hslot => ?_, h.deviceUsed⟩
  · obtain ⟨K', q⟩ := x
    rcases hplace f K' q hx with hf | ⟨-, h0, hlt, hus, -⟩
    · exact h.used f _ hf
    · exact ⟨h0, fun _ => hus⟩
  · rcases hplace f (some k) q hq with hf | ⟨-, -, hlt, -, hd⟩
    · exact h.mine f k q hf
    · exact ⟨hlt, hd⟩
  · rcases hplace t' K' q hq with hf | ⟨h4, -⟩
    · dsimp only at hp ⊢
      rw [hother hf hlt] at hp ⊢
      exact h.flat t' K' q j hf hlt hok hp
    · omega
  · rcases hplace t' (some k) q hq with hf | ⟨h4, -⟩
    · dsimp only at hp hm ⊢
      by_cases he : t' ≠ t ∨ j ≠ i
      · rw [Radix.write_other he] at hp hm ⊢
        exact h.last t' k q j hf hlt hok hp hm
      · obtain ⟨rfl, rfl⟩ : t' = t ∧ j = i := by simpa [not_or] using he
        rw [Radix.write_same] at hp hm ⊢
        rw [ht] at hf
        obtain ⟨-, rfl⟩ := Prod.mk.inj (Option.some.inj hf)
        exact hw hlt hp hm
    · omega
  · dsimp only
    rw [hother (h.root hr) (by simp), hother (h.root h.kernelRoot) (by simp)]
    exact h.shared k r j hr hj hslot

theorem bits (h : Estate device kernel roots shares place m) {tables : Nat → Nat → BitVec 64}
    (hp : ∀ t i, present (tables t i) = present (m.tables t i)) (hl : ∀ t i, large (tables t i) = large (m.tables t i))
    (hm : ∀ t i, mmio (tables t i) = mmio (m.tables t i)) (hf : ∀ t i, pfn (tables t i) = pfn (m.tables t i)) :
    Estate device kernel roots shares place { m with tables } := by
  have hnext : ∀ d t i, next d (tables t i) = next d (m.tables t i) := by
    intro d t i
    rw [next, next, hp, hl, hm, hf]
  refine ⟨h.total, h.null, h.placed.congr fun t k p i _ _ => hnext _ t i, h.kernelRoot, h.used, h.mine, ?_, ?_, ?_,
    h.deviceUsed⟩
  · simpa only [hp, hl] using h.flat
  · simpa only [hp, hl, hm] using h.last
  · simpa only [hnext] using h.shared

end Estate

end

end Siathos.Paging.Identity
