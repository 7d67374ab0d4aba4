import Siathos.Paging.Estate

/-!
# What the calls of `paging.c` add

A call walks down one tree. Every step of it finds a table, makes one, or is refused a page.
-/

open Lib

namespace Siathos.Paging.Identity

/-! ## Pages left -/

def Full (pmm : Pmm) : Prop := ∀ f < pmm.total, pmm.used f = true

theorem pmmAlloc_page {pmm : Pmm} (hnull : pmm.used 0 = true) (why : Purpose) :
    (∃ pmm' c, pmmAlloc pmm why 1 = (pmm', c + 1) ∧ Takes pmm pmm' (c + 1) 1) ∨
    (Full pmm ∧ pmmAlloc pmm why 1 = ({ pmm with refused := why :: pmm.refused }, 0)) := by
  rcases pmmAlloc_grows hnull why (by decide : 1 ≠ 0) with ⟨hno, hzero, heq⟩ | ⟨-, hne, htakes⟩
  · refine .inr ⟨fun f hf => ?_, Prod.ext heq hzero⟩
    have := hno f
    rw [← Bool.not_eq_true, fits_iff] at this
    simpa [Nat.succ_le_of_lt hf] using this
  · obtain ⟨c, hc⟩ := Nat.exists_eq_succ_of_ne_zero hne
    rw [hc] at htakes
    exact .inl ⟨_, c, Prod.ext rfl hc, htakes⟩

theorem Takes.not_full {pmm pmm' : Pmm} {f : Nat} (h : Takes pmm pmm' f 1) : ¬ Full pmm := by
  intro hfull
  obtain ⟨hfree, hlt⟩ := h.free f (Nat.le_refl f) (by omega)
  rw [hfull f hlt] at hfree
  cases hfree

section

variable {device : Nat → Prop} {kernel : Nat} {roots : Option Nat → Option Nat} {shares : Nat → Nat → Bool}
variable {place : Places} {m : Vm} {n : Nat} {K : Option Nat} {p : List Nat} {t i k r : Nat}

theorem Grown.full {m' : Vm} {place' : Places} (h : Grown n K m m' place place') (hfull : Full m.pmm) :
    Full m'.pmm := by
  intro f hf
  rw [h.total] at hf
  exact h.mono f (hfull f hf)

theorem Estate.refused (h : Estate device kernel roots shares place m) (hn : n ≤ 2 ∨ K ≠ none ∧ n ≤ 3)
    (l : List Purpose) :
    Estate device kernel roots shares place { m with pmm := { m.pmm with refused := l } } ∧
      Grown n K m { m with pmm := { m.pmm with refused := l } } place place :=
  ⟨h.withPmm rfl fun _ hf => hf, hn, rfl, fun _ hf => hf, fun _ _ _ hf _ => hf, fun _ _ _ hf _ => .inl hf,
    fun f hf => by simp [Fresh] at hf⟩

/-! ## One level -/

/-- What a call leaves behind. -/
def Leaves (device : Nat → Prop) (kernel : Nat) (roots : Option Nat → Option Nat) (shares : Nat → Nat → Bool) (n : Nat)
    (K : Option Nat) (m : Vm) (place : Places) (m' : Vm) (place' : Places) : Prop :=
  Estate device kernel roots shares place' m' ∧ Grown n K m m' place place'

theorem Leaves.trans {m' m'' : Vm} {place' place'' : Places}
    (h : Leaves device kernel roots shares n K m place m' place')
    (h' : Leaves device kernel roots shares n K m' place' m'' place'') :
    Leaves device kernel roots shares n K m place m'' place'' :=
  ⟨h'.1, h.2.trans h'.2⟩

theorem Estate.leaves (h : Estate device kernel roots shares place m) (hn : n ≤ 2 ∨ K ≠ none ∧ n ≤ 3) :
    Leaves device kernel roots shares n K m place m place :=
  ⟨h, Grown.refl hn⟩

/-- Only pages that were free have new places. -/
def Added (m : Vm) (place place' : Places) : Prop := ∀ f x, place' f = some x → place f = some x ∨ m.pmm.used f = false

/-- `paging_ensure_table` for an entry of a process. -/
theorem ensureTable_leaves (h : Estate device kernel roots shares place m) (ht : place t = some (some k, p))
    (hok : (ownPaths shares).Ok (some k) (p ++ [i])) (hlen : p.length < 3) :
    ∃ place', Leaves device kernel roots shares 3 (some k) m place (ensureTable true t i m).1 place' ∧
      Added m place place' ∧
      ((ensureTable true t i m).2 = 0 ∨ place' (ensureTable true t i m).2 = some (some k, p ++ [i])) := by
  have hn : 3 ≤ 2 ∨ some k ≠ none ∧ 3 ≤ 3 := .inr ⟨by simp, Nat.le_refl 3⟩
  unfold ensureTable
  dsimp only
  cases hp : present (m.tables t i) with
  | true =>
    rw [if_pos rfl]
    cases hl : large (m.tables t i) with
    | true => exact ⟨place, h.leaves hn, fun _ _ hf => .inl hf, .inl rfl⟩
    | false =>
      exact ⟨place, h.leaves hn, fun _ _ hf => .inl hf, .inr (h.placed.child_of ht hok (next_inner hlen hp hl))⟩
  | false =>
    rw [if_neg (by simp)]
    rcases pmmAlloc_page h.null .table with ⟨pmm, c, heq, htakes⟩ | ⟨-, heq⟩
    · rw [heq]
      refine ⟨_, ⟨h.hook ht hok hp htakes (.inr rfl), h.hook_grown htakes 7 hn hlen⟩, fun f x hx => ?_, .inr ?_⟩
      · rcases eq_or_ne f (c + 1) with rfl | hfc
        · exact .inr (htakes.free _ (Nat.le_refl _) (by omega)).1
        · rw [Function.update_of_ne hfc] at hx
          exact .inl hx
      · exact Function.update_self ..
    · rw [heq]
      exact ⟨place, h.refused hn _, fun _ _ hf => .inl hf, .inl rfl⟩

theorem ensureTables_leaves {path : List Nat} (h : Estate device kernel roots shares place m)
    (ht : place t = some (some k, p)) (hok : (ownPaths shares).Ok (some k) (p ++ path))
    (hlen : (p ++ path).length ≤ 3) :
    ∃ place', Leaves device kernel roots shares 3 (some k) m place (ensureTables t path m).1 place' ∧
      Added m place place' ∧
      ((ensureTables t path m).2 = 0 ∨ place' (ensureTables t path m).2 = some (some k, p ++ path)) := by
  induction path generalizing t p m place with
  | nil =>
    rw [List.append_nil]
    exact ⟨place, h.leaves (.inr ⟨by simp, Nat.le_refl 3⟩), fun _ _ hf => .inl hf, .inr ht⟩
  | cons i path ih =>
    rw [List.append_cons] at hok hlen ⊢
    have hpi : (ownPaths shares).Ok (some k) (p ++ [i]) := by
      obtain ⟨hle, hlt, hhead⟩ := hok
      refine ⟨?_, fun j hj => hlt j (List.mem_append_left _ hj), fun j hj => hhead j ?_⟩
      · rw [List.length_append] at hle
        omega
      · rw [List.head?_append_of_ne_nil _ (by simp)]
        exact hj
    have hlt : p.length < 3 := by
      simp only [List.length_append, List.length_singleton] at hlen
      omega
    obtain ⟨place₁, hleft₁, hadd₁, hend₁⟩ := ensureTable_leaves h ht hpi hlt
    unfold ensureTables
    rcases heq : ensureTable true t i m with ⟨m₁, _ | c⟩
    · rw [heq] at hleft₁
      exact ⟨place₁, hleft₁, hadd₁, .inl rfl⟩
    · rw [heq] at hleft₁ hend₁
      obtain ⟨place₂, hleft₂, hadd₂, hend₂⟩ := ih hleft₁.1 (hend₁.resolve_left (by simp)) hok hlen
      refine ⟨place₂, hleft₁.trans hleft₂, fun f x hx => ?_, hend₂⟩
      rcases hadd₂ f x hx with hx | hfree
      · exact hadd₁ f x hx
      · refine .inr ?_
        by_contra hno
        rw [hleft₁.2.mono f (by simpa using hno)] at hfree
        cases hfree

/-- The child at an entry of the first two levels, for `pml4_map_device`. -/
theorem deviceTable_leaves (h : Estate device kernel roots shares place m) (ht : place t = some (K, p))
    (hok : (ownPaths shares).Ok K (p ++ [i])) (hlen : p.length < 2) :
    ∃ place', Leaves device kernel roots shares 2 K m place (deviceTable t i m).1 place' ∧
      ((deviceTable t i m).2 = false ∧ Full m.pmm ∨
        (deviceTable t i m).2 = true ∧ place' (pfn ((deviceTable t i m).1.tables t i)) = some (K, p ++ [i])) := by
  have hn : 2 ≤ 2 ∨ K ≠ none ∧ 2 ≤ 3 := .inl (Nat.le_refl 2)
  unfold deviceTable
  cases hp : present (m.tables t i) with
  | true =>
    rw [if_pos rfl]
    have hnext := next_inner (by omega : p.length < 3) hp (h.flat t K p i ht hlen hok hp)
    exact ⟨place, h.leaves hn, .inr ⟨rfl, h.placed.child_of ht hok hnext⟩⟩
  | false =>
    rw [if_neg (by simp)]
    rcases pmmAlloc_page h.null .table with ⟨pmm, c, heq, htakes⟩ | ⟨hfull, heq⟩
    · rw [heq]
      refine ⟨_, ⟨h.hook ht hok hp htakes (.inl rfl), h.hook_grown htakes 3 hn hlen⟩, .inr ⟨rfl, ?_⟩⟩
      have hc := h.small (htakes.free (c + 1) (Nat.le_refl _) (by omega)).2
      change Function.update place (c + 1) _ (pfn ((Estate.hooked m pmm t i (c + 1) 3).tables t i)) = _
      rw [Estate.hooked_self, pfn_entry hc (by decide), Function.update_self]
    · rw [heq]
      exact ⟨place, h.refused hn _, .inl ⟨rfl, hfull⟩⟩

/-! ## A page of 2 MB -/

theorem large_page (phys : BitVec 64) : large (entry phys 0x83) = true := by
  rw [large_entry]
  decide

theorem largeWrite_leaves (h : Estate device kernel roots shares place m) (ht : place t = some (K, p))
    (hok : (ownPaths shares).Ok K (p ++ [i])) (hlen : p.length = 2)
    (hclear : K ≠ none → ∀ c, place c ≠ some (K, p ++ [i])) (phys : BitVec 64) :
    ∃ place', Leaves device kernel roots shares 2 K m place
      { m with tables := Radix.write m.tables t i (entry phys 0x83) } place' ∧
        ∀ f k' q, place f = some (k', q) → q.length ≤ 2 → place' f = some (k', q) := by
  have hn : 2 ≤ 2 ∨ K ≠ none ∧ 2 ≤ 3 := .inl (Nat.le_refl 2)
  have hnew : next p.length (Radix.write m.tables t i (entry phys 0x83) t i) = none := by
    rw [Radix.write_same]
    exact next_large (large_page phys)
  have hrest : ∀ t' j, (place t').isSome → t' ≠ t ∨ j ≠ i →
      Radix.write m.tables t i (entry phys 0x83) t' j = m.tables t' j := fun t' j _ => Radix.write_other
  cases K with
  | none =>
    have hlast : ∀ j, ¬ (ownPaths shares).Ok none (p ++ [i] ++ [j]) := by
      intro j hj
      have := hj.1
      simp [hlen] at this
    have hplaced := h.placed.prune ht hok hnew hlast hrest
    -- what was below the entry is at the path of the entry
    have hdeep : ∀ f K' q, place f = some (K', q) → (q.length ≤ 2 ∨ K' ≠ none) →
        Radix.Placed.without place (next p.length (m.tables t i)) f = some (K', q) := by
      intro f K' q hf hq
      refine Radix.Placed.without_eq_some.mpr ⟨fun hgo => ?_, hf⟩
      rw [h.placed.child_of ht hok hgo] at hf
      obtain ⟨rfl, rfl⟩ := Prod.mk.inj (Option.some.inj hf)
      simp [hlen] at hq
    refine ⟨_, ⟨h.write ht (by omega) hplaced (fun f K' q hf => .inl (Radix.Placed.without_eq_some.mp hf).2)
      (by omega), hn, rfl, fun _ hf => hf, fun f K' q hf hq => ?_, fun f k' q hf _ => ?_, fun f hf => ?_⟩,
      fun f K' q hf hq => hdeep f K' q hf (.inl hq)⟩
    · exact hdeep f K' q hf (hq.imp_right fun hq => hq.1)
    · exact .inl (Radix.Placed.without_eq_some.mp hf).2
    · simp [Fresh] at hf
  | some k =>
    have hold : next p.length (m.tables t i) = none := by
      cases hc : next p.length (m.tables t i) with
      | none => rfl
      | some c => exact absurd (h.placed.child_of ht hok hc) (hclear (by simp) c)
    have hplaced : Radix.Placed next (ownPaths shares) roots (Radix.write m.tables t i (entry phys 0x83)) place := by
      refine h.placed.congr fun t' K' q j ht' _ => ?_
      by_cases hw : t' ≠ t ∨ j ≠ i
      · rw [Radix.write_other hw]
      · obtain ⟨rfl, rfl⟩ : t' = t ∧ j = i := by simpa [not_or] using hw
        rw [ht] at ht'
        obtain ⟨rfl, rfl⟩ := Prod.mk.inj (Option.some.inj ht')
        rw [hnew, hold]
    exact ⟨place, ⟨h.write ht (by omega) hplaced (fun f K' q hf => .inl hf) (by omega), hn, rfl, fun _ hf => hf,
      fun _ _ _ hf _ => hf, fun _ _ _ hf _ => .inl hf, fun f hf => by simp [Fresh] at hf⟩, fun _ _ _ hf _ => hf⟩

/-- The kernel has its tables for the page, or no page is left. -/
def Ready (place : Places) (m : Vm) (a : BitVec 64) : Prop :=
  Full m.pmm ∨ ∃ l2, place l2 = some (none, [idxL4 a, idxL3 a])

theorem Ready.grown {m' : Vm} {place' : Places} {a : BitVec 64} (h : Ready place m a)
    (hg : Grown n K m m' place place') : Ready place' m' a := by
  rcases h with hfull | ⟨l2, hl2⟩
  · exact .inl (hg.full hfull)
  · exact .inr ⟨l2, hg.kept l2 none _ hl2 (.inl (by simp))⟩

theorem pml4MapDevice_leaves (h : Estate device kernel roots shares place m) (hr : roots K = some r) (a : BitVec 64)
    (hok : (ownPaths shares).Ok K (tablePath a)) (hclear : K ≠ none → ∀ c, place c ≠ some (K, tablePath a)) :
    ∃ place', Leaves device kernel roots shares 2 K m place (pml4MapDevice r a m) place' ∧
      (K = none → Ready place' (pml4MapDevice r a m) a) := by
  have hok2 : (ownPaths shares).Ok K ([idxL4 a] ++ [idxL3 a]) :=
    (ownPaths shares).init K [idxL4 a, idxL3 a] (idxL2 a) hok
  have hok1 : (ownPaths shares).Ok K ([] ++ [idxL4 a]) := (ownPaths shares).init K [idxL4 a] (idxL3 a) hok2
  unfold pml4MapDevice
  obtain ⟨place₁, hleft₁, hend₁⟩ := deviceTable_leaves h (h.root hr) hok1 (by simp)
  rcases hm₁ : deviceTable r (idxL4 a) m with ⟨m₁, _ | _⟩
  · rw [hm₁] at hleft₁ hend₁
    rcases hend₁ with ⟨-, hfull⟩ | ⟨hfalse, -⟩
    · exact ⟨place₁, hleft₁, fun _ => .inl (hleft₁.2.full hfull)⟩
    · cases hfalse
  rw [hm₁] at hleft₁ hend₁
  rcases hend₁ with ⟨hfalse, -⟩ | ⟨-, hl3⟩
  · cases hfalse
  dsimp only at hl3 ⊢
  obtain ⟨place₂, hleft₂, hend₂⟩ := deviceTable_leaves hleft₁.1 hl3 hok2 (by simp)
  rcases hm₂ : deviceTable (pfn (m₁.tables r (idxL4 a))) (idxL3 a) m₁ with ⟨m₂, _ | _⟩
  · rw [hm₂] at hleft₂ hend₂
    rcases hend₂ with ⟨-, hfull⟩ | ⟨hfalse, -⟩
    · exact ⟨place₂, hleft₁.trans hleft₂, fun _ => .inl (hleft₂.2.full hfull)⟩
    · cases hfalse
  rw [hm₂] at hleft₂ hend₂
  rcases hend₂ with ⟨hfalse, -⟩ | ⟨-, hl2⟩
  · cases hfalse
  dsimp only at hl2 ⊢
  have hleft := hleft₁.trans hleft₂
  -- no table of the process has come to be below the entry
  have hclear' : K ≠ none → ∀ c, place₂ c ≠ some (K, [idxL4 a] ++ [idxL3 a] ++ [idxL2 a]) := by
    intro hK c hc
    obtain ⟨k, rfl⟩ := Option.ne_none_iff_exists'.mp hK
    rcases hleft.2.old c k _ hc (by simp) with hold | ⟨-, -, hlen, -⟩
    · exact hclear hK c hold
    · simp at hlen
  obtain ⟨place₃, hleft₃, hkept⟩ := largeWrite_leaves hleft₂.1 hl2 hok (by simp) hclear' a
  exact ⟨place₃, hleft.trans hleft₃, fun hK => .inr ⟨_, hkept _ _ _ (hK ▸ hl2) (by simp)⟩⟩

theorem pml4MapDevice_shared (h : Estate device kernel roots shares place m) (hr : roots (some k) = some r)
    {a : BitVec 64} (hslot : shares k (idxL4 a) = true) (hready : Ready place m a) :
    ∃ place', Leaves device kernel roots shares 2 (some k) m place (pml4MapDevice r a m) place' := by
  have hn : 2 ≤ 2 ∨ some k ≠ none ∧ 2 ≤ 3 := .inl (Nat.le_refl 2)
  have hlt := idxL4_lt a
  obtain ⟨hsame, hsome⟩ := h.shared k r (idxL4 a) hr hlt hslot
  obtain ⟨l3, hl3⟩ := Option.isSome_iff_exists.mp hsome
  have hok1 : (ownPaths shares).Ok none ([] ++ [idxL4 a]) := ⟨by simp, by simpa using hlt⟩
  have hok2 : (ownPaths shares).Ok none ([idxL4 a] ++ [idxL3 a]) := ⟨by simp, by simpa using ⟨hlt, idxL3_lt a⟩⟩
  have hplace3 : place l3 = some (none, [idxL4 a]) := h.placed.child_of (h.root h.kernelRoot) hok1 hl3
  rw [hl3] at hsame
  obtain ⟨hp, -, -, hpfn⟩ := next_eq_some.mp hsame
  unfold pml4MapDevice
  rw [show deviceTable r (idxL4 a) m = (m, true) from if_pos hp]
  dsimp only
  rw [hpfn]
  cases hp3 : present (m.tables l3 (idxL3 a)) with
  | false =>
    -- the kernel was refused a page, and so is the process
    have hfull : Full m.pmm := by
      rcases hready with hfull | ⟨l2, hl2⟩
      · exact hfull
      · obtain ⟨-, l3', hl3', hnext⟩ := (h.placed.child none [idxL4 a] (idxL3 a) l2).mp hl2
        rw [h.placed.same hl3' hplace3, next_absent hp3] at hnext
        cases hnext
    unfold deviceTable
    rw [if_neg (by simp [hp3])]
    rcases pmmAlloc_page h.null .table with ⟨pmm, c, -, htakes⟩ | ⟨-, heq⟩
    · exact absurd hfull (Takes.not_full htakes)
    · rw [heq]
      exact ⟨place, h.refused hn _⟩
  | true =>
    rw [show deviceTable l3 (idxL3 a) m = (m, true) from if_pos hp3]
    dsimp only
    have hl2 := h.placed.child_of hplace3 hok2
      (next_inner (by simp) hp3 (h.flat l3 none [idxL4 a] (idxL3 a) hplace3 (by simp) hok2 hp3))
    obtain ⟨place', hleft, -⟩ := largeWrite_leaves (i := idxL2 a) h hl2
      ⟨by simp, by simpa using ⟨hlt, idxL3_lt a, idxL2_lt a⟩⟩ (by simp) (by simp) a
    exact ⟨place', hleft.1, ⟨hn, hleft.2.total, hleft.2.mono, hleft.2.kept, fun f k' q hf hq =>
      (hleft.2.old f k' q hf hq).imp_right fun h => absurd h.1 (by simp), fun f hf => by simp [Fresh] at hf⟩⟩

/-! ## A page of 4 KB -/

theorem ownPaths_four {q : List Nat} (hlen : q.length = 4) (j : Nat) : ¬ (ownPaths shares).Ok K (q ++ [j]) := by
  intro h
  have hle : (q ++ [j]).length ≤ 4 := by
    cases K with
    | none => exact Nat.le_succ_of_le h.1
    | some k => exact h.1
  simp [hlen] at hle

theorem leafWrite_leaves (h : Estate device kernel roots shares place m) (ht : place t = some (some k, p))
    (hok : (ownPaths shares).Ok (some k) (p ++ [i])) (hlen : p.length = 3) {w : BitVec 64}
    (hw : present w = true → mmio w = false → large w = false)
    (hpage : ∀ c, next 3 w = some c → c ≠ 0 ∧ c < m.pmm.total ∧ m.pmm.used c = true ∧ ¬ device c ∧
      ∀ x, place c = some x → x = (some k, p ++ [i])) :
    ∃ place', Leaves device kernel roots shares 3 (some k) m place (leafWrite m t i w) place' := by
  have hn : 3 ≤ 2 ∨ some k ≠ none ∧ 3 ≤ 3 := .inr ⟨by simp, Nat.le_refl 3⟩
  have hlast : ∀ j, ¬ (ownPaths shares).Ok (some k) (p ++ [i] ++ [j]) := ownPaths_four (by simp [hlen])
  have hrest : ∀ w' t' j, (place t').isSome → t' ≠ t ∨ j ≠ i → Radix.write m.tables t i w' t' j = m.tables t' j :=
    fun w' t' j _ => Radix.write_other
  -- what the entry led to is a page of 4 KB, and nothing else is lost
  have hdeep : ∀ f k' q, place f = some (k', q) → q.length ≤ 3 →
      Radix.Placed.without place (next p.length (m.tables t i)) f = some (k', q) := by
    intro f k' q hf hq
    refine Radix.Placed.without_eq_some.mpr ⟨fun hgo => ?_, hf⟩
    rw [h.placed.child_of ht hok hgo] at hf
    obtain ⟨rfl, rfl⟩ := Prod.mk.inj (Option.some.inj hf)
    simp [hlen] at hq
  have hgrown : ∀ place' : Places,
      (∀ f k' q, q.length ≤ 3 → (place' f = some (k', q) ↔
        Radix.Placed.without place (next p.length (m.tables t i)) f = some (k', q))) →
      Grown 3 (some k) m (leafWrite m t i w) place place' := by
    intro place' hiff
    refine ⟨hn, rfl, fun _ hf => hf, fun f k' q hf hq => ?_, fun f k' q hf hq => ?_, fun f hf => ?_⟩
    · have hq : q.length ≤ 3 := hq.elim (fun hq => by omega) fun hq => hq.2
      exact (hiff f k' q hq).mpr (hdeep f k' q hf hq)
    · exact .inl (Radix.Placed.without_eq_some.mp ((hiff f (some k') q hq).mp hf)).2
    · simp [Fresh, leafWrite] at hf
  cases hc : next 3 w with
  | none =>
    have hplaced : Radix.Placed next _ roots (Radix.write m.tables t i w) _ :=
      h.placed.prune ht hok (by rw [Radix.write_same, hlen, hc]) hlast (hrest w)
    exact ⟨_, h.write ht (by omega) hplaced (fun f K' q hf => .inl (Radix.Placed.without_eq_some.mp hf).2)
      (fun _ => hw), hgrown _ fun _ _ _ _ => Iff.rfl⟩
  | some c =>
    obtain ⟨h0, hlt, hused, hmem, hfree⟩ := hpage c hc
    -- the entry is emptied first
    have hempty : Radix.Placed next _ roots (Radix.write m.tables t i 0) _ :=
      h.placed.prune ht hok (by rw [Radix.write_same, next_absent present_zero]) hlast (hrest 0)
    have ht' := hdeep t (some k) p ht (by omega)
    have hgone : Radix.Placed.without place (next p.length (m.tables t i)) c = none := by
      cases hp : place c with
      | none => simp [Radix.Placed.without, hp]
      | some x =>
        obtain rfl := hfree x hp
        obtain ⟨-, t', ht'', hnext⟩ := (h.placed.child _ _ _ _).mp hp
        rw [h.placed.same ht'' ht] at hnext
        exact if_pos hnext
    have hplaced : Radix.Placed next _ roots (Radix.write m.tables t i w) _ :=
      hempty.grow ht' hok (by rw [Radix.write_same, next_absent present_zero]) (by rw [Radix.write_same, hlen, hc])
        hgone (fun j hj => absurd hj (hlast j)) fun t' j _ hw => by rw [Radix.write_other hw, Radix.write_other hw]
    refine ⟨_, h.write ht (by omega) hplaced (fun f K' q hf => ?_) (fun _ => hw), hgrown _ fun f k' q hq => ?_⟩
    · rcases eq_or_ne f c with rfl | hfc
      · rw [Function.update_self] at hf
        obtain ⟨-, rfl⟩ := Prod.mk.inj (Option.some.inj hf)
        exact .inr ⟨by simp [hlen], h0, hlt, hused, hmem⟩
      · rw [Function.update_of_ne hfc] at hf
        exact .inl (Radix.Placed.without_eq_some.mp hf).2
    · rcases eq_or_ne f c with rfl | hfc
      · rw [Function.update_self, hgone]
        simp only [Option.some.injEq, Prod.mk.injEq, reduceCtorEq, iff_false]
        rintro ⟨-, rfl⟩
        simp [hlen] at hq
      · rw [Function.update_of_ne hfc]

theorem mapUser_leaves (h : Estate device kernel roots shares place m) (hr : roots (some k) = some r)
    (virt phys flags : BitVec 64) (hslot : shares k (idxL4 virt) = false)
    (hflags : present flags = true → mmio flags = false → large flags = false ∧
      pfn (entry phys flags) ≠ 0 ∧ pfn (entry phys flags) < m.pmm.total ∧ m.pmm.used (pfn (entry phys flags)) = true ∧
      ¬ device (pfn (entry phys flags)) ∧
      ∀ x, place (pfn (entry phys flags)) = some x → x = (some k, tablePath virt ++ [idxL1 virt])) :
    ∃ place', Leaves device kernel roots shares 3 (some k) m place (mapUser r virt phys flags m).1 place' := by
  have hn : 3 ≤ 2 ∨ some k ≠ none ∧ 3 ≤ 3 := .inr ⟨by simp, Nat.le_refl 3⟩
  have hok : (ownPaths shares).Ok (some k) (tablePath virt ++ [idxL1 virt]) := own_tablePath hslot
  unfold mapUser
  split
  · exact ⟨place, h.leaves hn⟩
  have hokt : (ownPaths shares).Ok (some k) ([] ++ tablePath virt) := (ownPaths shares).init _ _ _ hok
  obtain ⟨place₁, hleft, hadd, hend⟩ := ensureTables_leaves h (h.root hr) hokt (by simp [tablePath])
  rw [tablePath] at hleft hend
  rcases heq : ensureTables r [idxL4 virt, idxL3 virt, idxL2 virt] m with ⟨m₁, _ | l1⟩
  · rw [heq] at hleft
    exact ⟨place₁, hleft⟩
  rw [heq] at hleft hend
  have hl1 := hend.resolve_left (by simp)
  obtain ⟨place₂, hleft₂⟩ := leafWrite_leaves (w := entry phys flags) hleft.1 hl1 hok (by simp)
    (fun hp hm => by
      rw [present_entry] at hp
      rw [mmio_entry] at hm
      rw [large_entry]
      exact (hflags hp hm).1)
    (fun c hc => by
      obtain ⟨hp, -, hm, rfl⟩ := next_eq_some.mp hc
      rw [present_entry] at hp
      rw [mmio_entry] at hm
      obtain ⟨-, h0, hlt, hused, hmem, hfree⟩ := hflags hp (hm rfl)
      refine ⟨h0, ?_, hleft.2.mono _ hused, hmem, fun x hx => ?_⟩
      · rwa [hleft.2.total]
      · rcases hadd _ x hx with hx | hno
        · exact hfree x hx
        · rw [hused] at hno
          cases hno)
  exact ⟨place₂, hleft.trans hleft₂⟩

end

end Siathos.Paging.Identity
