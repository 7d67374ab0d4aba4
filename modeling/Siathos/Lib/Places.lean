import Siathos.Lib.Radix
import Mathlib.Logic.Function.Basic

/-!
# Tables that know their place

Trees of tables where each tree has its own paths. A table in use has one place, which is a tree and a path of
it. `Placed` compares places entry by entry, so that a write to one entry changes one place.
-/

namespace Lib.Radix

variable {τ ω κ : Type} (next : Nat → ω → Option τ)

/-- The paths that are a tree's own. With a path, its beginnings are. -/
structure Own (κ : Type) where
  Ok : κ → List Nat → Prop
  nil : ∀ k, Ok k []
  init : ∀ k p i, Ok k (p ++ [i]) → Ok k p

/-- The table `t` is at `place t`. -/
structure Placed (O : Own κ) (root : κ → Option τ) (m : τ → Nat → ω) (place : τ → Option (κ × List Nat)) : Prop where
  root : ∀ k t, place t = some (k, []) ↔ root k = some t
  child : ∀ k p i c, place c = some (k, p ++ [i]) ↔
    O.Ok k (p ++ [i]) ∧ ∃ t, place t = some (k, p) ∧ next p.length (m t i) = some c

namespace Placed

variable {next} {O : Own κ} {root : κ → Option τ} {m m' : τ → Nat → ω} {place : τ → Option (κ × List Nat)}
variable {k : κ} {p : List Nat} {i : Nat} {t c : τ}

theorem ok (h : Placed next O root m place) (hc : place c = some (k, p)) : O.Ok k p := by
  induction p using List.reverseRecOn with
  | nil => exact O.nil k
  | append_singleton p i _ => exact ((h.child k p i c).mp hc).1

theorem iff_seat (h : Placed next O root m place) :
    place c = some (k, p) ↔ O.Ok k p ∧ seat next root m k p = some c := by
  induction p using List.reverseRecOn generalizing c with
  | nil =>
    rw [h.root]
    simp [O.nil k, seat, follow]
  | append_singleton p i ih =>
    rw [h.child, seat_snoc, Option.bind_eq_some_iff]
    refine and_congr_right fun hok => exists_congr fun t => ?_
    rw [ih]
    simp [O.init k p i hok]

theorem child_of (h : Placed next O root m place) (ht : place t = some (k, p)) (hok : O.Ok k (p ++ [i]))
    (hn : next p.length (m t i) = some c) : place c = some (k, p ++ [i]) :=
  (h.child k p i c).mpr ⟨hok, t, ht, hn⟩

theorem elsewhere {k' : κ} {q : List Nat} {t' : τ} {j : Nat} (ht : place t = some (k, p))
    (ht' : place t' = some (k', q)) (hne : k' = k → q = p → j ≠ i) : t' ≠ t ∨ j ≠ i := by
  by_contra hno
  obtain ⟨rfl, rfl⟩ : t' = t ∧ j = i := by simpa [not_or] using hno
  rw [ht] at ht'
  obtain ⟨rfl, rfl⟩ := Prod.mk.inj (Option.some.inj ht')
  exact hne rfl rfl rfl

theorem same (h : Placed next O root m place) {t' : τ} (ht : place t = some (k, p)) (ht' : place t' = some (k, p)) :
    t = t' := by
  have hs := (h.iff_seat.mp ht).2
  rw [(h.iff_seat.mp ht').2] at hs
  exact (Option.some.inj hs).symm

theorem congr (h : Placed next O root m place)
    (heq : ∀ t k p i, place t = some (k, p) → O.Ok k (p ++ [i]) → next p.length (m' t i) = next p.length (m t i)) :
    Placed next O root m' place := by
  refine ⟨h.root, fun k p i c => ?_⟩
  rw [h.child]
  refine and_congr_right fun hok => exists_congr fun t => and_congr_right fun ht => ?_
  rw [heq t k p i ht hok]

variable [DecidableEq τ]

/-- An entry that led nowhere leads to `c`, which leads nowhere yet. -/
theorem grow (h : Placed next O root m place) (ht : place t = some (k, p)) (hok : O.Ok k (p ++ [i]))
    (hold : next p.length (m t i) = none) (hnew : next p.length (m' t i) = some c) (hc : place c = none)
    (hleaf : ∀ j, O.Ok k (p ++ [i] ++ [j]) → next (p ++ [i]).length (m' c j) = none)
    (hrest : ∀ t' j, (place t').isSome → t' ≠ t ∨ j ≠ i → m' t' j = m t' j) :
    Placed next O root m' (Function.update place c (some (k, p ++ [i]))) := by
  have hne : t ≠ c := by
    rintro rfl
    rw [hc] at ht
    cases ht
  refine ⟨fun k' t' => ?_, fun k' q j c' => ?_⟩
  · rcases eq_or_ne t' c with rfl | hne'
    · rw [Function.update_self, ← h.root, hc]
      simp
    · rw [Function.update_of_ne hne', h.root]
  -- a place of the old tables
  have holds : ∀ c', place c' = some (k', q ++ [j]) ↔
      O.Ok k' (q ++ [j]) ∧ ∃ t', place t' = some (k', q) ∧ next q.length (m t' j) = some c' := h.child k' q j
  rcases eq_or_ne c' c with rfl | hc'
  · rw [Function.update_self]
    constructor
    · intro hp
      obtain ⟨rfl, hpath⟩ := Prod.mk.inj (Option.some.inj hp)
      obtain ⟨rfl, rfl⟩ : p = q ∧ i = j := by simpa using List.append_inj' hpath rfl
      exact ⟨hok, t, by rwa [Function.update_of_ne hne], hnew⟩
    · rintro ⟨hok', t', ht', hn⟩
      rcases eq_or_ne t' c' with rfl | hne'
      · rw [Function.update_self] at ht'
        obtain ⟨rfl, rfl⟩ := Prod.mk.inj (Option.some.inj ht')
        rw [hleaf j hok'] at hn
        cases hn
      · rw [Function.update_of_ne hne'] at ht'
        by_cases hw : t' ≠ t ∨ j ≠ i
        · rw [hrest t' j (by simp [ht']) hw] at hn
          have := (holds c').mpr ⟨hok', t', ht', hn⟩
          rw [hc] at this
          cases this
        · obtain ⟨rfl, rfl⟩ : t' = t ∧ j = i := by simpa [not_or] using hw
          rw [ht] at ht'
          obtain ⟨rfl, rfl⟩ := Prod.mk.inj (Option.some.inj ht')
          rfl
  · rw [Function.update_of_ne hc', holds]
    refine and_congr_right fun hok' => ⟨?_, ?_⟩
    · rintro ⟨t', ht', hn⟩
      have hne' : t' ≠ c := by
        rintro rfl
        rw [hc] at ht'
        cases ht'
      refine ⟨t', by rwa [Function.update_of_ne hne'], ?_⟩
      rw [hrest t' j (by simp [ht']) (elsewhere ht ht' ?_)]
      · exact hn
      · rintro rfl rfl rfl
        rw [← h.same ht ht', hold] at hn
        cases hn
    · rintro ⟨t', ht', hn⟩
      rcases eq_or_ne t' c with rfl | hne'
      · rw [Function.update_self] at ht'
        obtain ⟨rfl, rfl⟩ := Prod.mk.inj (Option.some.inj ht')
        rw [hleaf j hok'] at hn
        cases hn
      · rw [Function.update_of_ne hne'] at ht'
        refine ⟨t', ht', ?_⟩
        rw [← hrest t' j (by simp [ht']) (elsewhere ht ht' ?_)]
        · exact hn
        · rintro rfl rfl rfl
          rw [← h.same ht ht', hnew] at hn
          exact hc' (Option.some.inj hn).symm

/-- The places without what the entry `w` of a last table led to. -/
def without (place : τ → Option (κ × List Nat)) (o : Option τ) (f : τ) : Option (κ × List Nat) :=
  if o = some f then none else place f

theorem without_eq_some {o : Option τ} {f : τ} {x : κ × List Nat} :
    without place o f = some x ↔ o ≠ some f ∧ place f = some x := by
  unfold without
  split <;> simp_all

theorem prune (h : Placed next O root m place) (ht : place t = some (k, p)) (hok : O.Ok k (p ++ [i]))
    (hnew : next p.length (m' t i) = none) (hlast : ∀ j, ¬ O.Ok k (p ++ [i] ++ [j]))
    (hrest : ∀ t' j, (place t').isSome → t' ≠ t ∨ j ≠ i → m' t' j = m t' j) :
    Placed next O root m' (without place (next p.length (m t i))) := by
  -- what the entry led to is at the path of the entry
  have hgone : ∀ {f x}, next p.length (m t i) = some f → place f = some x → x = (k, p ++ [i]) := by
    intro f x hf hx
    rw [h.child_of ht hok hf] at hx
    exact (Option.some.inj hx).symm
  refine ⟨fun k' t' => ?_, fun k' q j c' => ?_⟩
  · rw [without_eq_some, h.root]
    refine and_iff_right_of_imp fun hr hgo => ?_
    have := hgone hgo ((h.root k' t').mpr hr)
    simp at this
  · rw [without_eq_some, h.child]
    constructor
    · rintro ⟨hne, hok', t', ht', hn⟩
      refine ⟨hok', t', without_eq_some.mpr ⟨fun hgo => ?_, ht'⟩, ?_⟩
      · obtain ⟨rfl, rfl⟩ := Prod.mk.inj (hgone hgo ht')
        exact hlast j hok'
      · rw [hrest t' j (by simp [ht']) (elsewhere ht ht' ?_)]
        · exact hn
        · rintro rfl rfl rfl
          rw [← h.same ht ht'] at hn
          exact hne hn
    · rintro ⟨hok', t', ht', hn⟩
      obtain ⟨-, ht''⟩ := without_eq_some.mp ht'
      have hpath : k' = k → q = p → j ≠ i := by
        rintro rfl rfl rfl
        rw [← h.same ht ht'', hnew] at hn
        cases hn
      rw [hrest t' j (by simp [ht'']) (elsewhere ht ht'' hpath)] at hn
      refine ⟨fun hgo => ?_, hok', t', ht'', hn⟩
      obtain ⟨rfl, heq⟩ := Prod.mk.inj (hgone hgo (h.child_of ht'' hok' hn))
      obtain ⟨rfl, rfl⟩ : q = p ∧ j = i := by simpa using List.append_inj' heq rfl
      exact hpath rfl rfl rfl

variable [DecidableEq κ]

theorem plant {O' : Own κ} (h : Placed next O root m place) (hk : root k = none) (hc : place c = none)
    (hO : ∀ k', k' ≠ k → O'.Ok k' = O.Ok k') (hleaf : ∀ j, O'.Ok k [j] → next 0 (m' c j) = none)
    (hrest : ∀ t j, (place t).isSome → m' t j = m t j) :
    Placed next O' (Function.update root k (some c)) m' (Function.update place c (some (k, []))) := by
  have hnone : ∀ t p, place t ≠ some (k, p) := by
    intro t p ht
    have hs := (h.iff_seat.mp ht).2
    rw [seat, hk] at hs
    cases hs
  refine ⟨fun k' t => ?_, fun k' q j c' => ?_⟩
  · rcases eq_or_ne k' k with rfl | hne
    · rw [Function.update_self]
      rcases eq_or_ne t c with rfl | htc
      · simp
      · rw [Function.update_of_ne htc]
        simp [hnone t, htc.symm]
    · rw [Function.update_of_ne hne]
      rcases eq_or_ne t c with rfl | htc
      · rw [Function.update_self, ← h.root, hc]
        simp [hne.symm]
      · rw [Function.update_of_ne htc, h.root]
  · rcases eq_or_ne k' k with rfl | hne
    · -- the new tree has no path that is longer
      constructor
      · intro hp
        rcases eq_or_ne c' c with rfl | hcc
        · simp at hp
        · rw [Function.update_of_ne hcc] at hp
          exact absurd hp (hnone c' _)
      · rintro ⟨hok, t, ht, hn⟩
        rcases eq_or_ne t c with rfl | htc
        · rw [Function.update_self] at ht
          obtain ⟨-, rfl⟩ := Prod.mk.inj (Option.some.inj ht)
          rw [List.length_nil, hleaf j hok] at hn
          cases hn
        · rw [Function.update_of_ne htc] at ht
          exact absurd ht (hnone t q)
    · have hplace : ∀ f x, Function.update place c (some (k, [])) f = some (k', x) ↔ place f = some (k', x) := by
        intro f x
        rcases eq_or_ne f c with rfl | hfc
        · rw [Function.update_self, hc]
          simp [hne.symm]
        · rw [Function.update_of_ne hfc]
      rw [hplace, h.child, hO k' hne]
      refine and_congr_right fun _ => exists_congr fun t => ?_
      rw [hplace]
      refine and_congr_right fun ht => ?_
      rw [hrest t j (by simp [ht])]

/-- The places that are not in the tree `k`. -/
def felled (place : τ → Option (κ × List Nat)) (k : κ) (f : τ) : Option (κ × List Nat) :=
  (place f).filter fun x => x.1 ≠ k

omit [DecidableEq τ] in
theorem felled_eq_some {f : τ} {x : κ × List Nat} : felled place k f = some x ↔ place f = some x ∧ x.1 ≠ k := by
  simp [felled, Option.filter_eq_some_iff]

omit [DecidableEq τ] in
theorem fell (h : Placed next O root m place) (k : κ) :
    Placed next O (Function.update root k none) m (felled place k) := by
  refine ⟨fun k' t => ?_, fun k' q j c' => ?_⟩
  · rw [felled_eq_some, h.root]
    rcases eq_or_ne k' k with rfl | hne
    · simp
    · simp [hne]
  · simp only [felled_eq_some, h.child]
    constructor
    · rintro ⟨⟨hok, t, ht, hn⟩, hne⟩
      exact ⟨hok, t, ⟨ht, hne⟩, hn⟩
    · rintro ⟨hok, t, ⟨ht, hne⟩, hn⟩
      exact ⟨⟨hok, t, ht, hn⟩, hne⟩

end Placed

end Lib.Radix
