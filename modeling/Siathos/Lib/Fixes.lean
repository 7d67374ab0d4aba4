import Mathlib.Logic.Nontrivial.Basic

/-!
# What a change of memory leaves to chance

A change writes some places, and leaves at the others what was there before.
-/

namespace Lib

variable {ι β : Type} {f g : (ι → β) → ι → β} {S S' : ι → Prop}

/-- At the places in `S` there is the same whatever the memory held, and the others stay as they were. -/
structure Fixes (f : (ι → β) → ι → β) (S : ι → Prop) : Prop where
  same : ∀ i, S i → ∀ m m', f m i = f m' i
  kept : ∀ i, ¬S i → ∀ m, f m i = m i

namespace Fixes

theorem id : Fixes (fun m : ι → β => m) fun _ => False := ⟨fun _ h => h.elim, fun _ _ _ => rfl⟩

theorem of_iff (h : Fixes f S) (hS : ∀ i, S' i ↔ S i) : Fixes f S' :=
  ⟨fun i hi => h.same i ((hS i).mp hi), fun i hi => h.kept i fun hs => hi ((hS i).mpr hs)⟩

theorem comp (hf : Fixes f S) (hg : Fixes g S') : Fixes (fun m => g (f m)) fun i => S i ∨ S' i := by
  constructor
  · intro i hi m m'
    by_cases hi' : S' i
    · exact hg.same i hi' _ _
    · rw [hg.kept i hi', hg.kept i hi']
      exact hf.same i (hi.resolve_right hi') m m'
  · intro i hi m
    obtain ⟨hS, hS'⟩ := not_or.mp hi
    rw [hg.kept i hS', hf.kept i hS]

/-- Memory that is known at the places in `P` is known afterwards at these and at the written ones, and nowhere else. -/
theorem known_iff [Nontrivial β] (h : Fixes f S) (P : ι → Prop) (m : ι → β) (i : ι) :
    (∀ m', (∀ j, P j → m' j = m j) → f m' i = f m i) ↔ P i ∨ S i := by
  constructor
  · intro hsame
    by_contra hno
    obtain ⟨hP, hS⟩ := not_or.mp hno
    obtain ⟨c, hc⟩ := exists_ne (m i)
    classical
    have hne : ∀ j, P j → j ≠ i := fun j hj heq => hP (heq ▸ hj)
    have hother := hsame (Function.update m i c) fun j hj => Function.update_of_ne (hne j hj) c m
    rw [h.kept i hS, h.kept i hS, Function.update_self] at hother
    exact hc hother
  · rintro hi m' hm'
    by_cases hS : S i
    · exact h.same i hS m' m
    · rw [h.kept i hS, h.kept i hS]
      exact hm' i (hi.resolve_right hS)

/-- What memory may hold afterwards, if before it was known at the places in `P`. -/
theorem agree_iff (h : Fixes f S) (P : ι → Prop) (m m₂ : ι → β) :
    (∃ m', (∀ i, P i → m' i = m i) ∧ f m' = m₂) ↔ ∀ i, P i ∨ S i → m₂ i = f m i := by
  constructor
  · rintro ⟨m', hm', rfl⟩ i hi
    by_cases hS : S i
    · exact h.same i hS m' m
    · rw [h.kept i hS, h.kept i hS]
      exact hm' i (hi.resolve_right hS)
  · intro hm₂
    classical
    refine ⟨fun i => if S i then m i else m₂ i, fun i hP => ?_, funext fun i => ?_⟩
    · by_cases hS : S i
      · exact if_pos hS
      · exact (if_neg hS).trans ((hm₂ i (.inl hP)).trans (h.kept i hS m))
    · by_cases hS : S i
      · rw [hm₂ i (.inr hS)]
        exact h.same i hS _ m
      · exact (h.kept i hS _).trans (if_neg hS)

end Fixes

end Lib
