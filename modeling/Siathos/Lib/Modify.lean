import Mathlib.Data.List.Basic

/-!
# Changing one element of a list
-/

namespace Lib

variable {α β : Type} {f : α → α}

theorem map_modify {g : α → β} {f' : β → β} (h : ∀ a, g (f a) = f' (g a)) (l : List α) (i : Nat) :
    (l.modify i f).map g = (l.map g).modify i f' := by
  induction l generalizing i with
  | nil => simp
  | cons a rest ih =>
    cases i with
    | zero => simp [h]
    | succ i => simp [ih]

theorem map_modify_same {g : α → β} (h : ∀ a, g (f a) = g a) (l : List α) (i : Nat) :
    (l.modify i f).map g = l.map g := by
  induction l generalizing i with
  | nil => simp
  | cons a rest ih =>
    cases i with
    | zero => simp [h]
    | succ i => simp [ih]

theorem findIdx?_modify {p : α → Bool} (hp : ∀ a, p (f a) = p a) (l : List α) (i : Nat) :
    (l.modify i f).findIdx? p = l.findIdx? p := by
  induction l generalizing i with
  | nil => simp
  | cons a rest ih =>
    cases i with
    | zero => simp [List.findIdx?_cons, hp]
    | succ i => simp [List.findIdx?_cons, ih]

theorem find?_modify_same {p : α → Bool} (hp : ∀ a, p (f a) = p a) {l : List α} {i : Nat}
    (h : l.findIdx? p = some i) : (l.modify i f).find? p = (l.find? p).map f := by
  induction l generalizing i with
  | nil => simp at h
  | cons a rest ih =>
    rw [List.findIdx?_cons] at h
    by_cases ha : p a = true
    · simp only [ha, if_true, Option.some.injEq] at h
      subst h
      simp [hp, ha]
    · simp only [ha, Bool.false_eq_true, if_false, Option.map_eq_some_iff] at h
      obtain ⟨j, hj, rfl⟩ := h
      simp [ha, ih hj]

theorem find?_modify_other {q : α → Bool} (hq : ∀ a, q (f a) = q a) {l : List α} {i : Nat}
    (h : ∀ a, l[i]? = some a → q a = false) : (l.modify i f).find? q = l.find? q := by
  induction l generalizing i with
  | nil => simp
  | cons a rest ih =>
    cases i with
    | zero =>
      have ha := h a rfl
      simp [hq, ha]
    | succ i => simp [List.find?_cons, ih fun b hb => h b (by simpa using hb)]

theorem mem_modify {l : List α} {i : Nat} {a : α} (h : a ∈ l.modify i f) :
    (∃ b, l[i]? = some b ∧ a = f b) ∨ ∃ j, j ≠ i ∧ l[j]? = some a := by
  obtain ⟨j, hj⟩ := List.mem_iff_getElem?.mp h
  rw [List.getElem?_modify] at hj
  obtain ⟨b, hb, hab⟩ := Option.map_eq_some_iff.mp hj
  split at hab
  · next heq => exact .inl ⟨b, heq ▸ hb, hab.symm⟩
  · next hne => exact .inr ⟨j, Ne.symm hne, hab ▸ hb⟩

theorem pairwise_modify {R : α → α → Prop} (hf : ∀ a b, R a b → R (f a) b ∧ R a (f b)) {l : List α}
    (h : l.Pairwise R) (i : Nat) : (l.modify i f).Pairwise R := by
  induction l generalizing i with
  | nil => simp
  | cons a rest ih =>
    obtain ⟨ha, hrest⟩ := List.pairwise_cons.mp h
    cases i with
    | zero =>
      rw [List.modify_zero_cons]
      exact List.pairwise_cons.mpr ⟨fun b hb => (hf a b (ha b hb)).1, hrest⟩
    | succ i =>
      rw [List.modify_succ_cons]
      refine List.pairwise_cons.mpr ⟨fun b hb => ?_, ih hrest i⟩
      rcases mem_modify hb with ⟨c, hc, rfl⟩ | ⟨j, -, hj⟩
      · exact (hf a c (ha c (List.mem_of_getElem? hc))).2
      · exact ha b (List.mem_of_getElem? hj)

end Lib
