import Mathlib.Data.List.Induction
import Mathlib.Data.List.Nodup

/-!
# Radix trees in a memory of tables

Each table is a row of entries. An entry at the depth `d` of a tree leads on to `next d` of it, if to
anything. Several trees lie in one memory, one for each root. Where no two paths meet, a write to one
table changes one path, and freeing the tree frees each table once.
-/

namespace Lib.Radix

variable {τ ω κ : Type} (next : Nat → ω → Option τ)

/-- Where the path leads from a table at the depth `d`. -/
def follow (m : τ → Nat → ω) : Nat → τ → List Nat → Option τ
  | _, t, [] => some t
  | d, t, i :: p => (next d (m t i)).bind fun c => follow m (d + 1) c p

theorem follow_append (m : τ → Nat → ω) (d : Nat) (t : τ) (p q : List Nat) :
    follow next m d t (p ++ q) = (follow next m d t p).bind fun c => follow next m (d + p.length) c q := by
  induction p generalizing d t with
  | nil => rfl
  | cons i p ih =>
    simp only [List.cons_append, follow, Option.bind_assoc, List.length_cons]
    congr 1
    funext c
    rw [ih, Nat.add_right_comm, Nat.add_assoc]

variable (root : κ → Option τ)

/-- The table, or page, at the end of the path in the tree `k`. -/
def seat (m : τ → Nat → ω) (k : κ) (p : List Nat) : Option τ := (root k).bind fun t => follow next m 0 t p

theorem seat_append (m : τ → Nat → ω) (k : κ) (p q : List Nat) :
    seat next root m k (p ++ q) = (seat next root m k p).bind fun c => follow next m p.length c q := by
  unfold seat
  rw [Option.bind_assoc]
  congr 1
  funext t
  rw [follow_append, Nat.zero_add]

theorem seat_snoc (m : τ → Nat → ω) (k : κ) (p : List Nat) (i : Nat) :
    seat next root m k (p ++ [i]) = (seat next root m k p).bind fun c => next p.length (m c i) := by
  rw [seat_append]
  congr 1
  funext c
  simp [follow]

/-! ## Writing -/

/-- The paths that count. With a path, its beginnings count. -/
structure Paths where
  Ok : List Nat → Prop
  init : ∀ p i, Ok (p ++ [i]) → Ok p

/-- No two paths lead to one place. -/
def Unshared (P : Paths) (m : τ → Nat → ω) : Prop :=
  ∀ k p k' p' t, P.Ok p → P.Ok p' → seat next root m k p = some t → seat next root m k' p' = some t → k = k' ∧ p = p'

/-- No path leads to `c`. -/
def Unseated (P : Paths) (m : τ → Nat → ω) (c : τ) : Prop := ∀ k p, P.Ok p → seat next root m k p ≠ some c

theorem seat_congr {P : Paths} {m m' : τ → Nat → ω}
    (h : ∀ k p i t, P.Ok (p ++ [i]) → seat next root m k p = some t → m' t i = m t i) (k : κ) {p : List Nat}
    (hp : P.Ok p) : seat next root m' k p = seat next root m k p := by
  induction p using List.reverseRecOn with
  | nil => rfl
  | append_singleton p i ih =>
    rw [seat_snoc, seat_snoc, ih (P.init p i hp)]
    refine Option.bind_congr fun t ht => ?_
    rw [h k p i t hp ht]

theorem Unshared.congr {P : Paths} {m m' : τ → Nat → ω} (hun : Unshared next root P m)
    (h : ∀ k p, P.Ok p → seat next root m' k p = seat next root m k p) : Unshared next root P m' := by
  intro k p k' p' t hp hp' hs hs'
  rw [h k p hp] at hs
  rw [h k' p' hp'] at hs'
  exact hun k p k' p' t hp hp' hs hs'

theorem Unseated.congr {P : Paths} {m m' : τ → Nat → ω} {c : τ} (hun : Unseated next root P m c)
    (h : ∀ k p, P.Ok p → seat next root m' k p = seat next root m k p) : Unseated next root P m' c := by
  intro k p hp
  rw [h k p hp]
  exact hun k p hp

variable [DecidableEq τ]

def write (m : τ → Nat → ω) (t : τ) (i : Nat) (w : ω) : τ → Nat → ω :=
  fun t' j => if t' = t ∧ j = i then w else m t' j

theorem write_same (m : τ → Nat → ω) (t : τ) (i : Nat) (w : ω) : write m t i w t i = w := if_pos ⟨rfl, rfl⟩

theorem write_other {m : τ → Nat → ω} {t t' : τ} {i j : Nat} {w : ω} (h : t' ≠ t ∨ j ≠ i) :
    write m t i w t' j = m t' j := by
  refine if_neg ?_
  rintro ⟨rfl, rfl⟩
  simp at h

def zero (m : τ → Nat → ω) (t : τ) (w : ω) : τ → Nat → ω := fun t' j => if t' = t then w else m t' j

theorem seat_zero {P : Paths} {m : τ → Nat → ω} {c : τ} {w : ω} (h : Unseated next root P m c) (k : κ) {p : List Nat}
    (hp : P.Ok p) : seat next root (zero m c w) k p = seat next root m k p := by
  refine seat_congr next root (fun k q i t hq ht => if_neg ?_) k hp
  rintro rfl
  exact h k q (P.init q i hq) ht

variable [DecidableEq κ]

/-- A new child `c`, which leads nowhere yet, is the only change. -/
theorem seat_grow {P : Paths} {m : τ → Nat → ω} {k : κ} {p : List Nat} {i : Nat} {t c : τ} {w : ω}
    (hun : Unshared next root P m) (hp : P.Ok (p ++ [i])) (ht : seat next root m k p = some t)
    (hempty : next p.length (m t i) = none) (hw : next p.length w = some c) (hfresh : Unseated next root P m c)
    (hleaf : ∀ j, P.Ok (p ++ [i] ++ [j]) → next (p ++ [i]).length (m c j) = none) (k' : κ) {q : List Nat}
    (hq : P.Ok q) : seat next root (write m t i w) k' q =
      if k' = k ∧ q = p ++ [i] then some c else seat next root m k' q := by
  have hold : seat next root m k (p ++ [i]) = none := by rw [seat_snoc, ht, Option.bind_some, hempty]
  induction q using List.reverseRecOn with
  | nil =>
    rw [if_neg (by simp)]
    rfl
  | append_singleton q j ih =>
    have hq' := P.init q j hq
    rw [seat_snoc, ih hq']
    by_cases heq : k' = k ∧ q ++ [j] = p ++ [i]
    · obtain ⟨rfl, heq⟩ := heq
      obtain ⟨rfl, rfl⟩ : q = p ∧ j = i := by simpa using List.append_inj' heq rfl
      rw [if_neg (by simp), if_pos ⟨rfl, rfl⟩, ht, Option.bind_some, write_same, hw]
    · rw [if_neg heq]
      split
      · -- below the new child
        rename_i hc
        obtain ⟨rfl, rfl⟩ := hc
        have hne : c ≠ t := by
          rintro rfl
          exact hfresh k' p (P.init p i hp) ht
        rw [Option.bind_some, write_other (.inl hne), hleaf j hq, seat_snoc, hold, Option.bind_none]
      · rw [seat_snoc]
        refine Option.bind_congr fun c' hc' => ?_
        rw [write_other]
        by_contra hno
        obtain ⟨rfl, rfl⟩ : c' = t ∧ j = i := by simpa [not_or] using hno
        obtain ⟨rfl, rfl⟩ := hun k' q k p c' hq' (P.init p j hp) hc' ht
        exact heq ⟨rfl, rfl⟩

omit [DecidableEq τ] in
theorem Unshared.grow {P : Paths} {m m' : τ → Nat → ω} {k : κ} {p : List Nat} {c : τ}
    (hun : Unshared next root P m) (hfresh : Unseated next root P m c)
    (h : ∀ k' q, P.Ok q → seat next root m' k' q = if k' = k ∧ q = p then some c else seat next root m k' q) :
    Unshared next root P m' := by
  intro k₁ p₁ k₂ p₂ t h₁ h₂ hs₁ hs₂
  rw [h k₁ p₁ h₁] at hs₁
  rw [h k₂ p₂ h₂] at hs₂
  split at hs₁
  · rename_i he₁
    obtain rfl := Option.some.inj hs₁
    split at hs₂
    · rename_i he₂
      exact ⟨he₁.1.trans he₂.1.symm, he₁.2.trans he₂.2.symm⟩
    · exact absurd hs₂ (hfresh k₂ p₂ h₂)
  · split at hs₂
    · obtain rfl := Option.some.inj hs₂
      exact absurd hs₁ (hfresh k₁ p₁ h₁)
    · exact hun k₁ p₁ k₂ p₂ t h₁ h₂ hs₁ hs₂

theorem seat_prune {P : Paths} {m : τ → Nat → ω} {k : κ} {p : List Nat} {i : Nat} {t : τ} {w : ω}
    (hun : Unshared next root P m) (hp : P.Ok (p ++ [i])) (ht : seat next root m k p = some t)
    (hw : next p.length w = none) (hleaf : ∀ j, ¬ P.Ok (p ++ [i] ++ [j])) (k' : κ) {q : List Nat} (hq : P.Ok q) :
    seat next root (write m t i w) k' q = if k' = k ∧ q = p ++ [i] then none else seat next root m k' q := by
  induction q using List.reverseRecOn with
  | nil =>
    rw [if_neg (by simp)]
    rfl
  | append_singleton q j ih =>
    have hq' := P.init q j hq
    rw [seat_snoc, ih hq']
    by_cases heq : k' = k ∧ q ++ [j] = p ++ [i]
    · obtain ⟨rfl, heq⟩ := heq
      obtain ⟨rfl, rfl⟩ : q = p ∧ j = i := by simpa using List.append_inj' heq rfl
      rw [if_neg (by simp), if_pos ⟨rfl, rfl⟩, ht, Option.bind_some, write_same, hw]
    · rw [if_neg heq]
      split
      · rename_i hc
        obtain ⟨rfl, rfl⟩ := hc
        exact absurd hq (hleaf j)
      · rw [seat_snoc]
        refine Option.bind_congr fun c' hc' => ?_
        rw [write_other]
        by_contra hno
        obtain ⟨rfl, rfl⟩ : c' = t ∧ j = i := by simpa [not_or] using hno
        obtain ⟨rfl, rfl⟩ := hun k' q k p c' hq' (P.init p j hp) hc' ht
        exact heq ⟨rfl, rfl⟩

/-! ## Everything below a table -/

omit [DecidableEq τ] [DecidableEq κ]

/-- The tables and pages below a table at the depth `d` with `n` levels under it, each after what is below. -/
def places (width : Nat) (m : τ → Nat → ω) : Nat → Nat → τ → List τ
  | _, 0, t => [t]
  | d, n + 1, t =>
    ((List.range width).flatMap fun i => ((next d (m t i)).map (places width m (d + 1) n)).getD []) ++ [t]

variable {width : Nat}

theorem mem_places {m : τ → Nat → ω} {d n : Nat} {t f : τ} :
    f ∈ places next width m d n t ↔
      ∃ q, q.length ≤ n ∧ (∀ i ∈ q, i < width) ∧ follow next m d t q = some f := by
  induction n generalizing d t with
  | zero =>
    rw [places, List.mem_singleton]
    constructor
    · rintro rfl
      exact ⟨[], Nat.le_refl 0, by simp, rfl⟩
    · rintro ⟨q, hq, -, hf⟩
      obtain rfl := List.length_eq_zero_iff.mp (Nat.le_zero.mp hq)
      exact (Option.some.inj hf).symm
  | succ n ih =>
    rw [places, List.mem_append, List.mem_flatMap, List.mem_singleton]
    constructor
    · rintro (⟨i, hi, hf⟩ | rfl)
      · cases hc : next d (m t i) with
        | none =>
          rw [hc] at hf
          simp at hf
        | some c =>
          rw [hc] at hf
          obtain ⟨q, hq, hw, hf⟩ := ih.mp hf
          refine ⟨i :: q, Nat.succ_le_succ hq, ?_, ?_⟩
          · simpa using ⟨List.mem_range.mp hi, hw⟩
          · rw [follow, hc]
            exact hf
      · exact ⟨[], Nat.zero_le _, by simp, rfl⟩
    · rintro ⟨q, hq, hw, hf⟩
      cases q with
      | nil => exact .inr (Option.some.inj hf).symm
      | cons i q =>
        obtain ⟨c, hc, hf⟩ := Option.bind_eq_some_iff.mp hf
        refine .inl ⟨i, List.mem_range.mpr (hw i List.mem_cons_self), ?_⟩
        rw [hc]
        exact ih.mpr ⟨q, Nat.le_of_succ_le_succ hq, fun j hj => hw j (List.mem_cons_of_mem _ hj), hf⟩

theorem nodup_places {m : τ → Nat → ω} {d n : Nat} {t : τ}
    (h : ∀ q q' f, q.length ≤ n → q'.length ≤ n → (∀ i ∈ q, i < width) → (∀ i ∈ q', i < width) →
      follow next m d t q = some f → follow next m d t q' = some f → q = q') :
    (places next width m d n t).Nodup := by
  induction n generalizing d t with
  | zero => simp [places]
  | succ n ih =>
    -- what is below the entry `i` is reached by a path that starts with `i`
    have hbelow : ∀ i < width, ∀ f, f ∈ ((next d (m t i)).map (places next width m (d + 1) n)).getD [] →
        ∃ q, q.length ≤ n ∧ (∀ j ∈ i :: q, j < width) ∧ follow next m d t (i :: q) = some f := by
      intro i hi f hf
      cases hc : next d (m t i) with
      | none =>
        rw [hc] at hf
        simp at hf
      | some c =>
        rw [hc] at hf
        obtain ⟨q, hq, hw, hf⟩ := (mem_places next).mp hf
        refine ⟨q, hq, by simpa using ⟨hi, hw⟩, ?_⟩
        rw [follow, hc]
        exact hf
    rw [places, List.nodup_append]
    refine ⟨List.nodup_flatMap.mpr ⟨fun i hi => ?_, ?_⟩, List.nodup_singleton t, ?_⟩
    · cases hc : next d (m t i) with
      | none => simp
      | some c =>
        refine ih fun q q' f hq hq' hw hw' hf hf' => ?_
        have hi := List.mem_range.mp hi
        have heq := h (i :: q) (i :: q') f (Nat.succ_le_succ hq) (Nat.succ_le_succ hq') (by simpa using ⟨hi, hw⟩)
          (by simpa using ⟨hi, hw'⟩) (by rw [follow, hc]; exact hf) (by rw [follow, hc]; exact hf')
        exact (List.cons.inj heq).2
    · refine List.Pairwise.imp_of_mem ?_ List.nodup_range
      intro i j hi hj hne f hf hf'
      obtain ⟨q, hq, hw, hf⟩ := hbelow i (List.mem_range.mp hi) f hf
      obtain ⟨q', hq', hw', hf'⟩ := hbelow j (List.mem_range.mp hj) f hf'
      exact hne (List.cons.inj (h _ _ f (Nat.succ_le_succ hq) (Nat.succ_le_succ hq') hw hw' hf hf')).1
    · intro f hf g hg
      obtain ⟨i, hi, hf⟩ := List.mem_flatMap.mp hf
      obtain ⟨q, hq, hw, hf⟩ := hbelow i (List.mem_range.mp hi) f hf
      rintro rfl
      rw [List.mem_singleton] at hg
      subst hg
      have := h (i :: q) [] f (Nat.succ_le_succ hq) (Nat.zero_le _) hw (by simp) hf rfl
      cases this

end Lib.Radix
