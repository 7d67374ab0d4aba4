import Mathlib.Data.List.TakeWhile

/-!
# Words

The words of a list are what stands between its separators, without the empty ones. Everything about them
follows from how they split at a separator.
-/

namespace Lib

variable {α : Type*} [DecidableEq α]

/-- The longest pieces without the separator. -/
def words (sep : α) (s : List α) : List (List α) := (s.splitOn sep).filter (· ≠ [])

variable {sep : α}

@[simp] theorem words_nil : words sep [] = [] := by
  simp [words]

theorem words_append_sep (x y : List α) : words sep (x ++ sep :: y) = words sep x ++ words sep y := by
  rw [words, List.splitOn_append_cons_self, List.filter_append]
  rfl

@[simp] theorem words_cons_sep (s : List α) : words sep (sep :: s) = words sep s := by
  simpa using words_append_sep [] s

theorem words_word {w : List α} (hne : w ≠ []) (h : sep ∉ w) : words sep w = [w] := by
  rw [words, List.splitOn_eq_singleton h]
  simp [hne]

theorem words_word_append {w rest : List α} (hne : w ≠ []) (h : sep ∉ w) (hrest : rest.head?.all (· == sep) = true) :
    words sep (w ++ rest) = w :: words sep rest := by
  cases rest with
  | nil => rw [List.append_nil, words_word hne h, words_nil]
  | cons c rest =>
    obtain rfl : c = sep := by simpa using hrest
    rw [words_append_sep, words_word hne h, words_cons_sep]
    rfl

theorem words_dropWhile_append (s t : List α) : words sep (s.dropWhile (· == sep) ++ t) = words sep (s ++ t) := by
  induction s with
  | nil => rfl
  | cons c s ih =>
    by_cases hc : c = sep
    · rw [List.dropWhile_cons_of_pos (by simpa using hc), ih, hc, List.cons_append, words_cons_sep]
    · rw [List.dropWhile_cons_of_neg (by simpa using hc)]

theorem words_dropWhile (s : List α) : words sep (s.dropWhile (· == sep)) = words sep s := by
  simpa using words_dropWhile_append s []

omit [DecidableEq α] in
theorem drop_length_takeWhile (p : α → Bool) (s : List α) : s.drop (s.takeWhile p).length = s.dropWhile p := by
  induction s with
  | nil => rfl
  | cons c s ih => by_cases hc : p c = true <;> simp [hc, ih]

theorem sep_not_mem_takeWhile (s : List α) : sep ∉ s.takeWhile (· != sep) := by
  intro h
  simpa using List.mem_takeWhile_imp h

theorem head_dropWhile (s : List α) : (s.dropWhile (· != sep)).head?.all (· == sep) = true := by
  cases hrest : s.dropWhile (· != sep) with
  | nil => rfl
  | cons c rest =>
    have hc := List.head_dropWhile_not (p := (· != sep)) (l := s) (by simp [hrest])
    simpa [hrest] using hc

theorem words_cons {c : α} {s : List α} (hc : c ≠ sep) : words sep (c :: s) =
    (c :: s).takeWhile (· != sep) :: words sep ((c :: s).dropWhile (· != sep)) := by
  have hne : (c :: s).takeWhile (· != sep) ≠ [] := by
    simp [hc]
  have happend := words_word_append hne (sep_not_mem_takeWhile (c :: s)) (head_dropWhile (c :: s))
  rwa [List.takeWhile_append_dropWhile] at happend

theorem words_eq_nil_iff {s : List α} : words sep s = [] ↔ ∀ c ∈ s, c = sep := by
  induction s with
  | nil => simp
  | cons c s ih =>
    by_cases hc : c = sep
    · simp [hc, ih]
    · simp [words_cons hc, hc]

theorem bne_of_not_mem {w : List α} (h : sep ∉ w) : ∀ c ∈ w, (c != sep) = true :=
  fun _ hc => bne_iff_ne.mpr fun heq => h (heq ▸ hc)

theorem takeWhile_eq_iff {w rest : List α} : (w ++ rest).takeWhile (· != sep) = w ↔
    sep ∉ w ∧ rest.head?.all (· == sep) = true := by
  constructor
  · intro h
    have hw : sep ∉ w := h ▸ sep_not_mem_takeWhile (w ++ rest)
    refine ⟨hw, ?_⟩
    rw [List.takeWhile_append_of_pos (bne_of_not_mem hw)] at h
    cases rest with
    | nil => rfl
    | cons c rest =>
      by_cases hc : c = sep
      · simp [hc]
      · simp [hc] at h
  · rintro ⟨hw, hrest⟩
    rw [List.takeWhile_append_of_pos (bne_of_not_mem hw)]
    cases rest with
    | nil => simp
    | cons c rest =>
      obtain rfl : c = sep := by simpa using hrest
      simp

end Lib
