import Mathlib.Data.List.Infix
import Siathos.Lib.CStr

/-!
# The first occurrence of a text
-/

namespace Lib

/-- The index of the first place where the needle stands. -/
def strstr (needle : CStr) : CStr → Option Nat
  | [] => if needle = [] then some 0 else none
  | c :: cs => if needle.isPrefixOf (c :: cs) then some 0 else (strstr needle cs).map (· + 1)

variable {needle hay : CStr} {i : Nat}

theorem strstr_some (h : strstr needle hay = some i) :
    needle <+: hay.drop i ∧ ∀ j < i, ¬ needle <+: hay.drop j := by
  induction hay generalizing i with
  | nil =>
    unfold strstr at h
    split at h
    · next hnil =>
      obtain rfl := Option.some.inj h
      exact ⟨by simp [hnil], fun j hj => absurd hj (Nat.not_lt_zero j)⟩
    · cases h
  | cons c cs ih =>
    unfold strstr at h
    split at h
    · next hprefix =>
      obtain rfl := Option.some.inj h
      exact ⟨List.isPrefixOf_iff_prefix.mp hprefix, fun j hj => absurd hj (Nat.not_lt_zero j)⟩
    · next hprefix =>
      obtain ⟨k, hk, rfl⟩ := Option.map_eq_some_iff.mp h
      obtain ⟨hat, hbefore⟩ := ih hk
      refine ⟨hat, fun j hj => ?_⟩
      cases j with
      | zero => exact fun hzero => hprefix (List.isPrefixOf_iff_prefix.mpr hzero)
      | succ j => exact hbefore j (by omega)

theorem strstr_of_first (hi : i ≤ hay.length) (hat : needle <+: hay.drop i)
    (hbefore : ∀ j < i, ¬ needle <+: hay.drop j) :
    strstr needle hay = some i := by
  induction hay generalizing i with
  | nil =>
    obtain rfl : i = 0 := by simpa using hi
    have hnil : needle = [] := by simpa using hat
    simp [strstr, hnil]
  | cons c cs ih =>
    unfold strstr
    cases i with
    | zero => exact if_pos (List.isPrefixOf_iff_prefix.mpr hat)
    | succ i =>
      have hfirst : ¬ needle.isPrefixOf (c :: cs) = true := fun h =>
        hbefore 0 (Nat.succ_pos i) (List.isPrefixOf_iff_prefix.mp h)
      rw [if_neg hfirst, ih (by simpa using hi) hat fun j hj => hbefore (j + 1) (by omega)]
      rfl

theorem infix_take_of_prefix {j n : Nat} (hat : needle <+: hay.drop j) (hn : j + needle.length ≤ n) :
    needle <:+: hay.take n := by
  obtain ⟨rest, hrest⟩ := hat
  have hsplit : hay.take n = hay.take j ++ (hay.drop j).take (n - j) := by
    have : n = j + (n - j) := by omega
    conv_lhs => rw [this, List.take_add]
  refine ⟨hay.take j, rest.take (n - j - needle.length), ?_⟩
  have hneedle : needle.take (n - j) = needle := List.take_of_length_le (by omega)
  rw [hsplit, ← hrest, List.take_append, hneedle, List.append_assoc]

theorem strstr_append {a : CStr} (h : ¬ needle <:+: a ++ needle.dropLast) (b : CStr) :
    strstr needle (a ++ needle ++ b) = some a.length := by
  refine strstr_of_first (by simp) ?_ fun j hj hat => h ?_
  · simp
  · have hbefore : (a ++ needle ++ b).take (a.length + (needle.length - 1)) = a ++ needle.dropLast := by
      rw [List.append_assoc, List.take_length_add_append, List.take_append_of_le_length (by omega),
        List.dropLast_eq_take]
    rw [← hbefore]
    exact infix_take_of_prefix hat (by omega)

theorem not_infix_of_strstr (hne : needle ≠ []) (h : strstr needle hay = some i) :
    ¬ needle <:+: hay.take (i + needle.length - 1) := by
  rintro ⟨s, t, hst⟩
  have hpos := List.length_pos_of_ne_nil hne
  have hlen := congrArg List.length hst
  simp only [List.length_append, List.length_take] at hlen
  refine (strstr_some h).2 s.length (by omega) ?_
  have hhay : hay = s ++ needle ++ (t ++ hay.drop (i + needle.length - 1)) := by
    rw [← List.append_assoc, hst, List.take_append_drop]
  rw [hhay, List.append_assoc, List.drop_left]
  exact List.prefix_append _ _

theorem strstr_isSome (h : needle <:+: hay) : (strstr needle hay).isSome = true := by
  induction hay with
  | nil => simp [strstr, List.eq_nil_of_infix_nil h]
  | cons c cs ih =>
    unfold strstr
    split
    · rfl
    · next hprefix =>
      rcases List.infix_cons_iff.mp h with h | h
      · exact absurd (List.isPrefixOf_iff_prefix.mpr h) hprefix
      · rw [Option.isSome_map]
        exact ih h

theorem strstr_le {j : Nat} (hat : needle <+: hay.drop j) : ∃ i ≤ j, strstr needle hay = some i := by
  have hsome : (strstr needle hay).isSome = true :=
    strstr_isSome (hat.isInfix.trans (List.drop_suffix j hay).isInfix)
  obtain ⟨i, hi⟩ := Option.isSome_iff_exists.mp hsome
  exact ⟨i, Nat.le_of_not_lt fun hlt => (strstr_some hi).2 j hlt hat, hi⟩

theorem infix_of_infix_append {a b : CStr} {c : UInt8} (hlast : needle.getLast? = some c) (hc : c ∉ b)
    (h : needle <:+: a ++ b) : needle <:+: a := by
  obtain ⟨s, t, hst⟩ := h
  rcases List.append_eq_append_iff.mp hst with ⟨u, hu, -⟩ | ⟨u, hu, hb⟩
  · exact ⟨s, u, hu.symm⟩
  · have hend : (a ++ u).getLast? = some c := by
      rw [← hu, List.getLast?_append, hlast]
      rfl
    cases hcase : u.getLast? with
    | none =>
      rw [List.getLast?_eq_none_iff] at hcase
      exact ⟨s, [], by rw [List.append_nil, hu, hcase, List.append_nil]⟩
    | some d =>
      rw [List.getLast?_append, hcase] at hend
      obtain rfl := Option.some.inj hend
      exact absurd (hb ▸ List.mem_append_left t (List.mem_of_getLast? hcase)) hc

end Lib
