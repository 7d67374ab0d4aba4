import Mathlib.Data.List.Nodup
import Mathlib.Data.List.Perm.Basic
import Siathos.Fsd.Service
import Siathos.Lib.Modify

/-!
# What the store of 'fsd' holds
-/

open Lib Siathos.Nomos Siathos.Fs Siathos.Syscall

namespace Siathos.Fsd

/-- The data of the file that `fsd_st_find` finds. -/
def stored (st : Store) (path : CStr) : Option (List UInt8) := (st.files.find? (·.path = path)).map (·.data)

theorem stored_eq (st : Store) (path : CStr) :
    stored st path = (fsdStFind st path).bind fun i => st.files[i]?.map (·.data) := by
  unfold stored fsdStFind
  rw [List.find?_eq_bind_findIdx?_getElem?, Option.map_bind]
  rfl

theorem fsdStFind_isSome (st : Store) (path : CStr) : (fsdStFind st path).isSome = (stored st path).isSome := by
  unfold stored fsdStFind
  rw [Option.isSome_map, List.findIdx?_isSome, List.isSome_find?]

theorem stored_missing {st : Store} {path : CStr} (h : fsdStFind st path = none) : stored st path = none := by
  rw [stored_eq, h, Option.bind_none]

theorem stored_found {st : Store} {path : CStr} {i : Nat} (h : fsdStFind st path = some i) :
    stored st path = some ((st.files[i]?.map (·.data)).getD []) := by
  have hsome := fsdStFind_isSome st path
  have heq := stored_eq st path
  rw [h, Option.bind_some] at heq
  rw [h, Option.isSome_some, heq] at hsome
  rw [heq]
  obtain ⟨d, hd⟩ := Option.isSome_iff_exists.mp hsome.symm
  rw [hd, Option.getD_some]

theorem stored_long {st : Store} {path : CStr} (h : stPath ≤ path.length) : stored st path = none := by
  unfold stored
  rw [Option.map_eq_none_iff, List.find?_eq_none]
  intro f _ hf
  have hlt := f.path_lt
  rw [of_decide_eq_true hf] at hlt
  omega

/-! ## Writing -/

section

variable {st st' : Store} {path q : CStr} {data : List UInt8}

theorem stData_pos : 0 < stData := by decide

/-- What `fsd_st_set` does to a file that is there. -/
def restore (data : List UInt8) (f : StFile) : StFile :=
  { f with data := cut stData data, data_lt := cut_lt stData_pos data }

theorem fsdStSet_cases (h : fsdStSet st path data = some st') :
    st'.dirs = st.dirs ∧
      ((∃ i, fsdStFind st path = some i ∧ st'.files = st.files.modify i (restore data)) ∨
      (fsdStFind st path = none ∧ st.files.length < stMax ∧ st'.files = st.files ++ [stFile path data])) := by
  unfold fsdStSet at h
  split at h
  · next i hi =>
    simp only [Option.some.injEq] at h
    subst h
    exact ⟨rfl, Or.inl ⟨i, hi, rfl⟩⟩
  · next hnone =>
    split_ifs at h with hlt
    simp only [Option.some.injEq] at h
    subst h
    exact ⟨rfl, Or.inr ⟨hnone, hlt, rfl⟩⟩

theorem stored_set_same (hlen : path.length < stPath) (h : fsdStSet st path data = some st') :
    stored st' path = some (cut stData data) := by
  obtain ⟨-, ⟨i, hi, hfiles⟩ | ⟨hnone, -, hfiles⟩⟩ := fsdStSet_cases h
  · have hsome := stored_found hi
    unfold stored at hsome ⊢
    rw [hfiles, find?_modify_same (f := restore data) (fun _ => rfl) hi, Option.map_map]
    obtain ⟨a, ha, -⟩ := Option.map_eq_some_iff.mp hsome
    rw [ha]
    rfl
  · have hold : stored st path = none := by
      rw [← Option.not_isSome_iff_eq_none, ← fsdStFind_isSome, hnone]
      simp
    have hpath : (stFile path data).path = path := List.take_of_length_le (Nat.le_pred_of_lt hlen)
    unfold stored at hold ⊢
    rw [Option.map_eq_none_iff] at hold
    rw [hfiles, List.find?_append, hold, Option.none_or, List.find?_singleton, if_pos (decide_eq_true hpath)]
    rfl

theorem stored_set_other (hq : q ≠ path) (hcut : q ≠ cut stPath path) (h : fsdStSet st path data = some st') :
    stored st' q = stored st q := by
  obtain ⟨-, ⟨i, hi, hfiles⟩ | ⟨-, -, hfiles⟩⟩ := fsdStSet_cases h
  · unfold stored
    rw [hfiles]
    have hother : ∀ a, st.files[i]? = some a → decide (a.path = q) = false := by
      intro a ha
      have hfound := List.of_findIdx?_eq_some hi
      rw [ha] at hfound
      simp only [decide_eq_true_eq] at hfound
      simp [hfound, hq.symm]
    rw [find?_modify_other (f := restore data) (fun _ => rfl) hother]
  · unfold stored
    rw [hfiles, List.find?_append]
    have hnew : (stFile path data).path ≠ q := fun heq => hcut heq.symm
    simp [hnew]

/-! ## Removing -/

/-- No two files have one path. -/
def Distinct (st : Store) : Prop := (st.files.map (·.path)).Nodup

theorem find?_path {st : Store} {f : StFile} (h : st.files.find? (·.path = path) = some f) :
    f ∈ st.files ∧ f.path = path :=
  ⟨List.mem_of_find?_eq_some h, by simpa using List.find?_some h⟩

theorem stored_iff (h : Distinct st) :
    stored st path = some data ↔ ∃ f ∈ st.files, f.path = path ∧ f.data = data := by
  unfold stored
  constructor
  · intro hstored
    obtain ⟨f, hf, hdata⟩ := Option.map_eq_some_iff.mp hstored
    obtain ⟨hmem, hpath⟩ := find?_path hf
    exact ⟨f, hmem, hpath, hdata⟩
  · rintro ⟨f, hf, hpath, hdata⟩
    have hsome : (st.files.find? (·.path = path)).isSome = true :=
      List.find?_isSome.mpr ⟨f, hf, decide_eq_true hpath⟩
    obtain ⟨g, hg⟩ := Option.isSome_iff_exists.mp hsome
    obtain ⟨hmem, hpath'⟩ := find?_path hg
    have hsame : f = g := List.inj_on_of_nodup_map h hf hmem (hpath.trans hpath'.symm)
    rw [hg, Option.map_some, ← hsame, hdata]

theorem swapRemove_perm {α : Type} {l : List α} {i : Nat} (h : i < l.length) :
    (swapRemove l i).Perm (l.eraseIdx i) := by
  obtain rfl | ⟨init, last, rfl⟩ := l.eq_nil_or_concat'
  · simp at h
  · unfold swapRemove
    rw [List.getLast?_concat, Option.map_some, Option.getD_some]
    rw [List.length_append, List.length_singleton] at h
    obtain hlt | rfl := Nat.lt_or_eq_of_le (Nat.le_of_lt_succ h)
    · rw [List.set_append_left _ _ hlt, List.dropLast_concat, List.eraseIdx_append_of_lt_length hlt]
      exact (List.set_perm_cons_eraseIdx hlt last).trans (List.perm_append_singleton _ _).symm
    · rw [List.set_append_right _ _ (Nat.le_refl _), List.eraseIdx_append_of_length_le (Nat.le_refl _)]
      simp

theorem fsdStRemove_cases (h : fsdStRemove st path = some st') :
    st'.dirs = st.dirs ∧ ∃ f, f.path = path ∧ st.files.Perm (f :: st'.files) := by
  obtain ⟨i, hi, rfl⟩ := Option.map_eq_some_iff.mp h
  obtain ⟨hlt, hpath, -⟩ := List.findIdx?_eq_some_iff_getElem.mp hi
  refine ⟨rfl, st.files[i], by simpa using hpath, ?_⟩
  exact ((swapRemove_perm hlt).cons _ |>.trans (List.getElem_cons_eraseIdx_perm hlt)).symm

theorem stored_remove (hdistinct : Distinct st) (h : fsdStRemove st path = some st') :
    Distinct st' ∧ ∀ q, stored st' q = if q = path then none else stored st q := by
  obtain ⟨-, f, rfl, hperm⟩ := fsdStRemove_cases h
  have hnodup : ((f :: st'.files).map (·.path)).Nodup := by
    rw [← (hperm.map (·.path)).nodup_iff]
    exact hdistinct
  rw [List.map_cons, List.nodup_cons] at hnodup
  have hdistinct' : Distinct st' := hnodup.2
  refine ⟨hdistinct', fun q => Option.ext fun d => ?_⟩
  split_ifs with hq
  · subst hq
    refine iff_of_false (fun hd => ?_) (by simp)
    obtain ⟨g, hg, hpath, -⟩ := (stored_iff hdistinct').mp hd
    exact hnodup.1 (List.mem_map.mpr ⟨g, hg, hpath⟩)
  · rw [stored_iff hdistinct', stored_iff hdistinct]
    refine exists_congr fun g => and_congr_left fun ⟨hpath, _⟩ => ?_
    rw [hperm.mem_iff, List.mem_cons, or_iff_right]
    rintro rfl
    exact hq hpath.symm

theorem fsdStRemove_none : fsdStRemove st path = none ↔ stored st path = none := by
  unfold fsdStRemove
  rw [Option.map_eq_none_iff, ← Option.not_isSome_iff_eq_none, fsdStFind_isSome, Option.not_isSome_iff_eq_none]

theorem distinct_set (hlen : path.length < stPath) (hdistinct : Distinct st)
    (h : fsdStSet st path data = some st') : Distinct st' := by
  unfold Distinct at hdistinct ⊢
  obtain ⟨-, ⟨i, hi, hfiles⟩ | ⟨hnone, -, hfiles⟩⟩ := fsdStSet_cases h
  · rwa [hfiles, map_modify_same (f := restore data) fun _ => rfl]
  · have hcut : cut stPath path = path := List.take_of_length_le (Nat.le_pred_of_lt hlen)
    rw [hfiles, List.map_append, List.map_singleton, List.nodup_append_comm, List.singleton_append, List.nodup_cons]
    refine ⟨fun hmem => ?_, hdistinct⟩
    obtain ⟨f, hf, hpath⟩ := List.mem_map.mp hmem
    have hnot := List.findIdx?_eq_none_iff.mp hnone f hf
    simp only [decide_eq_false_iff_not] at hnot
    exact hnot (hpath.trans hcut)

end

end Siathos.Fsd
