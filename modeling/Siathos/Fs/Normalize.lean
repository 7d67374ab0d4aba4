import Siathos.Fs.Mediation
import Mathlib.Data.List.Induction

/-!
# What a path means (`vfs_normalize`)

The path that `vfs_normalize` gives should be the lexical resolution of its input, component by
component. It is that of what two buffers keep of the input.
-/

open Lib

namespace Siathos.Fs

/-! ## Lexical resolution -/

def resolveStep (stack : List CStr) (comp : CStr) : List CStr :=
  if comp = dot then stack
  else if comp = dotdot then stack.dropLast
  else stack ++ [comp]

/-- The components of a path, as seen from `cwd`. -/
def resolve (cwd inp : CStr) : List CStr :=
  (components inp).foldl resolveStep (if inp.head? = some slash then [] else components cwd)

/-- The canonical path with these components. -/
def pathOf (comps : List CStr) : CStr := if comps = [] then root else comps.flatMap (slash :: ·)

/-- A name between two slashes. -/
structure IsPart (c : CStr) : Prop where
  nonempty : c ≠ []
  noSlash : slash ∉ c

/-- The path has no empty component, no `.` and no `..`. -/
def Canonical (path : CStr) : Prop :=
  ∃ comps, (∀ c ∈ comps, IsPart c ∧ c ≠ dot ∧ c ≠ dotdot) ∧ path = pathOf comps

/-! ## Components -/

theorem components_append (a b : CStr) : components (a ++ slash :: b) = components a ++ components b := by
  unfold components
  rw [List.splitOn_append_cons_self, List.filter_append]

theorem components_slash (s : CStr) : components (slash :: s) = components s := components_append [] s

theorem components_part {c : CStr} (h : IsPart c) : components c = [c] := by
  unfold components
  rw [List.splitOn_eq_singleton h.noSlash]
  simp [h.nonempty]

theorem isPart_components {s c : CStr} (h : c ∈ components s) : IsPart c := by
  obtain ⟨hsplit, hne⟩ := List.mem_filter.mp h
  exact ⟨by simpa using hne, fun hslash => (mem_splitOn hsplit hslash).2 rfl⟩

theorem components_flatMap {comps : List CStr} (h : ∀ c ∈ comps, IsPart c) :
    components (comps.flatMap (slash :: ·)) = comps := by
  induction comps using List.reverseRecOn with
  | nil => rfl
  | append_singleton comps c ih =>
    rw [List.flatMap_append, List.flatMap_singleton, components_append, components_part (h c (by simp)),
      ih fun d hd => h d (by simp [hd])]

theorem components_pathOf {comps : List CStr} (h : ∀ c ∈ comps, IsPart c) :
    components (pathOf comps) = comps := by
  unfold pathOf
  split_ifs with hnil
  · rw [hnil]
    rfl
  · exact components_flatMap h

theorem resolve_canonical {comps : List CStr} (h : ∀ c ∈ comps, c ≠ dot ∧ c ≠ dotdot)
    (stack : List CStr) : comps.foldl resolveStep stack = stack ++ comps := by
  induction comps generalizing stack with
  | nil => simp
  | cons c comps ih =>
    have hc := h c List.mem_cons_self
    rw [List.foldl_cons, ih fun d hd => h d (List.mem_cons_of_mem _ hd)]
    simp [resolveStep, hc.1, hc.2]

/-! ## The path of a stack of components -/

theorem pathOf_snoc (stack : List CStr) (comp : CStr) :
    pathOf (stack ++ [comp]) = (if stack = [] then [] else pathOf stack) ++ slash :: comp := by
  unfold pathOf
  rw [if_neg (by simp), List.flatMap_append, List.flatMap_singleton]
  split_ifs with h <;> simp [h]

theorem one_lt_length_pathOf {stack : List CStr} (h : ∀ c ∈ stack, c ≠ []) :
    1 < (pathOf stack).length ↔ stack ≠ [] := by
  induction stack using List.reverseRecOn with
  | nil => simp [pathOf, root]
  | append_singleton stack c _ =>
    have hc : 0 < c.length := List.length_pos_iff.mpr (h c (by simp))
    rw [pathOf_snoc]
    simp
    omega

theorem dirname_snoc (s : CStr) {c : CStr} (h : slash ∉ c) : dirname (s ++ slash :: c) = s := by
  have hdrop : ∀ l : CStr, slash ∉ l → (l ++ slash :: s.reverse).dropWhile (· != slash) = slash :: s.reverse := by
    intro l hl
    rw [List.dropWhile_append_of_pos]
    · simp
    · intro b hb
      simpa using fun (heq : b = slash) => hl (heq ▸ hb)
  unfold dirname
  rw [List.reverse_append, List.reverse_cons, List.append_assoc, List.singleton_append,
    hdrop _ (by simpa using h)]
  simp

theorem dirname_pathOf {stack : List CStr} (h : ∀ c ∈ stack, IsPart c) :
    (if (dirname (pathOf stack)).isEmpty then root else dirname (pathOf stack)) = pathOf stack.dropLast := by
  induction stack using List.reverseRecOn with
  | nil => decide
  | append_singleton stack c _ =>
    rw [pathOf_snoc, dirname_snoc _ (h c (by simp)).noSlash, List.dropLast_concat]
    by_cases hnil : stack = []
    · simp [hnil, pathOf]
    · have hpos := (one_lt_length_pathOf fun d hd => (h d (by simp [hd])).nonempty).mpr hnil
      have hne : pathOf stack ≠ [] := List.ne_nil_of_length_pos (by omega)
      simp [hnil, hne]

/-! ## The buffer of a component -/

theorem cut_eq_iff {n : Nat} {s t : CStr} (h : t.length + 1 < n) : cut n s = t ↔ s = t := by
  unfold cut
  constructor
  · rintro rfl
    rw [List.length_take] at h
    exact (List.take_of_length_le (by omega)).symm
  · rintro rfl
    exact List.take_of_length_le (by omega)

theorem isPart_cut {c : CStr} (h : IsPart c) : IsPart (cut 32 c) :=
  ⟨by simp [cut, h.nonempty], fun hmem => h.noSlash (List.mem_of_mem_take hmem)⟩

theorem resolveStep_cut (stack : List CStr) (comp : CStr) :
    resolveStep (stack.map (cut 32)) (cut 32 comp) = (resolveStep stack comp).map (cut 32) := by
  have hdot : cut 32 comp = dot ↔ comp = dot := cut_eq_iff (by decide)
  have hdotdot : cut 32 comp = dotdot ↔ comp = dotdot := cut_eq_iff (by decide)
  unfold resolveStep
  simp only [hdot, hdotdot]
  split_ifs <;> simp [List.map_dropLast]

theorem foldl_resolveStep_cut (comps stack : List CStr) :
    (comps.map (cut 32)).foldl resolveStep (stack.map (cut 32)) =
      (comps.foldl resolveStep stack).map (cut 32) := by
  induction comps generalizing stack with
  | nil => rfl
  | cons comp comps ih => rw [List.map_cons, List.foldl_cons, List.foldl_cons, resolveStep_cut, ih]

theorem isPart_resolveStep {stack : List CStr} {comp : CStr} (hstack : ∀ c ∈ stack, IsPart c)
    (hcomp : IsPart comp) : ∀ c ∈ resolveStep stack comp, IsPart c := by
  unfold resolveStep
  intro c hc
  split_ifs at hc
  · exact hstack c hc
  · exact hstack c (List.dropLast_subset _ hc)
  · rcases List.mem_append.mp hc with hc | hc
    · exact hstack c hc
    · rwa [List.mem_singleton.mp hc]

theorem isPart_foldl {comps stack : List CStr} (hcomps : ∀ c ∈ comps, IsPart c)
    (hstack : ∀ c ∈ stack, IsPart c) : ∀ c ∈ comps.foldl resolveStep stack, IsPart c := by
  induction comps generalizing stack with
  | nil => exact hstack
  | cons comp comps ih =>
    exact ih (fun c hc => hcomps c (List.mem_cons_of_mem _ hc))
      (isPart_resolveStep hstack (hcomps comp List.mem_cons_self))

/-! ## The loop -/

/-- Nowhere along the components does the path outgrow its buffer. -/
def Fitting (outMax : Nat) (stack comps : List CStr) : Prop :=
  ∀ pre, pre <+: comps → (pathOf (pre.foldl resolveStep stack)).length < outMax

theorem fitting_cons {outMax : Nat} {stack : List CStr} {comp : CStr} {comps : List CStr} :
    Fitting outMax stack (comp :: comps) ↔
      (pathOf stack).length < outMax ∧ Fitting outMax (resolveStep stack comp) comps := by
  constructor
  · intro h
    refine ⟨h [] List.nil_prefix, fun pre hpre => ?_⟩
    exact h (comp :: pre) ((List.prefix_cons_inj comp).mpr hpre)
  · rintro ⟨hstack, h⟩ pre hpre
    rcases List.prefix_cons_iff.mp hpre with rfl | ⟨tail, rfl, htail⟩
    · exact hstack
    · exact h tail htail

theorem fitting_start {outMax : Nat} {stack comps : List CStr} (h : Fitting outMax stack comps) :
    (pathOf stack).length < outMax := h [] List.nil_prefix

theorem length_pathOf_dropLast (stack : List CStr) :
    (pathOf stack.dropLast).length ≤ max 1 (pathOf stack).length := by
  induction stack using List.reverseRecOn with
  | nil => simp [pathOf, root]
  | append_singleton stack c _ =>
    rw [List.dropLast_concat, pathOf_snoc]
    split_ifs with h
    · simp [h, pathOf, root]
    · simp only [List.length_append, List.length_cons]
      omega

theorem normalizeStep_pathOf {outMax : Nat} (hmax : 1 < outMax) {stack : List CStr} {comp : CStr}
    (hstack : ∀ c ∈ stack, IsPart c) (hfits : (pathOf stack).length < outMax) :
    normalizeStep outMax (some (pathOf stack)) comp =
      if (pathOf (resolveStep stack (cut 32 comp))).length < outMax then
        some (pathOf (resolveStep stack (cut 32 comp)))
      else none := by
  have hlen := one_lt_length_pathOf fun c hc => (hstack c hc).nonempty
  simp only [normalizeStep, Option.bind_some]
  by_cases hdot : cut 32 comp = dot
  · have hnext : resolveStep stack (cut 32 comp) = stack := by simp [resolveStep, hdot]
    rw [if_pos hdot, hnext, if_pos hfits]
  rw [if_neg hdot]
  by_cases hdotdot : cut 32 comp = dotdot
  · have hnext : resolveStep stack (cut 32 comp) = stack.dropLast := by
      simp [resolveStep, hdotdot, show dotdot ≠ dot by decide]
    have hback := length_pathOf_dropLast stack
    rw [if_pos hdotdot, dirname_pathOf hstack, hnext, if_pos (by omega)]
  rw [if_neg hdotdot]
  have hnext : resolveStep stack (cut 32 comp) = stack ++ [cut 32 comp] := by
    simp [resolveStep, hdot, hdotdot]
  rw [hnext, pathOf_snoc]
  by_cases hnil : stack = []
  · rw [if_neg (mt hlen.mp (not_not.mpr hnil)), if_pos hnil]
    simp only [List.nil_append, List.length_cons, root, List.singleton_append]
    split_ifs <;> first | rfl | omega
  · rw [if_pos (hlen.mpr hnil), if_neg hnil]
    simp only [List.length_append, List.length_cons, List.append_assoc, List.singleton_append]
    split_ifs <;> first | rfl | omega

theorem foldl_normalizeStep {outMax : Nat} (hmax : 1 < outMax) (comps stack : List CStr)
    (hcomps : ∀ c ∈ comps, IsPart c) (hstack : ∀ c ∈ stack, IsPart c)
    (hfits : (pathOf stack).length < outMax) (out : CStr) :
    comps.foldl (normalizeStep outMax) (some (pathOf stack)) = some out ↔
      Fitting outMax stack (comps.map (cut 32)) ∧
        out = pathOf ((comps.map (cut 32)).foldl resolveStep stack) := by
  induction comps generalizing stack with
  | nil =>
    have hstart : Fitting outMax stack [] := by
      intro pre hpre
      rw [List.prefix_nil.mp hpre]
      exact hfits
    simp [hstart, eq_comm]
  | cons comp comps ih =>
    have hcomp := hcomps comp List.mem_cons_self
    rw [List.map_cons, fitting_cons, List.foldl_cons, List.foldl_cons, normalizeStep_pathOf hmax hstack hfits]
    split_ifs with hnext
    · rw [ih _ (fun c hc => hcomps c (List.mem_cons_of_mem _ hc))
        (isPart_resolveStep hstack (isPart_cut hcomp)) hnext]
      simp [hfits]
    · have hnone : ∀ l : List CStr, l.foldl (normalizeStep outMax) none = none := by
        intro l
        induction l with
        | nil => rfl
        | cons _ _ ihl => exact ihl
      simp only [hnone, reduceCtorEq, false_iff, not_and]
      exact fun h => absurd (fitting_start h.2) hnext

/-! ## The whole path -/

/-- The text that `vfs_normalize` builds, before its buffer of 512 bytes cuts it. -/
def joined (cwd inp : CStr) : CStr :=
  if inp.head? = some slash then inp else (if cwd = root then [] else cwd) ++ [slash] ++ inp

theorem resolve_joined {cwd : CStr} (hcwd : Canonical cwd) (inp : CStr) :
    (components (joined cwd inp)).foldl resolveStep [] = resolve cwd inp := by
  obtain ⟨comps, hcomps, rfl⟩ := hcwd
  unfold joined resolve
  split_ifs with habs hroot
  · rfl
  · rw [hroot]
    simp [components_slash, show components root = [] from rfl]
  · rw [List.append_assoc, List.singleton_append, components_append, List.foldl_append,
      components_pathOf fun c hc => (hcomps c hc).1, resolve_canonical fun c hc => (hcomps c hc).2]
    rfl

/-- What the two buffers keep of the components. -/
def kept (cwd inp : CStr) : List CStr :=
  ((components (cut 512 (joined cwd inp))).foldl resolveStep []).map (cut 32)

/-- On the way the path outgrows the buffer of the result. -/
def Outgrows (cwd inp : CStr) : Prop :=
  ∃ pre, pre <+: components (cut 512 (joined cwd inp)) ∧
    fsNameMax ≤ (pathOf ((pre.foldl resolveStep []).map (cut 32))).length

theorem vfsNormalize_eq {cwd inp : CStr} (hinp : inp ≠ []) (out : CStr) :
    vfsNormalize cwd inp fsNameMax = some out ↔ ¬ Outgrows cwd inp ∧ out = pathOf (kept cwd inp) := by
  have hcut : ∀ l : List CStr, (l.map (cut 32)).foldl resolveStep [] = (l.foldl resolveStep []).map (cut 32) :=
    fun l => foldl_resolveStep_cut l []
  have hfit : Fitting fsNameMax [] ((components (cut 512 (joined cwd inp))).map (cut 32)) ↔
      ¬ Outgrows cwd inp := by
    unfold Fitting Outgrows
    simp only [not_exists, not_and, Nat.not_le]
    constructor
    · intro h pre hpre
      have := h (pre.map (cut 32)) (hpre.map (cut 32))
      rwa [hcut] at this
    · intro h pre hpre
      obtain ⟨pre, hpre', rfl⟩ := List.prefix_map_iff.mp hpre
      rw [hcut]
      exact h pre hpre'
  unfold vfsNormalize
  rw [if_neg hinp]
  have hloop := foldl_normalizeStep (show 1 < fsNameMax by decide) (components (cut 512 (joined cwd inp))) []
    (fun c hc => isPart_components hc) (by simp) (by decide) out
  rw [hfit, hcut] at hloop
  exact hloop

theorem isPart_kept (cwd inp : CStr) : ∀ c ∈ kept cwd inp, IsPart c := by
  intro c hc
  obtain ⟨d, hd, rfl⟩ := List.mem_map.mp hc
  exact isPart_cut (isPart_foldl (fun c hc => isPart_components hc) (by simp) d hd)

theorem map_cut_eq_self {comps : List CStr} : comps.map (cut 32) = comps ↔ ∀ c ∈ comps, c.length < 32 := by
  have hcut : ∀ c : CStr, cut 32 c = c ↔ c.length < 32 := by
    intro c
    unfold cut
    constructor
    · intro h
      have := congrArg List.length h
      rw [List.length_take] at this
      omega
    · exact fun h => List.take_of_length_le (by omega)
  induction comps with
  | nil => simp
  | cons c comps ih => simp [hcut, ih]

/-! ## A current directory that is copied -/

/-- The bytes of the components, with a slash for each. -/
def textLength : List CStr → Nat
  | [] => 0
  | c :: comps => c.length + 1 + textLength comps

theorem textLength_components (s : CStr) : textLength (components s) ≤ s.length + 1 := by
  have hsplit : textLength (s.splitOn slash) = s.length + 1 := by
    induction s with
    | nil => rfl
    | cons b s ih =>
      obtain ⟨first, rest, hs⟩ := List.exists_cons_of_ne_nil (List.splitOn_ne_nil slash s)
      rw [List.splitOn_cons_eq_if_modifyHead]
      rw [hs] at ih ⊢
      simp only [textLength] at ih
      split_ifs <;> simp only [List.modifyHead_cons, textLength, List.length_cons, List.length_nil] <;> omega
  have hfilter : ∀ l : List CStr, textLength (l.filter (· ≠ [])) ≤ textLength l := by
    intro l
    induction l with
    | nil => exact Nat.le_refl _
    | cons c l ih =>
      rw [List.filter_cons]
      split_ifs <;> simp only [textLength] <;> omega
  exact Nat.le_trans (hfilter _) (Nat.le_of_eq hsplit)

theorem length_pathOf {comps : List CStr} (h : comps ≠ []) : (pathOf comps).length = textLength comps := by
  have hflat : ∀ l : List CStr, (l.flatMap (slash :: ·)).length = textLength l := by
    intro l
    induction l with
    | nil => rfl
    | cons c l ih => rw [List.flatMap_cons, List.length_append, ih, List.length_cons, textLength]
  unfold pathOf
  rw [if_neg h, hflat]

theorem components_cut {cwd : CStr} (hcwd : Canonical cwd) :
    components (cut fsNameMax cwd) = components cwd ↔ cwd.length < fsNameMax := by
  obtain ⟨comps, hcomps, rfl⟩ := hcwd
  unfold cut
  constructor
  · intro h
    by_contra hlong
    have hne : comps ≠ [] := by
      rintro rfl
      exact hlong (by decide)
    obtain ⟨c, rest, rfl⟩ := List.exists_cons_of_ne_nil hne
    rw [components_pathOf fun c hc => (hcomps c hc).1] at h
    have hlen := length_pathOf hne
    have hbytes : (pathOf (c :: rest)).take (fsNameMax - 1) =
        slash :: ((pathOf (c :: rest)).drop 1).take (fsNameMax - 2) := by
      simp [pathOf, fsNameMax]
    rw [hbytes, components_slash] at h
    have hle := textLength_components (((pathOf (c :: rest)).drop 1).take (fsNameMax - 2))
    rw [h, ← hlen, List.length_take] at hle
    simp only [fsNameMax] at hle hlong
    omega
  · intro h
    rw [List.take_of_length_le (by omega)]

/-! ## The result -/

/-- What comes out is the resolution of what went in, and nothing comes out where that is too long. -/
structure Faithful (cwd inp : CStr) : Prop where
  resolved : ∀ out, vfsNormalize cwd inp fsNameMax = some out → components out = resolve cwd inp
  refused : fsNameMax ≤ (pathOf (resolve cwd inp)).length → vfsNormalize cwd inp fsNameMax = none

/-- The buffers lose nothing that the resolution has: no component has more than 31 bytes, and where
the text has more than 511 the rest of it changes nothing. -/
def Preserved (cwd inp : CStr) : Prop :=
  if inp = [] then cwd.length < fsNameMax
  else if (joined cwd inp).length < 512 then Outgrows cwd inp ∨ ∀ c ∈ resolve cwd inp, c.length < 32
  else Outgrows cwd inp ∨ kept cwd inp = resolve cwd inp

theorem kept_short {cwd inp : CStr} (hcwd : Canonical cwd) (h : (joined cwd inp).length < 512) :
    kept cwd inp = (resolve cwd inp).map (cut 32) := by
  have hall : cut 512 (joined cwd inp) = joined cwd inp := List.take_of_length_le (by omega)
  unfold kept
  rw [hall, resolve_joined hcwd]

theorem faithful_iff {cwd inp : CStr} (hcanon : ∀ out, vfsNormalize cwd inp fsNameMax = some out →
    ∃ comps, (∀ c ∈ comps, IsPart c) ∧ out = pathOf comps) :
    Faithful cwd inp ↔
      ∀ out, vfsNormalize cwd inp fsNameMax = some out → components out = resolve cwd inp := by
  refine ⟨fun h => h.resolved, fun h => ⟨h, fun hlong => ?_⟩⟩
  cases hout : vfsNormalize cwd inp fsNameMax with
  | none => rfl
  | some out =>
    obtain ⟨comps, hcomps, rfl⟩ := hcanon out hout
    have hlen := vfsNormalize_length hout
    rw [← h _ hout, components_pathOf hcomps] at hlong
    omega

theorem normalize_faithful_iff (cwd inp : CStr) (hcwd : Canonical cwd) :
    Faithful cwd inp ↔ Preserved cwd inp := by
  unfold Preserved
  by_cases hinp : inp = []
  · subst hinp
    rw [if_pos rfl, ← components_cut hcwd]
    have hout : vfsNormalize cwd [] fsNameMax = some (cut fsNameMax cwd) := rfl
    have hres : resolve cwd [] = components cwd := rfl
    constructor
    · exact fun h => h.resolved _ hout
    · intro h
      have hlen := (components_cut hcwd).mp h
      have hall : cut fsNameMax cwd = cwd := List.take_of_length_le (by omega)
      obtain ⟨comps, hcomps, rfl⟩ := hcwd
      rw [hall] at hout
      refine (faithful_iff fun out ho => ?_).mpr fun out ho => ?_
      · exact ⟨comps, fun c hc => (hcomps c hc).1, Option.some.inj (ho.symm.trans hout)⟩
      · rw [Option.some.inj (ho.symm.trans hout), hres]
  · rw [if_neg hinp]
    have hmain : Faithful cwd inp ↔ Outgrows cwd inp ∨ kept cwd inp = resolve cwd inp := by
      rw [faithful_iff fun out ho => ⟨_, isPart_kept cwd inp, ((vfsNormalize_eq hinp out).mp ho).2⟩]
      constructor
      · intro h
        by_cases hout : Outgrows cwd inp
        · exact Or.inl hout
        · have := h _ ((vfsNormalize_eq hinp _).mpr ⟨hout, rfl⟩)
          rw [components_pathOf (isPart_kept cwd inp)] at this
          exact Or.inr this
      · intro h out ho
        obtain ⟨hout, rfl⟩ := (vfsNormalize_eq hinp out).mp ho
        rw [components_pathOf (isPart_kept cwd inp)]
        exact h.resolve_left hout
    split_ifs with hshort
    · rw [hmain, kept_short hcwd hshort, map_cut_eq_self]
    · exact hmain

theorem canonical_root : Canonical root := ⟨[], by simp, rfl⟩

/-- A short path from the root is resolved. -/
theorem normalize_faithful_short : Faithful root (ascii "/a/./b/../c") :=
  (normalize_faithful_iff root (ascii "/a/./b/../c") canonical_root).mpr (by
    unfold Preserved
    rw [if_neg (by decide), if_pos (by decide)]
    exact Or.inr (by decide +kernel))

/-- Two files whose names agree in the first 31 bytes have one path. -/
theorem normalize_unfaithful : ¬ Faithful root (slash :: List.replicate 40 0x61) := by
  intro h
  have hres := h.resolved (slash :: List.replicate 31 0x61) (by decide +kernel)
  revert hres
  decide +kernel

end Siathos.Fs
