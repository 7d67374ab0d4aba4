import Siathos.Fs.Normalize

/-!
# Paths in normal form (`vfs_normalize`)

What comes out of `vfs_normalize` goes through it unchanged, under any current directory.
-/

open Lib

namespace Siathos.Fs

/-- The path starts with a slash, and between two slashes is a name. -/
structure Normal (path : CStr) : Prop where
  absolute : path.head? = some slash
  noEmpty : ¬ [slash, slash] <:+: path
  noTrailing : path ≠ root → path.getLast? ≠ some slash
  noDots : ∀ c ∈ components path, c ≠ dot ∧ c ≠ dotdot

/-! ## The path of names -/

theorem head_pathOf (comps : List CStr) : (pathOf comps).head? = some slash := by
  unfold pathOf
  cases comps <;> simp [root]

theorem pathOf_ne_nil (comps : List CStr) : pathOf comps ≠ [] := by
  intro hnil
  have hhead := head_pathOf comps
  rw [hnil] at hhead
  cases hhead

theorem getLast_pathOf {comps : List CStr} (h : ∀ c ∈ comps, IsPart c) (hne : comps ≠ []) :
    (pathOf comps).getLast? ≠ some slash := by
  obtain ⟨comps, c, rfl⟩ := (List.eq_nil_or_concat comps).resolve_left hne
  rw [List.concat_eq_append] at h ⊢
  have hc := h c (by simp)
  obtain ⟨b, l, hb⟩ := List.exists_cons_of_ne_nil hc.nonempty
  rw [pathOf_snoc, List.getLast?_append, hb, List.getLast?_cons_cons, ← hb]
  intro hlast
  have hmem : slash ∈ c := by
    rw [List.getLast?_eq_some_getLast hc.nonempty] at hlast
    simp at hlast
    exact hlast ▸ List.getLast_mem hc.nonempty
  exact hc.noSlash hmem

theorem textLength_append (l m : List CStr) : textLength (l ++ m) = textLength l + textLength m := by
  induction l with
  | nil => simp [textLength]
  | cons c l ih =>
    simp only [List.cons_append, textLength, ih]
    omega

theorem textLength_absolute {s : CStr} (h : s ≠ [] → s.head? = some slash) : textLength (components s) ≤ s.length := by
  cases s with
  | nil => exact Nat.le_refl 0
  | cons b s =>
    obtain rfl : b = slash := by simpa using h
    rw [components_slash]
    exact textLength_components s

theorem noEmpty_pathOf {comps : List CStr} (h : ∀ c ∈ comps, IsPart c) : ¬ [slash, slash] <:+: pathOf comps := by
  rintro ⟨pre, suf, hpath⟩
  have hne : comps ≠ [] := by
    rintro rfl
    have hlen := congrArg List.length hpath
    simp [pathOf, root] at hlen
    omega
  have hpre : pre ≠ [] → pre.head? = some slash := by
    intro hpre
    have hhead := head_pathOf comps
    rwa [← hpath, List.append_assoc, List.head?_append_of_ne_nil _ hpre] at hhead
  have hcomps : components (pathOf comps) = components pre ++ components suf := by
    rw [← hpath, List.append_assoc, List.cons_append, components_append, List.cons_append, components_slash,
      List.nil_append]
  have hlen := congrArg List.length hpath
  rw [length_pathOf hne, ← components_pathOf h, hcomps, textLength_append] at hlen
  have hleft := textLength_absolute hpre
  have hright := textLength_components suf
  simp at hlen
  omega

theorem Normal.pathOf {comps : List CStr} (h : ∀ c ∈ comps, IsPart c ∧ c ≠ dot ∧ c ≠ dotdot) :
    Normal (pathOf comps) := by
  have hparts : ∀ c ∈ comps, IsPart c := fun c hc => (h c hc).1
  refine ⟨head_pathOf comps, noEmpty_pathOf hparts, fun hroot => ?_, ?_⟩
  · refine getLast_pathOf hparts ?_
    rintro rfl
    exact hroot rfl
  · rw [components_pathOf hparts]
    exact fun c hc => (h c hc).2

/-! ## What comes out -/

theorem head_joined {cwd : CStr} (hcwd : Canonical cwd) (inp : CStr) : (joined cwd inp).head? = some slash := by
  obtain ⟨comps, -, rfl⟩ := hcwd
  unfold joined
  split_ifs with habs hroot
  · exact habs
  · rfl
  · rw [List.append_assoc, List.head?_append_of_ne_nil _ (pathOf_ne_nil comps), head_pathOf]

theorem noDots_resolveStep {stack : List CStr} {comp : CStr} (hstack : ∀ c ∈ stack, c ≠ dot ∧ c ≠ dotdot) :
    ∀ c ∈ resolveStep stack comp, c ≠ dot ∧ c ≠ dotdot := by
  unfold resolveStep
  intro c hc
  split_ifs at hc with hdot hdotdot
  · exact hstack c hc
  · exact hstack c (List.dropLast_subset _ hc)
  · rcases List.mem_append.mp hc with hc | hc
    · exact hstack c hc
    · exact List.mem_singleton.mp hc ▸ ⟨hdot, hdotdot⟩

theorem noDots_foldl (comps : List CStr) {stack : List CStr} (hstack : ∀ c ∈ stack, c ≠ dot ∧ c ≠ dotdot) :
    ∀ c ∈ comps.foldl resolveStep stack, c ≠ dot ∧ c ≠ dotdot := by
  induction comps generalizing stack with
  | nil => exact hstack
  | cons comp comps ih => exact ih (noDots_resolveStep hstack)

theorem textLength_dropLast (l : List CStr) : textLength l.dropLast ≤ textLength l := by
  induction l using List.reverseRecOn with
  | nil => exact Nat.le_refl _
  | append_singleton l c _ =>
    rw [List.dropLast_concat, textLength_append]
    omega

theorem textLength_foldl (comps stack : List CStr) :
    textLength (comps.foldl resolveStep stack) ≤ textLength stack + textLength comps := by
  induction comps generalizing stack with
  | nil => simp [textLength]
  | cons comp comps ih =>
    have hstep : textLength (resolveStep stack comp) ≤ textLength stack + (comp.length + 1) := by
      have hdrop := textLength_dropLast stack
      unfold resolveStep
      split_ifs
      · omega
      · omega
      · rw [textLength_append]
        simp [textLength]
    have hrest := ih (resolveStep stack comp)
    simp only [List.foldl_cons, textLength]
    omega

theorem textLength_cut (l : List CStr) : textLength (l.map (cut 32)) ≤ textLength l := by
  induction l with
  | nil => exact Nat.le_refl _
  | cons c l ih =>
    have hcut : (cut 32 c).length ≤ c.length := (List.take_sublist _ c).length_le
    simp only [List.map_cons, textLength]
    omega

theorem vfsNormalize_pathOf {comps : List CStr} (h : ∀ c ∈ comps, IsPart c ∧ c ≠ dot ∧ c ≠ dotdot)
    (hshort : ∀ c ∈ comps, c.length < 32) {outMax : Nat} (hmax : 1 < outMax) (hfits : (pathOf comps).length < outMax)
    (hbuf : (pathOf comps).length < 512) (cwd : CStr) :
    vfsNormalize cwd (pathOf comps) outMax = some (pathOf comps) := by
  have hparts : ∀ c ∈ comps, IsPart c := fun c hc => (h c hc).1
  have hall : cut 512 (pathOf comps) = pathOf comps := List.take_of_length_le (by omega)
  have hwhole : ∀ pre, pre <+: comps → pre.foldl resolveStep [] = pre :=
    fun pre hpre => resolve_canonical (fun c hc => (h c (hpre.subset hc)).2) []
  unfold vfsNormalize
  rw [if_neg (pathOf_ne_nil comps), if_pos (head_pathOf comps), hall]
  dsimp only
  rw [components_pathOf hparts]
  refine (foldl_normalizeStep hmax comps [] hparts (by simp) (by simpa [pathOf, root] using hmax) _).mpr ⟨?_, ?_⟩
  · rw [map_cut_eq_self.mpr hshort]
    intro pre hpre
    rw [hwhole pre hpre]
    obtain ⟨suf, rfl⟩ := hpre
    rcases pre with _ | ⟨c, pre⟩
    · simpa [pathOf, root] using hmax
    · rw [length_pathOf (by simp), textLength_append] at hfits
      rw [length_pathOf (by simp)]
      omega
  · rw [map_cut_eq_self.mpr hshort, hwhole comps List.prefix_rfl]

theorem vfsNormalize_names {cwd inp out : CStr} {outMax : Nat} (hmax : 1 < outMax) (hcwd : Canonical cwd)
    (hinp : inp ≠ [])
    (h : vfsNormalize cwd inp outMax = some out) :
    ∃ comps, (∀ c ∈ comps, IsPart c ∧ c ≠ dot ∧ c ≠ dotdot) ∧ (∀ c ∈ comps, c.length < 32) ∧ out = pathOf comps ∧
      (pathOf comps).length < outMax ∧ (pathOf comps).length < 512 := by
  have hloop : vfsNormalize cwd inp outMax =
      (components (cut 512 (joined cwd inp))).foldl (normalizeStep outMax) (some (pathOf [])) := if_neg hinp
  have hbuf : (cut 512 (joined cwd inp)).length ≤ 511 := List.length_take_le ..
  have hhead : (cut 512 (joined cwd inp)).head? = some slash := by
    rw [cut, List.head?_take, if_neg (by decide), head_joined hcwd]
  have htext := textLength_absolute fun _ => hhead
  have hcomps : ∀ c ∈ components (cut 512 (joined cwd inp)), IsPart c := fun c hc => isPart_components hc
  generalize components (cut 512 (joined cwd inp)) = comps at *
  have hempty : (pathOf []).length < outMax := hmax
  obtain ⟨hfits, rfl⟩ := (foldl_normalizeStep hmax comps [] hcomps (by simp) hempty out).mp (hloop ▸ h)
  have hlen := hfits _ List.prefix_rfl
  have hnames : (comps.map (cut 32)).foldl resolveStep [] = (comps.foldl resolveStep []).map (cut 32) :=
    foldl_resolveStep_cut comps []
  refine ⟨_, fun c hc => ⟨?_, noDots_foldl _ (by simp) c hc⟩, ?_, rfl, hlen, ?_⟩
  · rw [hnames] at hc
    obtain ⟨d, hd, rfl⟩ := List.mem_map.mp hc
    exact isPart_cut (isPart_foldl hcomps (by simp) d hd)
  · rw [hnames]
    intro c hc
    obtain ⟨d, -, rfl⟩ := List.mem_map.mp hc
    have hcut : (cut 32 d).length ≤ 31 := List.length_take_le ..
    omega
  · by_cases hnil : (comps.map (cut 32)).foldl resolveStep [] = []
    · rw [hnil]
      decide
    · have hstack := textLength_foldl comps []
      have hcut := textLength_cut (comps.foldl resolveStep [])
      rw [length_pathOf hnil, hnames]
      simp only [textLength] at hstack
      omega

/-- A path that comes out is in normal form, and comes out of itself. -/
theorem normalize_idempotent {cwd inp out : CStr} {outMax : Nat} (hmax : 1 < outMax) (hcwd : Canonical cwd)
    (hinp : inp ≠ []) (h : vfsNormalize cwd inp outMax = some out) :
    Normal out ∧ out.length < outMax ∧ ∀ cwd', vfsNormalize cwd' out outMax = some out := by
  obtain ⟨comps, hcomps, hshort, rfl, hfits, hbuf⟩ := vfsNormalize_names hmax hcwd hinp h
  exact ⟨Normal.pathOf hcomps, hfits, vfsNormalize_pathOf hcomps hshort hmax hfits hbuf⟩

theorem normalize_idempotent_short : Normal (ascii "/b") ∧ (ascii "/b").length < fsNameMax ∧
    ∀ cwd', vfsNormalize cwd' (ascii "/b") fsNameMax = some (ascii "/b") :=
  normalize_idempotent (by decide) canonical_root (show ascii "a//./../b/" ≠ [] by decide) (by decide +kernel)

end Siathos.Fs
