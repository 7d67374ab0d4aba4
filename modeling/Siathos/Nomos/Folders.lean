import Mathlib.Algebra.Order.BigOperators.Group.List
import Mathlib.Algebra.Order.Group.Nat
import Siathos.Fs.Reach
import Siathos.Nomos.Selection

/-!
# The folders of contracts

Two tables of contracts rule all paths alike exactly if they do so folder by folder.
-/

open Lib Siathos.Fs

namespace Siathos.Nomos

/-! ## Folders that cover paths -/

section

variable {a b p q dir rest : CStr}

theorem Covers.prefix (h : Covers p q) : p <+: q := by
  rcases h with rfl | ⟨rest, -, rfl, -⟩
  · exact List.prefix_rfl
  · exact List.prefix_append _ _

theorem Covers.trans (h : Covers a b) (h' : Covers b q) : Covers a q := by
  rcases h with rfl | ⟨rest, hne, rfl, hend⟩
  · exact h'
  rcases h' with rfl | ⟨rest', -, rfl, -⟩
  · exact .inr ⟨rest, hne, rfl, hend⟩
  · refine .inr ⟨rest ++ rest', by simp [hne], by rw [List.append_assoc], hend.imp_right fun hhead => ?_⟩
    rw [List.head?_append_of_ne_nil _ hne, hhead]

theorem Covers.between (ha : Covers a q) (hb : Covers b q) (hlt : a.length < b.length) : Covers a b := by
  obtain ⟨mid, rfl⟩ := List.prefix_of_prefix_length_le ha.prefix hb.prefix (Nat.le_of_lt hlt)
  have hmid : mid ≠ [] := by
    rintro rfl
    simp at hlt
  refine .inr ⟨mid, hmid, rfl, ?_⟩
  rcases ha with rfl | ⟨rest, -, hq, hend⟩
  · have hle := hb.prefix.length_le
    omega
  · refine hend.imp_right fun hhead => ?_
    obtain ⟨rest', hrest'⟩ := hb.prefix
    rw [hq, List.append_assoc] at hrest'
    rw [← List.append_cancel_left hrest', List.head?_append_of_ne_nil _ hmid] at hhead
    exact hhead

theorem flatMap_cut {comps : List CStr} (h : ∀ c ∈ comps, IsPart c)
    (heq : comps.flatMap (slash :: ·) = dir ++ slash :: rest) : ∃ pre, pre <+: comps ∧
    dir = pre.flatMap (slash :: ·) := by
  induction comps generalizing dir with
  | nil => simp at heq
  | cons c comps ih =>
    obtain ⟨hc, hcomps⟩ := List.forall_mem_cons.mp h
    cases dir with
    | nil => exact ⟨[], List.nil_prefix, rfl⟩
    | cons d dir =>
      rw [List.flatMap_cons, List.cons_append, List.cons_append, List.cons.injEq] at heq
      obtain ⟨rfl, heq⟩ := heq
      have hsplit : ∃ more, dir = c ++ more ∧ comps.flatMap (slash :: ·) = more ++ slash :: rest := by
        rcases List.append_eq_append_iff.mp heq with hmore | ⟨more, hcut, hrest⟩
        · exact hmore
        · cases more with
          | nil => exact ⟨[], by simpa using hcut.symm, by simpa using hrest.symm⟩
          | cons d more =>
            obtain ⟨rfl, -⟩ := List.cons.inj hrest
            exact absurd (hcut ▸ by simp) hc.noSlash
      obtain ⟨more, rfl, hmore⟩ := hsplit
      obtain ⟨pre, hpre, rfl⟩ := ih hcomps hmore
      exact ⟨c :: pre, List.cons_prefix_cons.mpr ⟨rfl, hpre⟩, rfl⟩

theorem proper_dir (h : Proper (dir ++ slash :: rest)) (hne : dir ≠ []) : Proper dir := by
  obtain ⟨⟨comps, hcomps, hpath⟩, hnul⟩ := h
  have hnil : comps ≠ [] := by
    rintro rfl
    have hlen := congrArg List.length hpath
    have hpos := List.length_pos_iff.mpr hne
    simp [pathOf, root] at hlen
    omega
  rw [pathOf, if_neg hnil] at hpath
  obtain ⟨pre, hpre, rfl⟩ := flatMap_cut (fun c hc => (hcomps c hc).1) hpath.symm
  have hpre' : pre ≠ [] := by
    rintro rfl
    exact hne rfl
  refine ⟨⟨pre, fun c hc => hcomps c (hpre.subset hc), by rw [pathOf, if_neg hpre']⟩, fun hmem => ?_⟩
  exact hnul (List.mem_append_left _ hmem)

/-- A canonical path, or one with a slash behind it. -/
def IsFolder (p : CStr) : Prop := Proper p ∨ ∃ dir, Proper dir ∧ dir ≠ root ∧ p = dir ++ [slash]

theorem isFolder_of_covers (hq : Proper q) (hne : p ≠ []) (h : Covers p q) : IsFolder p := by
  rcases h with rfl | ⟨rest, hrest, rfl, hlast | hhead⟩
  · exact .inl hq
  · obtain ⟨dir, rfl⟩ : ∃ dir, p = dir ++ [slash] := ⟨p.dropLast, (List.dropLast_append_getLast? _ hlast).symm⟩
    rw [List.append_assoc, List.singleton_append] at hq
    by_cases hdir : dir = []
    · subst hdir
      exact .inl ⟨canonical_root, by decide⟩
    · refine .inr ⟨dir, proper_dir hq hdir, ?_, rfl⟩
      rintro rfl
      exact hq.normal.noEmpty ⟨[], rest, rfl⟩
  · obtain ⟨rest, rfl⟩ := List.head?_eq_some_iff.mp hhead
    exact .inl (proper_dir hq hne)

theorem proper_child {name : CStr} (h : Proper dir) (hroot : dir ≠ root) (hpart : IsPart name)
    (hdots : name ≠ dot ∧ name ≠ dotdot) (hnul : 0 ∉ name) : Proper (dir ++ slash :: name) := by
  obtain ⟨⟨comps, hcomps, rfl⟩, hnul'⟩ := h
  have hnil : comps ≠ [] := by
    rintro rfl
    exact hroot rfl
  refine ⟨⟨comps ++ [name], ?_, by rw [pathOf_snoc, if_neg hnil]⟩, ?_⟩
  · intro c hc
    rcases List.mem_append.mp hc with hc | hc
    · exact hcomps c hc
    · exact List.mem_singleton.mp hc ▸ ⟨hpart, hdots⟩
  · simp [hnul, hnul', slash]

theorem IsFolder.path (h : IsFolder p) (n : Nat) :
    ∃ q, Proper q ∧ Covers p q ∧ ∀ d, Covers d q → d.length ≤ n → d.length ≤ p.length := by
  rcases h with hp | ⟨dir, hdir, hroot, rfl⟩
  · exact ⟨p, hp, .inl rfl, fun d hd _ => hd.prefix.length_le⟩
  -- a name of more bytes than the folders have
  have hname : ∀ x ∈ List.replicate (n + 2) (0x61 : UInt8), x = 0x61 := fun x hx => List.eq_of_mem_replicate hx
  have hlen : (List.replicate (n + 2) (0x61 : UInt8)).length = n + 2 := List.length_replicate
  generalize hrep : List.replicate (n + 2) (0x61 : UInt8) = name at hname hlen
  refine ⟨dir ++ slash :: name, proper_child hdir hroot ⟨?_, fun hmem => ?_⟩ ⟨?_, ?_⟩ fun hmem => ?_, ?_,
    fun d hd hle => ?_⟩
  · rintro rfl
    simp at hlen
  · exact absurd (hname _ hmem) (by decide)
  · rintro rfl
    exact absurd (hname 0x2E (by decide)) (by decide)
  · rintro rfl
    exact absurd (hname 0x2E (by decide)) (by decide)
  · exact absurd (hname _ hmem) (by decide)
  · refine .inr ⟨name, ?_, by simp, .inl (by simp)⟩
    rintro rfl
    simp at hlen
  · by_contra hlong
    rcases hd with rfl | ⟨rest, hrest, heq, hend⟩
    · simp at hle
      omega
    · have hsplit : ∃ more, d = (dir ++ [slash]) ++ more ∧ name = more ++ rest := by
        have happ : (dir ++ [slash]) ++ name = d ++ rest := by rw [← heq]; simp
        rcases List.append_eq_append_iff.mp happ with hmore | ⟨more, hshort, -⟩
        · exact hmore
        · refine absurd ?_ hlong
          rw [hshort, List.length_append]
          exact Nat.le_add_right _ _
      obtain ⟨more, rfl, rfl⟩ := hsplit
      have hmore : more ≠ [] := by
        rintro rfl
        simp at hlong
      rcases hend with hlast | hhead
      · rw [List.getLast?_append_of_ne_nil _ hmore] at hlast
        exact absurd (hname _ (List.mem_append_left _ (List.mem_of_getLast? hlast))) (by decide)
      · exact absurd (hname _ (List.mem_append_right _ (List.mem_of_mem_head? hhead))) (by decide)

end

/-! ## Tables of contracts -/

/-- The first contract for a folder. -/
def firstFor (cs : List Contract) (p : CStr) : Option Contract := cs.find? (·.caminho = p)

/-- All the contracts are active and have a folder. -/
def InForce (cs : List Contract) : Prop := ∀ c ∈ cs, c.ativo = true ∧ c.caminho ≠ []

section

variable {cs cs' : List Contract} {consented consented' : List Bool} {q p : CStr} {c d : Contract}

theorem InForce.guards (h : InForce cs) (hc : c ∈ cs) : c.guards q = true ↔ Covers c.caminho q := by
  obtain ⟨hactive, hnamed⟩ := h c hc
  rw [← Contract.protects_iff]
  exact ⟨fun h => h.covers, fun h => ⟨hactive, hnamed, h⟩⟩

theorem mem_of_firstFor (h : firstFor cs p = some c) : c ∈ cs ∧ c.caminho = p :=
  ⟨List.mem_of_find?_eq_some h, by simpa using List.find?_some h⟩

theorem firstFor_iff : firstFor cs p = some c ↔
    c.caminho = p ∧ ∃ i, cs[i]? = some c ∧ ∀ (j : Nat) (d : Contract), cs[j]? = some d → d.caminho = p → i ≤ j := by
  unfold firstFor
  rw [List.find?_eq_some_iff_getElem]
  simp only [decide_eq_true_eq, Bool.not_eq_true', decide_eq_false_iff_not]
  refine and_congr_right fun _ => exists_congr fun i => ?_
  constructor
  · rintro ⟨hlt, rfl, hbefore⟩
    refine ⟨List.getElem?_eq_getElem hlt, fun j d hd hp => ?_⟩
    by_contra hji
    obtain ⟨hj, rfl⟩ := List.getElem?_eq_some_iff.mp hd
    exact hbefore j (by omega) hp
  · rintro ⟨hc, hbefore⟩
    obtain ⟨hlt, rfl⟩ := List.getElem?_eq_some_iff.mp hc
    refine ⟨hlt, rfl, fun j hj hp => ?_⟩
    have := hbefore j _ (List.getElem?_eq_getElem (by omega)) hp
    omega

theorem contractFor_firstFor (h : InForce cs) : synallagmaContractFor ⟨cs, consented⟩ q = some c ↔
    firstFor cs c.caminho = some c ∧ Covers c.caminho q ∧
      ∀ d ∈ cs, Covers d.caminho q → d.caminho.length ≤ c.caminho.length := by
  rw [mostSpecific_iff, firstFor_iff]
  constructor
  · rintro ⟨i, hslot, hguards, hlongest, hfirst⟩
    have hcovers := (h.guards (List.mem_of_getElem? hslot)).mp hguards
    refine ⟨⟨rfl, i, hslot, fun j d hd hp => ?_⟩, hcovers, fun d hd hcov => ?_⟩
    · refine hfirst j d hd ?_ (congrArg List.length hp)
      rw [h.guards (List.mem_of_getElem? hd), hp]
      exact hcovers
    · obtain ⟨j, hj⟩ := List.mem_iff_getElem?.mp hd
      exact hlongest j d hj ((h.guards hd).mpr hcov)
  · rintro ⟨⟨-, i, hslot, hfirst⟩, hcovers, hlongest⟩
    refine ⟨i, hslot, (h.guards (List.mem_of_getElem? hslot)).mpr hcovers, fun j d hd hguards => ?_,
      fun j d hd hguards hlen => ?_⟩
    · exact hlongest d (List.mem_of_getElem? hd) ((h.guards (List.mem_of_getElem? hd)).mp hguards)
    · have hcov := (h.guards (List.mem_of_getElem? hd)).mp hguards
      exact hfirst j d hd (List.prefix_of_prefix_length_le hcov.prefix hcovers.prefix
        (Nat.le_of_eq hlen) |>.eq_of_length hlen)

theorem exists_contractFor (h : InForce cs) (hc : c ∈ cs) (hcovers : Covers c.caminho q) :
    ∃ d, synallagmaContractFor ⟨cs, consented⟩ q = some d := by
  have hspec := synallagmaContractFor_spec cs consented q
  cases hfor : synallagmaContractFor ⟨cs, consented⟩ q with
  | some d => exact ⟨d, rfl⟩
  | none =>
    rw [hfor] at hspec
    exact absurd ((h.guards hc).mpr hcovers) (hspec c hc)

theorem ruled_alike_iff (h : InForce cs) (h' : InForce cs') {R : Contract → Contract → Prop}
    (hR : ∀ c c', R c c' → c'.caminho = c.caminho) :
    (∀ q, Proper q → ∀ c ∈ synallagmaContractFor ⟨cs, consented⟩ q, ∃ c' ∈ synallagmaContractFor ⟨cs', consented'⟩ q,
    R c c') ↔
      (∀ p, IsFolder p → ∀ c ∈ firstFor cs p, ∃ c' ∈ firstFor cs' p, R c c') ∧
        ∀ c' ∈ cs', IsFolder c'.caminho → (∃ c ∈ cs, Covers c.caminho c'.caminho) →
        ∃ c ∈ cs, c.caminho = c'.caminho := by
  constructor
  · intro hrule
    refine ⟨fun p hp c hc => ?_, fun c' hc' hp' hbelow => ?_⟩
    · obtain ⟨hmem, rfl⟩ := mem_of_firstFor hc
      obtain ⟨q, hq, hcovers, hlongest⟩ := hp.path ((cs.map (·.caminho.length)).sum)
      have hfor : synallagmaContractFor ⟨cs, consented⟩ q = some c :=
        (contractFor_firstFor h).mpr
          ⟨hc, hcovers, fun d hd hcov => hlongest _ hcov (List.le_sum_of_mem (List.mem_map_of_mem hd))⟩
      obtain ⟨c', hc', hcc⟩ := hrule q hq c hfor
      refine ⟨c', ?_, hcc⟩
      rw [← hR c c' hcc]
      exact ((contractFor_firstFor h').mp hc').1
    · obtain ⟨c, hc, hcov⟩ := hbelow
      obtain ⟨q, hq, hcovers, hlongest⟩ := hp'.path ((cs'.map (·.caminho.length)).sum)
      obtain ⟨e, he⟩ : ∃ e, synallagmaContractFor ⟨cs, consented⟩ q = some e :=
        exists_contractFor h hc (hcov.trans hcovers)
      obtain ⟨d, hd, hed⟩ := hrule q hq e he
      obtain ⟨hfirst, hdcov, hdlong⟩ := (contractFor_firstFor h').mp hd
      have hdmem := (mem_of_firstFor hfirst).1
      have hle := hlongest _ hdcov (List.le_sum_of_mem (List.mem_map_of_mem hdmem))
      have hlen : d.caminho.length = c'.caminho.length := Nat.le_antisymm hle (hdlong c' hc' hcovers)
      refine ⟨e, (mem_of_firstFor ((contractFor_firstFor h).mp he).1).1, ?_⟩
      rw [← hR e d hed]
      exact (List.prefix_of_prefix_length_le hdcov.prefix hcovers.prefix (Nat.le_of_eq hlen)).eq_of_length hlen
  · rintro ⟨hsame, hapart⟩ q hq c hc
    obtain ⟨hfirst, hcovers, hlongest⟩ := (contractFor_firstFor h).mp hc
    obtain ⟨hmem, -⟩ := mem_of_firstFor hfirst
    obtain ⟨c', hc', hcc⟩ := hsame _ (isFolder_of_covers hq (h c hmem).2 hcovers) c hfirst
    obtain ⟨hmem', heq⟩ := mem_of_firstFor hc'
    refine ⟨c', (contractFor_firstFor h').mpr ⟨heq ▸ hc', heq ▸ hcovers, fun d hd hcov => ?_⟩, hcc⟩
    by_contra hlong
    rw [heq, Nat.not_le] at hlong
    obtain ⟨e, he, hde⟩ := hapart d hd (isFolder_of_covers hq (h' d hd).2 hcov) ⟨c, hmem, hcovers.between hcov hlong⟩
    have hle := hlongest e he (hde ▸ hcov)
    rw [hde] at hle
    omega

end

end Siathos.Nomos
