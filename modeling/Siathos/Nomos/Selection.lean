import Siathos.Fs.Canonical
import Siathos.Nomos.Specific

/-!
# Selection and consent

`synallagma_contract_for` should find the contract with the longest protected path, and
`synallagma_consented` the consent in the slot of that one.
-/

open Lib Siathos.Fs

namespace Siathos.Nomos

/-- The path goes on below the folder. -/
def IsAncestor (dir path : CStr) : Prop :=
  ∃ rest, rest ≠ [] ∧ path = dir ++ rest ∧ (dir.getLast? = some slash ∨ rest.head? = some slash)

def Covers (dir path : CStr) : Prop := dir = path ∨ IsAncestor dir path

theorem covers_iff_components {dir path : CStr} (hdir : Canonical dir) (hpath : Canonical path) :
    Covers dir path ↔ components dir <+: components path := by
  obtain ⟨ds, hds, rfl⟩ := hdir
  obtain ⟨ps, hps, rfl⟩ := hpath
  have hparts : ∀ c ∈ ds, IsPart c := fun c hc => (hds c hc).1
  have hparts' : ∀ c ∈ ps, IsPart c := fun c hc => (hps c hc).1
  rw [components_pathOf hparts, components_pathOf hparts']
  constructor
  · rintro (heq | ⟨rest, -, hrest, hend⟩)
    · have hsame : ds = ps := by rw [← components_pathOf hparts, heq, components_pathOf hparts']
      exact hsame ▸ List.prefix_rfl
    · by_cases hnil : ds = []
      · simp [hnil]
      · have hlast := getLast_pathOf hparts hnil
        obtain ⟨rest, rfl⟩ := List.head?_eq_some_iff.mp (hend.resolve_left hlast)
        rw [← components_pathOf hparts', hrest, components_append, components_pathOf hparts]
        exact List.prefix_append ..
  · rintro ⟨es, rfl⟩
    by_cases hes : es = []
    · left
      simp [hes]
    · right
      by_cases hnil : ds = []
      · subst hnil
        have hlen := (one_lt_length_pathOf fun c hc => (hparts' c (by simpa using hc)).nonempty).mpr hes
        obtain ⟨rest, hrest⟩ := List.head?_eq_some_iff.mp (head_pathOf es)
        refine ⟨rest, ?_, by rw [List.nil_append, hrest]; rfl, Or.inl (by simp [pathOf, root])⟩
        rintro rfl
        simp [hrest] at hlen
      · obtain ⟨e, es, rfl⟩ := List.exists_cons_of_ne_nil hes
        exact ⟨(e :: es).flatMap (slash :: ·), by simp, by simp [pathOf, hnil], Or.inr (by simp)⟩

/-- The contract is in force and its protected path covers the path. -/
structure Contract.Protects (c : Contract) (path : CStr) : Prop where
  active : c.ativo = true
  named : c.caminho ≠ []
  covers : Covers c.caminho path

theorem Contract.protects_iff {c : Contract} {path : CStr} : c.Protects path ↔ c.guards path = true := by
  have hguards : c.guards path = true ↔ c.ativo = true ∧ c.caminho ≠ [] ∧ c.caminho <+: path ∧
      ((path.drop c.caminho.length).head?.all (· == slash) = true ∨ c.caminho.getLast? = some slash) := by
    simp [Contract.guards, and_assoc]
  rw [hguards]
  constructor
  · rintro ⟨hactive, hnamed, hcovers⟩
    refine ⟨hactive, hnamed, ?_⟩
    rcases hcovers with heq | ⟨rest, -, rfl, hend⟩
    · simp [heq]
    · refine ⟨List.prefix_append .., ?_⟩
      rcases hend with hlast | hhead
      · exact Or.inr hlast
      · simp [hhead]
  · rintro ⟨hactive, hnamed, ⟨rest, rfl⟩, hend⟩
    refine ⟨hactive, hnamed, ?_⟩
    by_cases hrest : rest = []
    · left
      simp [hrest]
    · obtain ⟨b, rest, rfl⟩ := List.exists_cons_of_ne_nil hrest
      refine Or.inr ⟨b :: rest, by simp, rfl, ?_⟩
      rcases hend with hhead | hlast
      · right
        simpa using hhead
      · exact Or.inl hlast

/-- The slot `i` holds the first of the longest contracts that protect the path. -/
structure Selected (s : Synallagma) (path : CStr) (i : Nat) (c : Contract) : Prop where
  slot : s.contracts[i]? = some c
  protects : c.Protects path
  longest : ∀ (j : Nat) (d : Contract), s.contracts[j]? = some d → d.Protects path →
    d.caminho.length ≤ c.caminho.length
  earliest : ∀ (j : Nat) (d : Contract), s.contracts[j]? = some d → d.Protects path →
    d.caminho.length = c.caminho.length → i ≤ j

theorem selected_iff {s : Synallagma} {path : CStr} {i : Nat} {c : Contract} :
    Selected s path i c ↔ MostSpecific s path i c := by
  constructor
  · rintro ⟨hslot, hprotects, hlongest, hearliest⟩
    exact ⟨hslot, Contract.protects_iff.mp hprotects, fun j d hd hg => hlongest j d hd (Contract.protects_iff.mpr hg),
      fun j d hd hg => hearliest j d hd (Contract.protects_iff.mpr hg)⟩
  · rintro ⟨hslot, hguards, hlongest, hfirst⟩
    exact ⟨hslot, Contract.protects_iff.mpr hguards, fun j d hd hg => hlongest j d hd (Contract.protects_iff.mp hg),
      fun j d hd hg => hfirst j d hd (Contract.protects_iff.mp hg)⟩

/-- The contract of a path is the selected one, and its consent is that of its own slot. -/
theorem contractFor_selects (s : Synallagma) (path : CStr) :
    (∀ c, synallagmaContractFor s path = some c ↔ ∃ i, Selected s path i c) ∧
    (synallagmaContractFor s path = none ↔ ∀ c ∈ s.contracts, ¬ c.Protects path) ∧
    ∀ i c, Selected s path i c → synallagmaConsented s c.caminho = s.consented.getD i false := by
  refine ⟨fun c => ?_, ?_, fun i c h => (selected_iff.mp h).consented⟩
  · rw [mostSpecific_iff]
    simp only [selected_iff]
  · have hspec := synallagmaContractFor_spec s.contracts s.consented path
    cases hfor : synallagmaContractFor s path with
    | none =>
      rw [show synallagmaContractFor ⟨s.contracts, s.consented⟩ path = none from hfor] at hspec
      simp only [true_iff]
      exact fun c hc hp => hspec c hc (Contract.protects_iff.mp hp)
    | some c =>
      obtain ⟨i, hi⟩ := mostSpecific_iff.mp hfor
      simp only [reduceCtorEq, false_iff]
      exact fun hnone => hnone c (List.mem_of_getElem? hi.slot) (Contract.protects_iff.mpr hi.guards)

end Siathos.Nomos
