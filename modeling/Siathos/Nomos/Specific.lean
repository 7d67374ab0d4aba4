import Mathlib.Data.List.Induction
import Siathos.Nomos.Synallagma

/-!
# The contract of a path

`synallagma_contract_for` finds the most specific contract, and `synallagma_consented` looks at the
consent given to that one.
-/

open Lib

namespace Siathos.Nomos

/-- The contract in the slot `i` is the first of the longest that guard the path. -/
structure MostSpecific (s : Synallagma) (q : CStr) (i : Nat) (c : Contract) : Prop where
  slot : s.contracts[i]? = some c
  guards : c.guards q = true
  longest : ∀ (j : Nat) (d : Contract), s.contracts[j]? = some d → d.guards q = true →
  d.caminho.length ≤ c.caminho.length
  first : ∀ (j : Nat) (d : Contract), s.contracts[j]? = some d → d.guards q = true →
    d.caminho.length = c.caminho.length → i ≤ j

theorem Contract.guards_length {c : Contract} {q : CStr} (h : c.guards q = true) : 0 < c.caminho.length := by
  simp only [Contract.guards, Bool.and_eq_true, Bool.not_eq_true', List.isEmpty_eq_false_iff] at h
  exact List.length_pos_iff.mpr h.1.1.2

theorem synallagmaContractFor_append (l : List Contract) (d : Contract) (consented : List Bool) (q : CStr) :
    synallagmaContractFor ⟨l ++ [d], consented⟩ q =
      if d.guards q = true ∧ d.caminho.length >
          ((synallagmaContractFor ⟨l, consented⟩ q).map (·.caminho.length)).getD 0 then some d
      else synallagmaContractFor ⟨l, consented⟩ q := by
  simp [synallagmaContractFor, List.foldl_append]

theorem synallagmaContractFor_spec (l : List Contract) (consented : List Bool) (q : CStr) :
    match synallagmaContractFor ⟨l, consented⟩ q with
    | none => ∀ d ∈ l, ¬ d.guards q = true
    | some c => ∃ i, MostSpecific ⟨l, consented⟩ q i c := by
  induction l using List.reverseRecOn with
  | nil => simp [synallagmaContractFor]
  | append_singleton l d ih =>
    have hslot : ∀ (j : Nat) (e : Contract), (l ++ [d])[j]? = some e → l[j]? = some e ∨ (j = l.length ∧ e = d) := by
      intro j e he
      rw [List.getElem?_append] at he
      split at he
      · exact Or.inl he
      · right
        have hj : j - l.length = 0 := by
          by_contra hne
          rw [List.getElem?_eq_none (by simp; omega)] at he
          cases he
        rw [hj] at he
        refine ⟨by omega, ?_⟩
        simpa using he.symm
    rw [synallagmaContractFor_append]
    cases hbest : synallagmaContractFor ⟨l, consented⟩ q with
    | none =>
      rw [hbest] at ih
      have hnone : ∀ (j : Nat) (e : Contract), l[j]? = some e → ¬ e.guards q = true := fun j e he =>
        ih e (List.mem_of_getElem? he)
      by_cases hd : d.guards q = true
      · rw [if_pos ⟨hd, Contract.guards_length hd⟩]
        refine ⟨l.length, by simp, hd, fun j e he hg => ?_, fun j e he hg _ => ?_⟩
        · rcases hslot j e he with h | ⟨_, rfl⟩
          · exact absurd hg (hnone j e h)
          · exact Nat.le_refl _
        · rcases hslot j e he with h | ⟨rfl, _⟩
          · exact absurd hg (hnone j e h)
          · exact Nat.le_refl _
      · rw [if_neg (fun h => hd h.1)]
        intro e he
        rcases List.mem_append.mp he with h | h
        · exact ih e h
        · rw [List.mem_singleton.mp h]
          exact hd
    | some c =>
      rw [hbest] at ih
      obtain ⟨i, hi⟩ := ih
      have hlt : i < l.length := (List.getElem?_eq_some_iff.mp hi.slot).1
      split
      case h_1 heq => split_ifs at heq
      case h_2 e heq =>
      split_ifs at heq with hd
      · rw [← Option.some.inj heq]
        simp only [Option.map_some, Option.getD_some] at hd
        refine ⟨l.length, by simp, hd.1, fun j e he hg => ?_, fun j e he hg hlen => ?_⟩
        · rcases hslot j e he with h | ⟨_, rfl⟩
          · have := hi.longest j e h hg
            omega
          · exact Nat.le_refl _
        · rcases hslot j e he with h | ⟨rfl, _⟩
          · have := hi.longest j e h hg
            omega
          · exact Nat.le_refl _
      · rw [← Option.some.inj heq]
        simp only [Option.map_some, Option.getD_some, not_and, Nat.not_lt] at hd
        refine ⟨i, ?_, hi.guards, fun j e he hg => ?_, fun j e he hg hlen => ?_⟩
        · rw [List.getElem?_append_left hlt]
          exact hi.slot
        · rcases hslot j e he with h | ⟨_, rfl⟩
          · exact hi.longest j e h hg
          · exact hd hg
        · rcases hslot j e he with h | ⟨rfl, _⟩
          · exact hi.first j e h hg hlen
          · exact Nat.le_of_lt hlt

theorem MostSpecific.unique {s : Synallagma} {q : CStr} {i j : Nat} {c d : Contract}
    (hc : MostSpecific s q i c) (hd : MostSpecific s q j d) : i = j ∧ c = d := by
  have hlen : c.caminho.length = d.caminho.length := by
    have h := hc.longest j d hd.slot hd.guards
    have h' := hd.longest i c hc.slot hc.guards
    omega
  have hij : i = j := by
    have h := hc.first j d hd.slot hd.guards hlen.symm
    have h' := hd.first i c hc.slot hc.guards hlen
    omega
  subst hij
  exact ⟨rfl, Option.some.inj (hc.slot.symm.trans hd.slot)⟩

theorem mostSpecific_iff {s : Synallagma} {q : CStr} {c : Contract} :
    synallagmaContractFor s q = some c ↔ ∃ i, MostSpecific s q i c := by
  have hspec := synallagmaContractFor_spec s.contracts s.consented q
  constructor
  · intro h
    rw [show synallagmaContractFor ⟨s.contracts, s.consented⟩ q = some c from h] at hspec
    exact hspec
  · rintro ⟨i, hi⟩
    cases hfor : synallagmaContractFor s q with
    | none =>
      rw [show synallagmaContractFor ⟨s.contracts, s.consented⟩ q = none from hfor] at hspec
      exact absurd hi.guards (hspec c (List.mem_of_getElem? hi.slot))
    | some d =>
      rw [show synallagmaContractFor ⟨s.contracts, s.consented⟩ q = some d from hfor] at hspec
      obtain ⟨j, hj⟩ := hspec
      rw [(hi.unique hj).2]

theorem MostSpecific.consented {s : Synallagma} {q : CStr} {i : Nat} {c : Contract}
    (h : MostSpecific s q i c) : synallagmaConsented s c.caminho = s.consented.getD i false := by
  obtain ⟨hlt, hget⟩ := List.getElem?_eq_some_iff.mp h.slot
  have hactive : c.ativo = true := by
    have hg := h.guards
    simp only [Contract.guards, Bool.and_eq_true] at hg
    exact hg.1.1.1
  have hfind : s.contracts.findIdx? (fun d => d.ativo && decide (d.caminho = c.caminho)) = some i := by
    rw [List.findIdx?_eq_some_iff_getElem]
    refine ⟨hlt, by simp [hget, hactive], fun j hj => ?_⟩
    intro hsame
    simp only [Bool.and_eq_true, decide_eq_true_eq] at hsame
    have hjlt : j < s.contracts.length := by omega
    have hguards : (s.contracts[j]).guards q = true := by
      have hg := h.guards
      simp only [Contract.guards, hsame.2, hsame.1, hactive] at hg ⊢
      exact hg
    have := h.first j _ (List.getElem?_eq_getElem hjlt) hguards (by rw [hsame.2])
    omega
  unfold synallagmaConsented
  rw [hfind]

/-- The contract of the path, where there is one, is consented and grants the right. -/
def Lawful (s : Synallagma) (right : Contract → Bool) (q : CStr) : Prop :=
  ∀ i c, MostSpecific s q i c → s.consented.getD i false = true ∧ right c = true

theorem lawful_iff {s : Synallagma} {right : Contract → Bool} {q : CStr} : Lawful s right q ↔
    ∀ c ∈ synallagmaContractFor s q, synallagmaConsented s c.caminho = true ∧ right c = true := by
  constructor
  · intro h c hc
    obtain ⟨i, hi⟩ := mostSpecific_iff.mp hc
    rw [hi.consented]
    exact h i c hi
  · intro h i c hi
    rw [← hi.consented]
    exact h c (mostSpecific_iff.mpr ⟨i, hi⟩)

end Siathos.Nomos
