import Mathlib.Data.List.Pairwise
import Mathlib.Tactic.Common

/-!
# Address ranges and tilings

A `Span` is a half-open range of addresses. `Tiles pieces wholes` says that the pieces do not
overlap and cover exactly the addresses that the wholes cover.
-/

namespace Lib

/-- The addresses from `base` up to `base + len`. -/
structure Span where
  base : Nat
  len : Nat
  deriving DecidableEq, Repr

namespace Span

instance : Membership Nat Span := ⟨fun s a => s.base ≤ a ∧ a < s.base + s.len⟩

@[simp] theorem mem_mk (a b n : Nat) : a ∈ Span.mk b n ↔ b ≤ a ∧ a < b + n := Iff.rfl

theorem mem_def (s : Span) (a : Nat) : a ∈ s ↔ s.base ≤ a ∧ a < s.base + s.len := Iff.rfl

instance (a : Nat) (s : Span) : Decidable (a ∈ s) := decidable_of_iff _ (mem_def s a).symm

/-- No address is in both. -/
def Apart (s t : Span) : Prop := ∀ a, a ∈ s → a ∉ t

/-- Every address of `s` is in `t`. -/
def Within (s t : Span) : Prop := ∀ a, a ∈ s → a ∈ t

theorem Apart.symm {s t : Span} (h : Apart s t) : Apart t s := fun a ht hs => h a hs ht

theorem Within.trans {s t u : Span} (h : Within s t) (h' : Within t u) : Within s u :=
  fun a ha => h' a (h a ha)

theorem Within.refl (s : Span) : Within s s := fun _ h => h

theorem Apart.mono {s s' t t' : Span} (h : Apart s t) (hs : Within s' s) (ht : Within t' t) :
    Apart s' t' :=
  fun a ha ha' => h a (hs a ha) (ht a ha')

theorem apart_iff (s t : Span) :
    Apart s t ↔ s.len = 0 ∨ t.len = 0 ∨ s.base + s.len ≤ t.base ∨ t.base + t.len ≤ s.base := by
  constructor
  · intro h
    by_contra hn
    push Not at hn
    refine h (max s.base t.base) ?_ ?_ <;> rw [mem_def] <;> omega
  · intro h a hs ht
    rw [mem_def] at hs ht
    omega

theorem within_iff (s t : Span) :
    Within s t ↔ s.len = 0 ∨ (t.base ≤ s.base ∧ s.base + s.len ≤ t.base + t.len) := by
  constructor
  · intro h
    by_cases h0 : s.len = 0
    · exact Or.inl h0
    · right
      have hlo := h s.base ⟨Nat.le_refl _, by omega⟩
      have hhi := h (s.base + s.len - 1) ⟨by omega, by omega⟩
      rw [mem_def] at hlo hhi
      omega
  · intro h a ha
    rw [mem_def] at ha ⊢
    omega

instance (s t : Span) : Decidable (Apart s t) := decidable_of_iff _ (apart_iff s t).symm
instance (s t : Span) : Decidable (Within s t) := decidable_of_iff _ (within_iff s t).symm

/-- The span that starts at `s` and goes on through the bytes of `t` that follow it. -/
def join (s t : Span) : Span := ⟨s.base, s.len + t.len⟩

/-- `t` starts where `s` ends. -/
def Meets (s t : Span) : Prop := s.base + s.len = t.base

instance (s t : Span) : Decidable (Meets s t) := inferInstanceAs (Decidable (_ = _))

theorem mem_join {s t : Span} (h : Meets s t) (a : Nat) : a ∈ join s t ↔ a ∈ s ∨ a ∈ t := by
  simp only [Meets] at h
  simp only [mem_def, join]
  omega

theorem apart_of_meets {s t : Span} (h : Meets s t) : Apart s t := by
  rw [apart_iff]
  exact Or.inr (Or.inr (Or.inl (Nat.le_of_eq h)))

theorem apart_join {s t u : Span} (h : Meets s t) : Apart (join s t) u ↔ Apart s u ∧ Apart t u := by
  simp only [Apart, mem_join h, or_imp, forall_and]

end Span

open Lib.Span

/-- Some span of the list holds the address. -/
def Covers (l : List Span) (a : Nat) : Prop := ∃ s ∈ l, a ∈ s

/-- The pieces are apart and cover the same addresses as the wholes. -/
def Tiles (pieces wholes : List Span) : Prop :=
  pieces.Pairwise Apart ∧ ∀ a, Covers pieces a ↔ Covers wholes a

@[simp] theorem covers_nil (a : Nat) : ¬ Covers [] a := by simp [Covers]

@[simp] theorem covers_cons (s : Span) (l : List Span) (a : Nat) :
    Covers (s :: l) a ↔ a ∈ s ∨ Covers l a := by simp [Covers]

@[simp] theorem covers_append (l m : List Span) (a : Nat) :
    Covers (l ++ m) a ↔ Covers l a ∨ Covers m a := by
  simp only [Covers, List.mem_append, or_and_right, exists_or]

theorem covers_join {s t : Span} (h : Meets s t) (l : List Span) (a : Nat) :
    Covers (join s t :: l) a ↔ Covers (s :: t :: l) a := by
  simp only [covers_cons, mem_join h, or_assoc]

theorem pairwise_join {s t : Span} (h : Meets s t) (l : List Span) :
    (join s t :: l).Pairwise Apart ↔ (s :: t :: l).Pairwise Apart := by
  simp only [List.pairwise_cons, apart_join h, List.mem_cons, forall_eq_or_imp, apart_of_meets h,
    true_and, forall_and]
  tauto

theorem pairwise_apart_append {l m : List Span} :
    (l ++ m).Pairwise Apart ↔
      l.Pairwise Apart ∧ m.Pairwise Apart ∧ ∀ a, Covers l a → ¬ Covers m a := by
  rw [List.pairwise_append]
  refine and_congr_right fun _ => and_congr_right fun _ => ⟨?_, ?_⟩
  · rintro h a ⟨s, hs, ha⟩ ⟨t, ht, ha'⟩
    exact h s hs t ht a ha ha'
  · exact fun h s hs t ht a ha ha' => h a ⟨s, hs, ha⟩ ⟨t, ht, ha'⟩

theorem Tiles.refl {l : List Span} (h : l.Pairwise Apart) : Tiles l l := ⟨h, fun _ => Iff.rfl⟩

theorem Tiles.snoc {pieces wholes : List Span} {s : Span} (h : Tiles pieces wholes)
    (hs : ∀ a, Covers wholes a → a ∉ s) : Tiles (pieces ++ [s]) (wholes ++ [s]) := by
  refine ⟨pairwise_apart_append.mpr ⟨h.1, List.pairwise_singleton _ _, fun a ha => ?_⟩, fun a => ?_⟩
  · simpa using hs a ((h.2 a).mp ha)
  · simp only [covers_append, h.2]

theorem Tiles.replace {pre xs ys post wholes : List Span} (h : Tiles (pre ++ xs ++ post) wholes)
    (hp : ys.Pairwise Apart) (hc : ∀ a, Covers ys a ↔ Covers xs a) :
    Tiles (pre ++ ys ++ post) wholes := by
  obtain ⟨hapart, hcov⟩ := h
  simp only [pairwise_apart_append, covers_append, ← hc] at hapart hcov
  obtain ⟨⟨hpre, -, hpx⟩, hpost, hxp⟩ := hapart
  refine ⟨?_, fun a => ?_⟩
  · simp only [pairwise_apart_append, covers_append]
    exact ⟨⟨hpre, hp, hpx⟩, hpost, hxp⟩
  · simpa only [covers_append] using hcov a

theorem nodup_base {l : List Span} (h : l.Pairwise Apart) (hpos : ∀ s ∈ l, 0 < s.len) :
    (l.map (·.base)).Nodup := by
  rw [List.Nodup, List.pairwise_map]
  refine h.imp_of_mem fun {s t} hs ht hst hbase => hst s.base ⟨Nat.le_refl _, ?_⟩ ⟨?_, ?_⟩
  · have := hpos s hs
    omega
  · omega
  · have := hpos t ht
    omega

end Lib
