import Mathlib.Data.List.Nodup

/-!
# Singly linked lists

A list begins at a pointer, each node keeps the pointer to the following one, and 0 ends the list.
A `Link` is a place that keeps such a pointer, so that a walk can write back to where it read.
-/

namespace Lib

/-- The head of the list, or the `next` of a node. -/
inductive Link
  | head
  | next (h : Nat)
  deriving DecidableEq, Repr

namespace Link

/-- The last link that a walk over the nodes has read through. -/
def after (l : Link) : List Nat → Link
  | [] => l
  | h :: t => after (.next h) t

theorem after_mem (l : Link) (t : List Nat) : l.after t = l ∨ ∃ h ∈ t, l.after t = .next h := by
  induction t generalizing l with
  | nil => exact Or.inl rfl
  | cons h t ih =>
    right
    rcases ih (.next h) with heq | ⟨c, hc, heq⟩
    · exact ⟨h, List.mem_cons_self, heq⟩
    · exact ⟨c, List.mem_cons_of_mem h hc, heq⟩

end Link

variable {read read' : Link → Nat}

/-- The nodes that the link leads to, one after the other. -/
def Chain (read : Link → Nat) : Link → List Nat → Prop
  | l, [] => read l = 0
  | l, h :: t => read l = h ∧ h ≠ 0 ∧ Chain read (.next h) t

namespace Chain

theorem congr {l : Link} {t : List Nat} (h : Chain read l t) (hl : read' l = read l)
    (ht : ∀ c ∈ t, read' (.next c) = read (.next c)) : Chain read' l t := by
  induction t generalizing l with
  | nil => exact hl.trans h
  | cons c t ih =>
    rw [List.forall_mem_cons] at ht
    exact ⟨hl.trans h.1, h.2.1, ih h.2.2 ht.1 ht.2⟩

theorem move {l l' : Link} {t : List Nat} (h : Chain read l t) (hl : read' l' = read l)
    (ht : ∀ c ∈ t, read' (.next c) = read (.next c)) : Chain read' l' t := by
  cases t with
  | nil => exact hl.trans h
  | cons c t =>
    rw [List.forall_mem_cons] at ht
    exact ⟨hl.trans h.1, h.2.1, h.2.2.congr ht.1 ht.2⟩

theorem drop {l : Link} {s t : List Nat} (h : Chain read l (s ++ t)) : Chain read (l.after s) t := by
  induction s generalizing l with
  | nil => exact h
  | cons c s ih => exact ih h.2.2

theorem relink {l : Link} {s t t' : List Nat} (h : Chain read l (s ++ t))
    (hnd : (l :: s.map Link.next).Nodup)
    (hs : ∀ m ∈ l :: s.map Link.next, m ≠ l.after s → read' m = read m)
    (ht : Chain read' (l.after s) t') : Chain read' l (s ++ t') := by
  induction s generalizing l with
  | nil => exact ht
  | cons c s ih =>
    obtain ⟨hl, hnd⟩ := List.nodup_cons.mp hnd
    have hne : l ≠ l.after (c :: s) := by
      rintro heq
      apply hl
      rcases Link.after_mem (.next c) s with h' | ⟨d, hd, h'⟩
      · rw [heq, Link.after, h']
        simp
      · rw [heq, Link.after, h']
        simp [hd]
    exact ⟨(hs l List.mem_cons_self hne).trans h.1, h.2.1,
      ih h.2.2 hnd (fun m hm => hs m (List.mem_cons_of_mem l hm)) ht⟩

theorem unique {l : Link} {s t : List Nat} (h : Chain read l s) (h' : Chain read l t) : s = t := by
  induction s generalizing l t with
  | nil =>
    cases t with
    | nil => rfl
    | cons c t => exact absurd (h'.1.symm.trans h) h'.2.1
  | cons c s ih =>
    cases t with
    | nil => exact absurd (h.1.symm.trans h') h.2.1
    | cons d t =>
      have heq : c = d := h.1.symm.trans h'.1
      subst heq
      rw [ih h.2.2 h'.2.2]

end Chain

end Lib
