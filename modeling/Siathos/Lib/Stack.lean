import Mathlib.Logic.Function.Basic
import Siathos.Lib.Span

/-!
# Words on a stack

A memory maps the address of a word to the word. The stack grows down, 8 bytes for each word.
-/

namespace Lib

variable {W : Type}

/-- Writes the words from `base` up. -/
def store (m : Nat → W) (base : Nat) : List W → Nat → W
  | [] => m
  | w :: ws => Function.update (store m (base + 8) ws) base w

/-- The memory holds the words from `base` up. -/
def HoldsAt (m : Nat → W) (base : Nat) (ws : List W) : Prop :=
  ∀ k (h : k < ws.length), m (base + 8 * k) = ws[k]

def push (s : (Nat → W) × Nat) (w : W) : (Nat → W) × Nat :=
  (Function.update s.1 (s.2 - 8) w, s.2 - 8)

def pushAll (m : Nat → W) (rsp : Nat) (ws : List W) : (Nat → W) × Nat := ws.foldl push (m, rsp)

theorem store_frame {m : Nat → W} {base : Nat} {ws : List W} {a : Nat}
    (h : a ∉ Span.mk base (8 * ws.length)) : store m base ws a = m a := by
  induction ws generalizing base with
  | nil => rfl
  | cons w ws ih =>
    simp only [Span.mem_mk, List.length_cons] at h ih
    rw [store, Function.update_of_ne (by omega)]
    exact ih (by omega)

theorem holdsAt_store (m : Nat → W) (base : Nat) (ws : List W) :
    HoldsAt (store m base ws) base ws := by
  induction ws generalizing base with
  | nil => intro k h; simp at h
  | cons w ws ih =>
    intro k h
    cases k with
    | zero => simp [store]
    | succ k =>
      have hk : k < ws.length := by simpa using h
      have haddr : base + 8 * (k + 1) = base + 8 + 8 * k := by omega
      rw [store, Function.update_of_ne (by omega), haddr, ih (base + 8) k hk]
      rfl

theorem HoldsAt.congr {m m' : Nat → W} {base : Nat} {ws : List W} (h : HoldsAt m base ws)
    (heq : ∀ a ∈ Span.mk base (8 * ws.length), m' a = m a) : HoldsAt m' base ws := by
  intro k hk
  have hmem : base + 8 * k ∈ Span.mk base (8 * ws.length) := by
    rw [Span.mem_mk]
    omega
  rw [heq _ hmem]
  exact h k hk

theorem store_append (m : Nat → W) (base : Nat) (ws vs : List W) :
    store m base (ws ++ vs) = store (store m (base + 8 * ws.length) vs) base ws := by
  induction ws generalizing base with
  | nil => simp [store]
  | cons w ws ih =>
    have haddr : base + 8 + 8 * ws.length = base + 8 * (ws.length + 1) := by omega
    rw [List.cons_append, store, ih, haddr]
    rfl

theorem pushAll_eq {m : Nat → W} {rsp : Nat} {ws : List W} (h : 8 * ws.length ≤ rsp) :
    pushAll m rsp ws = (store m (rsp - 8 * ws.length) ws.reverse, rsp - 8 * ws.length) := by
  induction ws generalizing m rsp with
  | nil => rfl
  | cons w ws ih =>
    simp only [List.length_cons] at h ⊢
    have hrest : pushAll m rsp (w :: ws) = pushAll (Function.update m (rsp - 8) w) (rsp - 8) ws := rfl
    rw [hrest, ih (by omega), List.reverse_cons, store_append, List.length_reverse]
    have hlow : rsp - 8 - 8 * ws.length = rsp - 8 * (ws.length + 1) := by omega
    have hhigh : rsp - 8 * (ws.length + 1) + 8 * ws.length = rsp - 8 := by omega
    rw [hlow, hhigh]
    rfl

end Lib
