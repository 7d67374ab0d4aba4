import Mathlib.Data.List.Basic
import Mathlib.Logic.Function.Basic

/-!
# A ring buffer is a bounded queue

`cap` slots, the index of the oldest element, and how many there are. `toList` is the queue.
-/

namespace Lib

structure Ring (α : Type) (cap : Nat) where
  slots : Nat → α
  head : Nat
  count : Nat
  head_lt : head < cap
  count_le : count ≤ cap

namespace Ring

variable {α : Type} {cap : Nat}

/-- The elements, oldest first. -/
def toList (r : Ring α cap) : List α :=
  (List.range r.count).map fun k => r.slots ((r.head + k) % cap)

@[simp] theorem length_toList (r : Ring α cap) : r.toList.length = r.count := by
  simp [toList]

def empty [Inhabited α] (h : 0 < cap) : Ring α cap := ⟨fun _ => default, 0, 0, h, Nat.zero_le _⟩

@[simp] theorem toList_empty [Inhabited α] (h : 0 < cap) : (empty h : Ring α cap).toList = [] := rfl

/-- Adds an element at the end. A full ring stays as it is. -/
def push (r : Ring α cap) (x : α) : Ring α cap :=
  if h : r.count < cap then
    { r with
      slots := Function.update r.slots ((r.head + r.count) % cap) x
      count := r.count + 1
      count_le := h }
  else r

/-- Takes the oldest element. -/
def pop (r : Ring α cap) : Option (α × Ring α cap) :=
  if r.count = 0 then none
  else some (r.slots r.head,
    { r with
      head := (r.head + 1) % cap
      count := r.count - 1
      head_lt := Nat.mod_lt _ (Nat.zero_lt_of_lt r.head_lt)
      count_le := Nat.le_trans (Nat.sub_le _ _) r.count_le })

theorem slot_ne {head k n : Nat} (hk : k < n) (hn : n < cap) : (head + k) % cap ≠ (head + n) % cap := by
  intro h
  have hsub : (head + n - (head + k)) % cap = 0 := Nat.sub_mod_eq_zero_of_mod_eq h.symm
  rw [Nat.add_sub_add_left, Nat.mod_eq_of_lt (by omega)] at hsub
  omega

theorem toList_push (r : Ring α cap) (x : α) :
    (r.push x).toList = if r.count < cap then r.toList ++ [x] else r.toList := by
  unfold push
  split
  case isTrue h =>
    simp only [toList, List.range_succ, List.map_append, List.map_cons, List.map_nil,
      Function.update_self]
    rw [List.append_cancel_right_eq]
    refine List.map_congr_left fun k hk => ?_
    exact Function.update_of_ne (slot_ne (List.mem_range.mp hk) h) _ _
  case isFalse h => rfl

theorem pop_none {r : Ring α cap} : r.pop = none ↔ r.toList = [] := by
  simp [pop, toList]

theorem toList_of_pop {r r' : Ring α cap} {x : α} (h : r.pop = some (x, r')) :
    r.toList = x :: r'.toList := by
  unfold pop at h
  split at h
  · exact absurd h (by simp)
  rename_i hne
  obtain ⟨rfl, rfl⟩ := Prod.mk.inj (Option.some.inj h)
  obtain ⟨n, hn⟩ := Nat.exists_eq_succ_of_ne_zero hne
  simp only [toList, hn, List.range_succ_eq_map, List.map_cons, List.map_map, Nat.succ_sub_one,
    Nat.add_zero, Nat.mod_eq_of_lt r.head_lt, List.cons.injEq, true_and]
  refine List.map_congr_left fun k _ => ?_
  simp only [Function.comp_apply, Nat.mod_add_mod]
  rw [Nat.add_assoc, Nat.succ_eq_one_add]

end Ring

end Lib
