import Siathos.Usb.Wrap

/-!
# The event ring is a queue (`xhci.c`)

The controller writes events under its own cycle state, and `ev_peek` takes them. There is no Link
TRB: both sides wrap at the 16th slot.
-/

namespace Siathos.Usb

/-- `er_phys`, `er_idx` and `er_ccs`, and the controller's side. `posted` and `taken` are histories. -/
structure EventRing where
  slots : Nat → Trb
  idx : Nat
  ccs : Bool
  enq : Nat
  pcs : Bool
  posted : List Trb
  taken : Nat

namespace EventRing

def empty : EventRing := ⟨fun _ => ⟨0, 0, 0, 0⟩, 0, true, 0, true, [], 0⟩

/-- The event that `ev_peek` finds. -/
def next (r : EventRing) : Option Trb :=
  if (r.slots r.idx).cycle ≠ r.ccs then none else some (r.slots r.idx)

/-- How `ev_peek` goes on behind it. -/
def take (r : EventRing) : EventRing :=
  if r.idx + 1 ≥ 16 then { r with idx := 0, ccs := !r.ccs, taken := r.taken + 1 }
  else { r with idx := r.idx + 1, taken := r.taken + 1 }

/-- The controller writes `e`, which has its cycle state. -/
def post (r : EventRing) (e : Trb) : EventRing :=
  let r := { r with slots := Function.update r.slots r.enq e, posted := r.posted ++ [e] }
  if r.enq + 1 ≥ 16 then { r with enq := 0, pcs := !r.pcs } else { r with enq := r.enq + 1 }

def unread (r : EventRing) : List Trb := r.posted.drop r.taken

/-- The controller is in its lap `w`, the driver in its lap `f`. -/
structure Phased (w f : Nat) (r : EventRing) : Prop where
  posted : r.posted.length = 16 * w + r.enq
  enq_lt : r.enq < 16
  pcs : r.pcs = lap w
  taken : r.taken = 16 * f + r.idx
  idx_lt : r.idx < 16
  ccs : r.ccs = lap f
  taken_le : r.taken ≤ r.posted.length
  room : r.posted.length ≤ r.taken + 16
  held : ∀ k t, r.posted[k]? = some t → r.posted.length ≤ k + 16 → r.slots (k % 16) = t
  marked : ∀ k t, r.posted[k]? = some t → t.cycle = lap (k / 16)
  unwritten : ∀ i < 16, r.posted.length ≤ 16 * w + i → (r.slots i).cycle = !lap w

theorem phased_empty : Phased 0 0 empty where
  posted := rfl
  enq_lt := by simp [empty]
  pcs := rfl
  taken := rfl
  idx_lt := by simp [empty]
  ccs := rfl
  taken_le := by simp [empty]
  room := by simp [empty]
  held := by simp [empty]
  marked := by simp [empty]
  unwritten i _ _ := by simp [empty, Trb.cycle, lap]

variable {w f : Nat} {r : EventRing}

/-- `ev_peek` finds the oldest event that it has not taken. -/
theorem Phased.next_eq (h : Phased w f r) : r.next = r.posted[r.taken]? := by
  have hposted := h.posted
  have htaken := h.taken
  have hidx := h.idx_lt
  have henq := h.enq_lt
  have hroom := h.room
  have hmod : r.taken % 16 = r.idx := by omega
  have hlap : r.taken / 16 = f := by omega
  unfold next
  by_cases hmore : r.taken < r.posted.length
  · have hget := List.getElem?_eq_getElem hmore
    have hheld := h.held _ _ hget hroom
    have hmark := h.marked _ _ hget
    rw [hmod] at hheld
    rw [hlap, ← h.ccs] at hmark
    simp [hheld, hmark, hget]
  · have hle := h.taken_le
    have hsame : f = w ∧ r.idx = r.enq := by omega
    have hcycle := h.unwritten r.idx hidx (by omega)
    rw [List.getElem?_eq_none (by omega), hcycle, h.ccs, hsame.1]
    simp

theorem Phased.take (h : Phased w f r) (hmore : r.taken < r.posted.length) : ∃ f', Phased w f' r.take := by
  have htaken := h.taken
  have hidx := h.idx_lt
  have hroom := h.room
  unfold EventRing.take
  by_cases hlast : r.idx + 1 ≥ 16
  · rw [if_pos hlast]
    exact ⟨f + 1, { h with
      taken := by simp only; omega
      idx_lt := by simp
      ccs := by simp [h.ccs]
      taken_le := hmore
      room := by simp only; omega }⟩
  · rw [if_neg hlast]
    exact ⟨f, { h with
      taken := by simp only; omega
      idx_lt := by simp only; omega
      taken_le := hmore
      room := by simp only; omega }⟩

theorem Phased.post (h : Phased w f r) {e : Trb} (hcycle : e.cycle = r.pcs)
    (hroom : r.posted.length < r.taken + 16) : ∃ w', Phased w' f (r.post e) := by
  have hposted := h.posted
  have henq := h.enq_lt
  have hle := h.taken_le
  -- What the slots hold behind the new event.
  have hheld : ∀ k t, (r.posted ++ [e])[k]? = some t → r.posted.length + 1 ≤ k + 16 →
      Function.update r.slots r.enq e (k % 16) = t := by
    intro k t hk hrecent
    rw [List.getElem?_append] at hk
    split at hk
    next hkn =>
      have hne : k % 16 ≠ r.enq := by omega
      simpa [hne] using h.held k t hk (by omega)
    next hkn =>
      obtain ⟨hk0, rfl⟩ := by simpa [List.getElem?_singleton] using hk
      have heq : k % 16 = r.enq := by omega
      simp [heq]
  have hmarked : ∀ k t, (r.posted ++ [e])[k]? = some t → t.cycle = lap (k / 16) := by
    intro k t hk
    rw [List.getElem?_append] at hk
    split at hk
    next hkn => exact h.marked k t hk
    next hkn =>
      obtain ⟨hk0, rfl⟩ := by simpa [List.getElem?_singleton] using hk
      have hlap : k / 16 = w := by omega
      rw [hlap, ← h.pcs, hcycle]
  have hlength : (r.posted ++ [e]).length = r.posted.length + 1 := by simp
  unfold EventRing.post
  by_cases hlast : r.enq + 1 ≥ 16
  · simp only [if_pos hlast]
    exact ⟨w + 1, { h with
      posted := by simp only [hlength]; omega
      enq_lt := by simp
      pcs := by simp [h.pcs]
      taken_le := by simp only [hlength]; omega
      room := by simp only [hlength]; omega
      held := by simpa only [hlength] using hheld
      marked := hmarked
      unwritten := by
        intro i hi _
        have hlt : 16 * w + i < (r.posted ++ [e]).length := by omega
        have hmod : (16 * w + i) % 16 = i := by omega
        have hlap : (16 * w + i) / 16 = w := by omega
        have hget := List.getElem?_eq_getElem hlt
        have hslot := hheld _ _ hget (by omega)
        have hmark := hmarked _ _ hget
        rw [hmod] at hslot
        rw [hlap] at hmark
        simp [hslot, hmark] }⟩
  · simp only [if_neg hlast]
    exact ⟨w, { h with
      posted := by simp only [hlength]; omega
      enq_lt := by simp only; omega
      taken_le := by simp only [hlength]; omega
      room := by simp only [hlength]; omega
      held := by simpa only [hlength] using hheld
      marked := hmarked
      unwritten := by
        intro i hi hlate
        simp only [hlength] at hlate
        have hne : i ≠ r.enq := by omega
        simpa [hne] using h.unwritten i hi (by omega) }⟩

/-! ## The queue -/

/-- A ring that is a queue, from whichever laps. -/
def Ok (r : EventRing) : Prop := ∃ w f, Phased w f r

theorem ok_empty : Ok empty := ⟨0, 0, phased_empty⟩

theorem Ok.next_eq (h : Ok r) : r.next = r.unread.head? := by
  obtain ⟨w, f, h⟩ := h
  rw [h.next_eq, unread, List.head?_drop]

theorem Ok.length_unread_le (h : Ok r) : r.unread.length ≤ 16 := by
  obtain ⟨w, f, h⟩ := h
  have hroom := h.room
  rw [unread, List.length_drop]
  omega

theorem Ok.take (h : Ok r) {e : Trb} (hnext : r.next = some e) :
    Ok r.take ∧ r.unread = e :: r.take.unread := by
  obtain ⟨w, f, h⟩ := h
  rw [h.next_eq] at hnext
  obtain ⟨hmore, hget⟩ := List.getElem?_eq_some_iff.mp hnext
  obtain ⟨f', hnext⟩ := h.take hmore
  refine ⟨⟨w, f', hnext⟩, ?_⟩
  have htake : r.take.posted = r.posted ∧ r.take.taken = r.taken + 1 := by
    unfold EventRing.take
    split <;> exact ⟨rfl, rfl⟩
  rw [unread, unread, htake.1, htake.2, List.drop_eq_getElem_cons hmore, hget]

theorem Ok.post (h : Ok r) {e : Trb} (hcycle : e.cycle = r.pcs) (hroom : r.unread.length < 16) :
    Ok (r.post e) ∧ (r.post e).unread = r.unread ++ [e] := by
  obtain ⟨w, f, h⟩ := h
  have hle := h.taken_le
  have hroom : r.posted.length < r.taken + 16 := by
    simp only [unread, List.length_drop] at hroom
    omega
  obtain ⟨w', hnext⟩ := h.post hcycle hroom
  refine ⟨⟨w', f, hnext⟩, ?_⟩
  have hpost : (r.post e).posted = r.posted ++ [e] ∧ (r.post e).taken = r.taken := by
    unfold EventRing.post
    simp only
    split <;> exact ⟨rfl, rfl⟩
  rw [unread, unread, hpost.1, hpost.2, List.drop_append_of_le_length hle]

end EventRing

end Siathos.Usb
