import Mathlib.Data.Nat.ModEq
import Siathos.Lib.Run

/-!
# Turns in cyclic order

`N` seats stand in a circle. A turn goes from one seat to the first behind it that asks for it. Who asks
and is passed over is nearer to its turn afterwards, so that it waits less than one round.
-/

namespace Lib.RoundRobin

variable {N : Nat} {asks : Nat → Prop} {c i j : Nat}

/-- `j` is the first seat that asks, from the one behind `c` on. -/
def Turn (N : Nat) (asks : Nat → Prop) (c j : Nat) : Prop :=
  ∃ d < N, j = (c + 1 + d) % N ∧ asks j ∧ ∀ e < d, ¬ asks ((c + 1 + e) % N)

/-- How many seats lie between `c` and `i`. -/
def ahead (N c i : Nat) : Nat := (i + N - (c + 1) % N) % N

theorem ahead_lt (h : 0 < N) (c i : Nat) : ahead N c i < N := Nat.mod_lt _ h

theorem seat_ahead (hi : i < N) : (c + 1 + ahead N c i) % N = i := by
  have hc := Nat.mod_lt (c + 1) (Nat.zero_lt_of_lt hi)
  rw [ahead, Nat.add_mod, Nat.mod_mod, ← Nat.add_mod_mod, Nat.mod_mod, Nat.add_mod_mod]
  rw [show (c + 1) % N + (i + N - (c + 1) % N) = i + N by omega, Nat.add_mod_right, Nat.mod_eq_of_lt hi]

theorem ahead_lt_of_ne (hi : i < N) (hc : c < N) (hne : i ≠ c) : ahead N c i + 1 < N := by
  unfold ahead
  rcases Nat.lt_or_ge (c + 1) N with h | h
  · rw [Nat.mod_eq_of_lt h]
    rcases Nat.lt_or_ge i (c + 1) with hlt | hge
    · rw [Nat.mod_eq_of_lt (by omega)]
      omega
    · rw [show i + N - (c + 1) = i - (c + 1) + N by omega, Nat.add_mod_right, Nat.mod_eq_of_lt (by omega)]
      omega
  · obtain rfl : N = c + 1 := by omega
    rw [Nat.mod_self, Nat.sub_zero, Nat.add_mod_right, Nat.mod_eq_of_lt hi]
    omega

/-- A seat that is `d` places further on is `d` places nearer. -/
theorem ahead_add (hi : i < N) {d : Nat} (hd : d < ahead N c i) :
    ahead N ((c + 1 + d) % N) i + d + 1 = ahead N c i := by
  have hN := Nat.zero_lt_of_lt hi
  have hlt := ahead_lt hN c i
  have hseat := seat_ahead (c := c) hi
  have hj := Nat.mod_lt (c + 1 + d) hN
  have hnew := ahead_lt hN ((c + 1 + d) % N) i
  have hnext := seat_ahead (c := (c + 1 + d) % N) hi
  -- both walks end at `i`, so their lengths agree up to whole rounds
  have hmod : (c + 1 + (ahead N ((c + 1 + d) % N) i + d + 1)) % N = (c + 1 + ahead N c i) % N := by
    rw [hseat]
    conv_rhs => rw [← hnext]
    rw [Nat.add_assoc ((c + 1 + d) % N), Nat.mod_add_mod]
    congr 1
    omega
  have hcong : Nat.ModEq N (ahead N ((c + 1 + d) % N) i + d + 1) (ahead N c i) :=
    Nat.ModEq.add_left_cancel' (c + 1) hmod
  have hne : ahead N ((c + 1 + d) % N) i + 1 < N := by
    apply ahead_lt_of_ne hi hj
    intro heq
    have hsame : (c + 1 + ahead N c i) % N = (c + 1 + d) % N := hseat.trans heq
    have hback : Nat.ModEq N (ahead N c i) d := Nat.ModEq.add_left_cancel' (c + 1) hsame
    rw [Nat.ModEq, Nat.mod_eq_of_lt hlt, Nat.mod_eq_of_lt (by omega)] at hback
    omega
  rw [Nat.ModEq, Nat.mod_eq_of_lt hlt] at hcong
  rcases Nat.lt_or_ge (ahead N ((c + 1 + d) % N) i + d + 1) N with hsmall | hbig
  · rwa [Nat.mod_eq_of_lt hsmall] at hcong
  · rw [Nat.mod_eq_sub_mod hbig, Nat.mod_eq_of_lt (by omega)] at hcong
    omega

theorem Turn.nearer (h : Turn N asks c j) (hi : i < N) (hasks : asks i) (hne : j ≠ i) :
    ahead N j i < ahead N c i := by
  obtain ⟨d, hd, rfl, -, hfirst⟩ := h
  have hlt : d < ahead N c i := by
    rcases Nat.lt_trichotomy d (ahead N c i) with hlt | heq | hgt
    · exact hlt
    · subst heq
      exact absurd (seat_ahead hi) hne
    · refine absurd hasks ?_
      have hno := hfirst _ hgt
      rwa [seat_ahead hi] at hno
  have hadd := ahead_add hi hlt
  omega

end Lib.RoundRobin

/-! ## Runs in which something is bound to happen -/

namespace Lib

variable {σ ω : Type} {step : σ → ω → σ → Prop}

/-- One of the operations of the run is an `event`. -/
def Run.Meets (step : σ → ω → σ → Prop) (event : σ → ω → σ → Prop) (s : σ) (ops : List ω) (t : σ) : Prop :=
  ∃ before o after u v, ops = before ++ o :: after ∧ Run step s before u ∧ step u o v ∧ event u o v ∧
    Run step v after t

/-- As long as the event stays away, each operation that `counts` uses up some of what is `left`. -/
theorem Run.meets {waits : σ → Prop} {event : σ → ω → σ → Prop} {left : σ → Nat} {counts : ω → Bool}
    (hstep : ∀ s o t, waits s → step s o t → event s o t ∨ waits t ∧ left t + (if counts o then 1 else 0) ≤ left s)
    {s t : σ} {ops : List ω} (h : Run step s ops t) (hs : waits s) :
    Run.Meets step event s ops t ∨ waits t ∧ left t + ops.countP counts ≤ left s := by
  induction h with
  | nil s => exact .inr ⟨hs, by simp⟩
  | @cons s t u o ops hfirst hrest ih =>
    rcases hstep s o t hs hfirst with hevent | ⟨ht, hle⟩
    · exact .inl ⟨[], o, ops, s, t, rfl, .nil s, hfirst, hevent, hrest⟩
    · rcases ih ht with ⟨before, o', after, v, w, rfl, hbefore, hmid, hevent, hafter⟩ | ⟨hu, hless⟩
      · exact .inl ⟨o :: before, o', after, v, w, rfl, .cons hfirst hbefore, hmid, hevent, hafter⟩
      · refine .inr ⟨hu, ?_⟩
        rw [List.countP_cons]
        omega

end Lib
