import Mathlib.Data.List.Basic

/-!
# Runs of a step relation

A system is a relation `step s o t`: operation `o` leads from state `s` to state `t`.
A run is a list of operations. `Run.invariant` is the induction that safety proofs use.
-/

namespace Lib

variable {σ ω : Type}

/-- The operations `ops` lead from the first state to the last. -/
inductive Run (step : σ → ω → σ → Prop) : σ → List ω → σ → Prop
  | nil (s : σ) : Run step s [] s
  | cons {s t u : σ} {o : ω} {ops : List ω} :
      step s o t → Run step t ops u → Run step s (o :: ops) u

/-- The steps of `step` whose state and operation meet `ok`. -/
def Guarded (ok : σ → ω → Prop) (step : σ → ω → σ → Prop) (s : σ) (o : ω) (t : σ) : Prop :=
  ok s o ∧ step s o t

namespace Run

variable {step : σ → ω → σ → Prop}

theorem single {s t : σ} {o : ω} (h : step s o t) : Run step s [o] t := cons h (nil t)

theorem append {s t u : σ} {ops ops' : List ω} (h : Run step s ops t) (h' : Run step t ops' u) :
    Run step s (ops ++ ops') u := by
  induction h with
  | nil _ => exact h'
  | cons hstep _ ih => exact cons hstep (ih h')

theorem split {s u : σ} {ops ops' : List ω} (h : Run step s (ops ++ ops') u) :
    ∃ t, Run step s ops t ∧ Run step t ops' u := by
  induction ops generalizing s with
  | nil => exact ⟨s, nil s, h⟩
  | cons o ops ih =>
    cases h with
    | cons hstep hrest =>
      obtain ⟨t, hfirst, hlast⟩ := ih hrest
      exact ⟨t, cons hstep hfirst, hlast⟩

theorem invariant {inv : σ → Prop} (hstep : ∀ s o t, inv s → step s o t → inv t)
    {s t : σ} {ops : List ω} (h : Run step s ops t) (hs : inv s) : inv t := by
  induction h with
  | nil _ => exact hs
  | cons h _ ih => exact ih (hstep _ _ _ hs h)

theorem mono {step' : σ → ω → σ → Prop} (hsub : ∀ s o t, step s o t → step' s o t)
    {s t : σ} {ops : List ω} (h : Run step s ops t) : Run step' s ops t := by
  induction h with
  | nil s => exact nil s
  | cons h _ ih => exact cons (hsub _ _ _ h) ih

theorem unguard {ok : σ → ω → Prop} {s t : σ} {ops : List ω} (h : Run (Guarded ok step) s ops t) :
    Run step s ops t :=
  h.mono fun _ _ _ hg => hg.2

end Run

/-! ## Steps given by a function -/

variable (allowed : σ → ω → Prop) (apply : σ → ω → σ)

/-- The steps of `apply`, where `allowed` lets them happen. -/
def Exec (s : σ) (o : ω) (t : σ) : Prop := allowed s o ∧ apply s o = t

/-- Each operation of the list is allowed when its turn comes. -/
def Admits : σ → List ω → Prop
  | _, [] => True
  | s, o :: ops => allowed s o ∧ Admits (apply s o) ops

instance decidableAdmits [∀ s o, Decidable (allowed s o)] :
    ∀ (s : σ) (ops : List ω), Decidable (Admits allowed apply s ops)
  | _, [] => isTrue trivial
  | s, o :: ops =>
    have := decidableAdmits (apply s o) ops
    inferInstanceAs (Decidable (_ ∧ _))

variable {allowed apply}

theorem Run.of_admits {ops : List ω} {s : σ} (h : Admits allowed apply s ops) :
    Run (Exec allowed apply) s ops (ops.foldl apply s) := by
  induction ops generalizing s with
  | nil => exact Run.nil s
  | cons o ops ih => exact Run.cons ⟨h.1, rfl⟩ (ih h.2)

theorem Run.of_admits_guarded {ok : σ → ω → Prop} {ops : List ω} {s : σ}
    (h : Admits (fun s o => ok s o ∧ allowed s o) apply s ops) :
    Run (Guarded ok (Exec allowed apply)) s ops (ops.foldl apply s) :=
  (Run.of_admits h).mono fun _ _ _ ⟨⟨hok, ha⟩, ht⟩ => ⟨hok, ha, ht⟩

end Lib
