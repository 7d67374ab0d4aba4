import Mathlib.Data.List.Basic

/-!
# Calls that leave a trace

A call changes a state, leaves a trace of what it touched, and may stop early with a result.
`Meets` is the judgment about calls: what they touch, what they keep, and what they return.
-/

namespace Lib

/-- What a call leaves. A call that stopped has an error for its value. -/
structure Outcome (σ τ ε α : Type) where
  state : σ
  trace : List τ
  val : Except ε α

def Call (σ τ ε α : Type) : Type := σ → Outcome σ τ ε α

namespace Call

variable {σ τ ε α β : Type}

def bind (m : Call σ τ ε α) (f : α → Call σ τ ε β) : Call σ τ ε β := fun s =>
  match (m s).val with
  | .error e => ⟨(m s).state, (m s).trace, .error e⟩
  | .ok a =>
    ⟨(f a (m s).state).state, (m s).trace ++ (f a (m s).state).trace, (f a (m s).state).val⟩

instance : Monad (Call σ τ ε) where
  pure a := fun s => ⟨s, [], .ok a⟩
  bind := bind

theorem bind_of_error {m : Call σ τ ε α} {s : σ} {e : ε} (h : (m s).val = .error e)
    (f : α → Call σ τ ε β) : (m >>= f) s = ⟨(m s).state, (m s).trace, .error e⟩ := by
  change Call.bind m f s = _
  unfold Call.bind
  rw [h]

theorem bind_of_ok {m : Call σ τ ε α} {s : σ} {a : α} (h : (m s).val = .ok a)
    (f : α → Call σ τ ε β) : (m >>= f) s =
      ⟨(f a (m s).state).state, (m s).trace ++ (f a (m s).state).trace, (f a (m s).state).val⟩ := by
  change Call.bind m f s = _
  unfold Call.bind
  rw [h]

theorem trace_bind_left {m : Call σ τ ε α} {s : σ} (f : α → Call σ τ ε β) :
    ∀ t ∈ (m s).trace, t ∈ ((m >>= f) s).trace := by
  intro t ht
  cases hm : (m s).val with
  | error e => rwa [bind_of_error hm]
  | ok a =>
    rw [bind_of_ok hm]
    exact List.mem_append_left _ ht

theorem trace_bind_right {m : Call σ τ ε α} {s : σ} {a : α} (hm : (m s).val = .ok a)
    (f : α → Call σ τ ε β) : ∀ t ∈ (f a (m s).state).trace, t ∈ ((m >>= f) s).trace := by
  intro t ht
  rw [bind_of_ok hm]
  exact List.mem_append_right _ ht

def read : Call σ τ ε σ := fun s => ⟨s, [], .ok s⟩

def change (f : σ → σ) : Call σ τ ε Unit := fun s => ⟨f s, [], .ok ()⟩

def touch (t : List τ) : Call σ τ ε Unit := fun s => ⟨s, t, .ok ()⟩

def stop (e : ε) : Call σ τ ε α := fun s => ⟨s, [], .error e⟩

/-- Goes on if the condition holds. -/
def demand (c : Bool) (e : ε) : Call σ τ ε Unit := if c then pure () else stop e

/-- The call, where the condition holds. -/
def when (c : Prop) [Decidable c] (m : Call σ τ ε Unit) : Call σ τ ε Unit := if c then m else pure ()

/-- The call without its trace. -/
def silent {τ' : Type} (m : Call σ τ ε α) : Call σ τ' ε α := fun s => ⟨(m s).state, [], (m s).val⟩

/-- The result of a call, however it ended. -/
def Outcome.result (o : Outcome σ τ ε ε) : ε :=
  match o.val with
  | .error e => e
  | .ok e => e

/-! ## How a call runs -/

theorem pure_apply (a : α) (s : σ) : (Pure.pure a : Call σ τ ε α) s = ⟨s, [], .ok a⟩ := rfl

theorem read_bind (f : σ → Call σ τ ε β) (s : σ) : (read >>= f) s = f s s := rfl

theorem change_bind (g : σ → σ) (f : Unit → Call σ τ ε β) (s : σ) :
    (change g >>= f) s = f () (g s) := rfl

theorem touch_bind (t : List τ) (f : Unit → Call σ τ ε β) (s : σ) :
    (touch t >>= f) s = { f () s with trace := t ++ (f () s).trace } := rfl

theorem demand_bind_true {c : Bool} (h : c = true) (e : ε) (f : Unit → Call σ τ ε β) (s : σ) :
    (demand c e >>= f) s = f () s := by
  subst h
  rfl

theorem demand_bind_false {c : Bool} (h : c = false) (e : ε) (f : Unit → Call σ τ ε β) (s : σ) :
    (demand c e >>= f) s = ⟨s, [], .error e⟩ := by
  subst h
  rfl

theorem when_bind_true {c : Prop} [Decidable c] (h : c) (m : Call σ τ ε Unit) (f : Unit → Call σ τ ε β) :
    (when c m >>= f) = (m >>= f) := by
  unfold Call.when
  rw [if_pos h]

theorem when_bind_false {c : Prop} [Decidable c] (h : ¬ c) (m : Call σ τ ε Unit)
    (f : Unit → Call σ τ ε β) (s : σ) : (when c m >>= f) s = f () s := by
  unfold Call.when
  rw [if_neg h]
  rfl

theorem when_touch_trace (c : Prop) [Decidable c] (l : List τ) (f : Unit → Call σ τ ε β) (s : σ) :
    ((when c (touch l) >>= f) s).trace = (if c then l else []) ++ (f () s).trace := by
  by_cases h : c
  · rw [when_bind_true h, touch_bind, if_pos h]
  · rw [when_bind_false h, if_neg h, List.nil_append]

/-! ## Calls without their trace -/

section

variable {τ' : Type}

theorem silent_bind (m : Call σ τ ε α) (f : α → Call σ τ ε β) :
    (silent (m >>= f) : Call σ τ' ε β) = silent m >>= fun a => silent (f a) := by
  funext s
  cases hm : (m s).val with
  | error e =>
    have hm' : (silent m s : Outcome σ τ' ε α).val = .error e := hm
    unfold silent
    rw [bind_of_error hm]
    exact (bind_of_error hm' _).symm
  | ok a =>
    have hm' : (silent m s : Outcome σ τ' ε α).val = .ok a := hm
    rw [bind_of_ok hm']
    unfold silent
    rw [bind_of_ok hm]
    rfl

theorem silent_silent (m : Call σ τ ε α) :
    (silent (silent m : Call σ τ' ε α) : Call σ τ' ε α) = silent m := rfl

theorem silent_bind_ok {m : Call σ τ ε α} {s : σ} {a : α} (h : (m s).val = .ok a)
    (f : α → Call σ τ' ε β) : (silent m >>= f) s = f a (m s).state := by
  have h' : (silent m s : Outcome σ τ' ε α).val = .ok a := h
  rw [bind_of_ok h']
  rfl

theorem silent_bind_error {m : Call σ τ ε α} {s : σ} {e : ε} (h : (m s).val = .error e)
    (f : α → Call σ τ' ε β) : (silent m >>= f) s = ⟨(m s).state, [], .error e⟩ := by
  have h' : (silent m s : Outcome σ τ' ε α).val = .error e := h
  rw [bind_of_error h']
  rfl

end

/-! ## Calls that leave the state -/

/-- The call ends well with the value, and leaves the state as it was. -/
def Gives (m : Call σ τ ε α) (s : σ) (a : α) : Prop := (m s).val = .ok a ∧ (m s).state = s

theorem Gives.pure (a : α) (s : σ) : Gives (Pure.pure a : Call σ τ ε α) s a := ⟨rfl, rfl⟩

theorem Gives.touch (t : List τ) (s : σ) : Gives (touch t : Call σ τ ε Unit) s () := ⟨rfl, rfl⟩

theorem Gives.bind {m : Call σ τ ε α} {f : α → Call σ τ ε β} {s : σ} {a : α} {b : β} (h : Gives m s a)
    (hf : Gives (f a) s b) : Gives (m >>= f) s b := by
  unfold Gives
  rw [bind_of_ok h.1, h.2]
  exact hf

/-! ## The judgment -/

/-- From a state with `inv`, the call touches what is `ok`, keeps `inv`, and returns with `post`. -/
def Meets (inv : σ → Prop) (ok : τ → Prop) (m : Call σ τ ε α) (post : α → Prop) : Prop :=
  ∀ s, inv s → (∀ t ∈ (m s).trace, ok t) ∧ inv (m s).state ∧ ∀ a, (m s).val = .ok a → post a

variable {inv : σ → Prop} {ok : τ → Prop} {m : Call σ τ ε α} {post : α → Prop}

theorem Meets.mono {post' : α → Prop} (h : Meets inv ok m post) (hpost : ∀ a, post a → post' a) :
    Meets inv ok m post' := by
  intro s hs
  obtain ⟨htrace, hstate, hval⟩ := h s hs
  exact ⟨htrace, hstate, fun a ha => hpost a (hval a ha)⟩

theorem Meets.pure {a : α} (h : post a) : Meets inv ok (Pure.pure a : Call σ τ ε α) post := by
  intro s hs
  refine ⟨?_, hs, ?_⟩
  · rintro t ⟨⟩
  · rintro _ ⟨⟩
    exact h

theorem Meets.bind {f : α → Call σ τ ε β} {post' : β → Prop} (h : Meets inv ok m post)
    (hf : ∀ a, post a → Meets inv ok (f a) post') : Meets inv ok (m >>= f) post' := by
  intro s hs
  obtain ⟨htrace, hstate, hval⟩ := h s hs
  cases hm : (m s).val with
  | error e =>
    rw [bind_of_error hm]
    refine ⟨htrace, hstate, ?_⟩
    rintro b ⟨⟩
  | ok a =>
    rw [bind_of_ok hm]
    obtain ⟨htrace', hstate', hval'⟩ := hf a (hval a hm) _ hstate
    refine ⟨fun t ht => ?_, hstate', hval'⟩
    rcases List.mem_append.mp ht with ht | ht
    · exact htrace t ht
    · exact htrace' t ht

theorem Meets.after {f : α → Call σ τ ε β} {s : σ} (hf : ∀ a, Meets inv ok (f a) fun _ => True)
    (htrace : ∀ t ∈ (m s).trace, ok t) (hstate : inv (m s).state) : ∀ t ∈ ((m >>= f) s).trace, ok t := by
  cases hm : (m s).val with
  | error e =>
    rw [bind_of_error hm]
    exact htrace
  | ok a =>
    rw [bind_of_ok hm]
    intro t ht
    rcases List.mem_append.mp ht with ht | ht
    · exact htrace t ht
    · exact (hf a _ hstate).1 t ht

theorem Meets.read : Meets inv ok (read : Call σ τ ε σ) inv := by
  intro s hs
  refine ⟨?_, hs, ?_⟩
  · rintro t ⟨⟩
  · rintro _ ⟨⟩
    exact hs

theorem Meets.change {f : σ → σ} (h : ∀ s, inv s → inv (f s)) :
    Meets inv ok (change f : Call σ τ ε Unit) fun _ => True := by
  intro s hs
  refine ⟨?_, h s hs, fun _ _ => trivial⟩
  rintro t ⟨⟩

theorem Meets.touch {t : List τ} (h : ∀ x ∈ t, ok x) :
    Meets inv ok (touch t : Call σ τ ε Unit) fun _ => True :=
  fun _ hs => ⟨h, hs, fun _ _ => trivial⟩

theorem Meets.stop {e : ε} : Meets inv ok (stop e : Call σ τ ε α) post := by
  intro s hs
  refine ⟨?_, hs, ?_⟩
  · rintro t ⟨⟩
  · rintro a ⟨⟩

theorem Meets.demand {c : Bool} {e : ε} :
    Meets inv ok (demand c e : Call σ τ ε Unit) fun _ => c = true := by
  unfold Call.demand
  split
  case isTrue h => exact Meets.pure h
  case isFalse => exact Meets.stop

theorem Meets.ite {c : Prop} [Decidable c] {m' : Call σ τ ε α} (h : c → Meets inv ok m post)
    (h' : ¬ c → Meets inv ok m' post) : Meets inv ok (if c then m else m') post := by
  split
  case isTrue hc => exact h hc
  case isFalse hc => exact h' hc

theorem Meets.when {c : Prop} [Decidable c] {m : Call σ τ ε Unit} {p : Prop}
    (h : c → Meets inv ok m fun _ => p) : Meets inv ok (when c m) fun _ => c → p :=
  Meets.ite (fun hc => (h hc).mono fun _ hp _ => hp) fun hc => Meets.pure fun h => absurd h hc

end Call

end Lib
