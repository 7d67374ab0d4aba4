import Siathos.Ipc.Svc

/-!
# Who holds a name

The registry as the lists of pids that its active entries give to each name, in table order.
-/

namespace Siathos.Ipc

/-- The pids of the active entries of a name. -/
def holders (name : List UInt8) (t : SvcTable) : List Nat :=
  (t.filter fun e => e.active && decide (e.name = name)).map (·.pid)

@[simp] theorem holders_nil (name : List UInt8) : holders name [] = [] := rfl

theorem holders_cons (name : List UInt8) (e : SvcEntry) (t : SvcTable) :
    holders name (e :: t) =
      if e.active = true ∧ e.name = name then e.pid :: holders name t else holders name t := by
  unfold holders
  rw [List.filter_cons]
  by_cases h : e.active = true ∧ e.name = name
  · simp [h]
  · rw [if_neg h, if_neg (by simpa using h)]

theorem holders_init (name : List UInt8) : holders name svcInit = [] := by
  unfold holders svcInit
  simp

theorem svcUpdate_holders {name : List UInt8} {pid : Nat} {t : SvcTable} :
    match svcUpdate name pid t with
    | none => holders name t = []
    | some t' => (∃ q qs, holders name t = q :: qs ∧ holders name t' = pid :: qs) ∧
        ∀ m, m ≠ name → holders m t' = holders m t := by
  induction t with
  | nil => simp [svcUpdate]
  | cons e rest ih =>
    unfold svcUpdate
    by_cases he : e.active = true ∧ e.name = name
    · rw [if_pos (by simpa using he)]
      refine ⟨⟨e.pid, holders name rest, ?_, ?_⟩, ?_⟩
      · rw [holders_cons, if_pos he]
      · rw [holders_cons, if_pos he]
      · intro m hm
        simp only [holders_cons]
        rw [if_neg (fun h => hm (h.2.symm.trans he.2)), if_neg (fun h => hm (h.2.symm.trans he.2))]
    · rw [if_neg (by simpa using he)]
      revert ih
      cases svcUpdate name pid rest with
      | none =>
        intro ih
        simpa [holders_cons, he] using ih
      | some t' =>
        rintro ⟨⟨q, qs, hq, hqs⟩, hother⟩
        refine ⟨⟨q, qs, ?_, ?_⟩, ?_⟩
        · rw [holders_cons, if_neg he, hq]
        · rw [holders_cons, if_neg he, hqs]
        · intro m hm
          simp only [holders_cons, hother m hm]

theorem svcInsert_holders {name : List UInt8} {pid : Nat} (hlen : name.length ≤ 31) {t t' : SvcTable}
    (h : svcInsert name pid t = some t') (hfree : holders name t = []) :
    holders name t' = [pid] ∧ ∀ m, m ≠ name → holders m t' = holders m t := by
  have htake : name.take 31 = name := List.take_of_length_le hlen
  induction t generalizing t' with
  | nil => simp [svcInsert] at h
  | cons e rest ih =>
    rw [holders_cons] at hfree
    unfold svcInsert at h
    split at h
    · next hinactive =>
      simp only [Bool.not_eq_true'] at hinactive
      simp only [hinactive, Bool.false_eq_true, false_and, if_false] at hfree
      obtain rfl := Option.some.inj h
      simp only [holders_cons, htake, hinactive, Bool.false_eq_true, false_and, and_self, true_and,
        if_true, if_false, hfree]
      intro m hm
      rw [if_neg (Ne.symm hm)]
    · obtain ⟨rest', hr, rfl⟩ := Option.map_eq_some_iff.mp h
      split at hfree
      · simp at hfree
      · next he =>
        obtain ⟨hname, hother⟩ := ih hr hfree
        refine ⟨by rw [holders_cons, if_neg he, hname], ?_⟩
        intro m hm
        simp only [holders_cons, hother m hm]

theorem svcRegister_holders {name : List UInt8} {pid : Nat} (hlen : name.length ≤ 31)
    {t t' : SvcTable} (h : svcRegister t name pid = some t') (hone : (holders name t).length ≤ 1) :
    holders name t' = [pid] ∧ ∀ m, m ≠ name → holders m t' = holders m t := by
  unfold svcRegister at h
  split at h
  · simp at h
  have hupdate := @svcUpdate_holders name pid t
  cases hu : svcUpdate name pid t with
  | some u =>
    rw [hu] at h hupdate
    obtain rfl := Option.some.inj h
    obtain ⟨⟨q, qs, hq, hqs⟩, hother⟩ := hupdate
    rw [hq, List.length_cons] at hone
    have : qs = [] := List.length_eq_zero_iff.mp (by omega)
    exact ⟨by rw [hqs, this], hother⟩
  | none =>
    rw [hu] at h hupdate
    exact svcInsert_holders hlen h hupdate

theorem svcLookup_holders (alive : Nat → Bool) (name : List UInt8) (t : SvcTable) :
    (svcLookup alive name t).2 = (holders name t).find? alive ∧
      holders name (svcLookup alive name t).1 = (holders name t).dropWhile (!alive ·) ∧
      ∀ m, m ≠ name → holders m (svcLookup alive name t).1 = holders m t := by
  induction t with
  | nil => simp [svcLookup]
  | cons e rest ih =>
    obtain ⟨hfound, hdropped, hother⟩ := ih
    unfold svcLookup
    by_cases he : e.active = true ∧ e.name = name
    · rw [if_pos (by simpa using he)]
      have hne : ∀ m, m ≠ name → ¬ (e.active = true ∧ e.name = m) := fun m hm h =>
        hm (h.2.symm.trans he.2)
      split
      · next hlive => simp [holders_cons, he, hlive]
      · next hdead =>
        refine ⟨?_, ?_, ?_⟩
        · simp [holders_cons, he, hdead, hfound]
        · simp [holders_cons, he, hdead, hdropped]
        · intro m hm
          simp [holders_cons, hother m hm, hne m hm]
    · rw [if_neg (by simpa using he)]
      refine ⟨?_, ?_, ?_⟩
      · rw [hfound, holders_cons, if_neg he]
      · rw [holders_cons, if_neg he, holders_cons, if_neg he, hdropped]
      · intro m hm
        simp only [holders_cons, hother m hm]

theorem svcLookup_same {alive : Nat → Bool} {name : List UInt8} {t : SvcTable}
    (h : ∀ q ∈ (holders name t).head?, alive q = true) : (svcLookup alive name t).1 = t := by
  induction t with
  | nil => rfl
  | cons e rest ih =>
    rw [holders_cons] at h
    unfold svcLookup
    by_cases he : e.active = true ∧ e.name = name
    · rw [if_pos he] at h
      rw [if_pos (by simpa using he), if_pos (h e.pid rfl)]
    · rw [if_neg he] at h
      rw [if_neg (by simpa using he)]
      simp only [ih h]

end Siathos.Ipc
