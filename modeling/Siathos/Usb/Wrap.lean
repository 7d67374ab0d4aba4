import Mathlib.Data.List.Infix
import Siathos.Usb.Ring

/-!
# The cycle states across wraps

The producer is in its lap `w` and the consumer in its lap `f`. The slots hold the last 15 TRBs
enqueued, each with the cycle bit of its lap, so the consumer never takes another. The Link TRB has
the cycle bit of the lap that a wrap begins, though: a consumer that has not followed it yet stops
there.
-/

open Lib

namespace Siathos.Usb

/-! ## The bits of a TRB -/

@[simp] theorem getElem_bitOf (ccs : Bool) {i : Nat} (hi : i < 32) : (bitOf ccs)[i] = (ccs && i == 0) := by
  cases ccs with
  | false => simp [bitOf]
  | true => simp [bitOf, BitVec.getElem_one, beq_eq_decide]

theorem Request.cycle_trb (r : Request) (ccs : Bool) : (r.trb ccs).cycle = ccs := by
  cases r with
  | command ptr dw2 slotid type => cases type <;> simp [Request.trb, Trb.cycle, Command.type]
  | setup => simp [Request.trb, Trb.cycle, trbSetup, trbIdt]
  | data pa wl dirin => cases dirin <;> simp [Request.trb, Trb.cycle, trbData, trbIchn, trbDirIn]
  | status dirin => cases dirin <;> simp [Request.trb, Trb.cycle, trbStatus, trbIoc, trbDirIn]
  | normal => simp [Request.trb, Trb.cycle, trbNormal, trbIoc]

theorem type_bits {t : Trb} (h : t.type = trbLink) : t.dw3.getLsbD 11 = true ∧ t.dw3.getLsbD 12 = true := by
  have hbit : ∀ i, t.type.getLsbD i = trbLink.getLsbD i := by
    intro i
    rw [h]
  have h1 := hbit 1
  have h2 := hbit 2
  simp only [Trb.type, BitVec.getLsbD_and, BitVec.getLsbD_ushiftRight] at h1 h2
  simpa [trbLink] using And.intro h1 h2

theorem Request.type_trb (r : Request) (ccs : Bool) : (r.trb ccs).type ≠ trbLink := by
  intro h
  obtain ⟨h11, h12⟩ := type_bits h
  cases r with
  | command ptr dw2 slotid type => cases type <;> simp [Request.trb, Command.type] at h11 h12
  | setup => simp [Request.trb, trbSetup, trbIdt] at h12
  | data pa wl dirin => cases dirin <;> simp [Request.trb, trbData, trbIchn, trbDirIn] at h12
  | status dirin => cases dirin <;> simp [Request.trb, trbStatus, trbIoc, trbDirIn] at h11
  | normal => simp [Request.trb, trbNormal, trbIoc] at h12

/-- What `ring_init` and `advance` leave in the last slot. -/
def linkTrb (base : BitVec 64) (ccs : Bool) : Trb := ⟨low base, high base, 0, linkControl ccs⟩

@[simp] theorem pointer_linkTrb (base : BitVec 64) (ccs : Bool) : (linkTrb base ccs).pointer = base := by
  apply BitVec.eq_of_getLsbD_eq
  intro i hi
  simp only [linkTrb, Trb.pointer, low, high]
  rw [BitVec.getLsbD_append]
  by_cases hlow : i < 32
  · simp [hlow]
  · have hsum : 32 + (i - 32) = i := by omega
    have hhigh : i - 32 < 32 := by omega
    simp [hlow, hsum, hhigh]

@[simp] theorem cycle_linkTrb (base : BitVec 64) (ccs : Bool) : (linkTrb base ccs).cycle = ccs := by
  simp [linkTrb, Trb.cycle, linkControl, trbLink, trbTc]

@[simp] theorem type_linkTrb (base : BitVec 64) (ccs : Bool) : (linkTrb base ccs).type = trbLink := by
  cases ccs <;> simp [linkTrb, Trb.type, linkControl, trbLink, trbTc, bitOf]

@[simp] theorem toggle_linkTrb (base : BitVec 64) (ccs : Bool) : (linkTrb base ccs).toggle = true := by
  simp [linkTrb, Trb.toggle, linkControl, trbLink, trbTc]

/-! ## The index -/

@[simp] theorem World.fill_idx (s : World) : s.fill.idx = s.idx := by
  unfold World.fill
  split <;> rfl

@[simp] theorem World.publish_idx (s : World) : s.publish.idx = s.idx := by
  unfold World.publish
  split <;> rfl

theorem World.advance_idx_lt {s : World} (h : s.idx < 15) : s.advance.idx < 15 := by
  unfold World.advance
  by_cases hlast : s.idx + 1 ≥ 15
  · simp [hlast]
  · rw [if_neg hlast]
    simp only
    omega

/-! ## Laps -/

/-- The cycle state of a lap. -/
def lap (k : Nat) : Bool := k % 2 == 0

@[simp] theorem lap_succ (k : Nat) : lap (k + 1) = !lap k := by
  unfold lap
  obtain h | h := Nat.mod_two_eq_zero_or_one k
  · simp [h, Nat.add_mod]
  · simp [h, Nat.add_mod]

/-- How many TRBs are written whose `advance` is still to come. -/
def Phase.ahead : Phase → Nat
  | written => 1
  | _ => 0

/-- The producer is in the lap `w`, the consumer in the lap `f`. -/
structure Phased (base : BitVec 64) (w f : Nat) (s : World) : Prop where
  produced : s.enqueued.length = 15 * w + s.idx + s.phase.ahead
  idx_lt : s.idx < 15
  ccs : s.ccs = lap w
  consumed : s.processed.length = 15 * f + s.deq
  deq_le : s.deq ≤ 15
  dcs : s.dcs = lap f
  link : s.ring 15 = linkTrb base (lap w)
  lag : s.enqueued.length ≤ s.processed.length + 15
  room : s.phase = .filled → s.enqueued.length < s.processed.length + 15
  sound : s.processed <+: s.enqueued
  -- The slot that is being filled holds no TRB.
  held : ∀ k t, s.enqueued[k]? = some t → s.enqueued.length ≤ k + 15 →
    (s.phase = .filled → s.enqueued.length < k + 15) → s.ring (k % 15) = t
  marked : ∀ k t, s.enqueued[k]? = some t → t.cycle = lap (k / 15) ∧ t.type ≠ trbLink
  unwritten : ∀ i < 15, s.enqueued.length ≤ 15 * w + i → (s.ring i).cycle = !lap w
  filled : s.phase = .filled → ∃ r rest, s.pending = r :: rest ∧
    s.ring s.idx = { r.trb s.ccs with dw3 := (s.ring s.idx).dw3 }

theorem phased_ringInit (base : BitVec 64) : Phased base 0 0 (ringInit base) where
  produced := rfl
  idx_lt := by simp [ringInit]
  ccs := rfl
  consumed := rfl
  deq_le := by simp [ringInit]
  dcs := rfl
  link := rfl
  lag := by simp [ringInit]
  room := by simp [ringInit]
  sound := List.prefix_rfl
  held := by simp [ringInit]
  marked := by simp [ringInit]
  unwritten i hi _ := by simp [ringInit, Nat.ne_of_lt hi, Trb.cycle, lap]
  filled := by simp [ringInit]

namespace Phased

variable {base : BitVec 64} {w f : Nat} {s : World}

theorem call (h : Phased base w f s) (hphase : s.phase = .idle) (pending : List Request) :
    Phased base w f { s with pending := pending } :=
  { h with filled := by simp [hphase] }

theorem fill (h : Phased base w f s) (hphase : s.phase = .idle)
    (hroom : s.enqueued.length < s.processed.length + 15) : Phased base w f s.fill := by
  unfold World.fill
  cases hpending : s.pending with
  | nil => exact h
  | cons r rest =>
    have hproduced : s.enqueued.length = 15 * w + s.idx := by
      simpa [hphase, Phase.ahead] using h.produced
    have hidx := h.idx_lt
    exact { h with
      produced := by simpa [Phase.ahead] using hproduced
      link := by simpa [Ne.symm (Nat.ne_of_lt hidx)] using h.link
      room := fun _ => hroom
      held := by
        intro k t hk hrecent hlate
        have hkn : k < s.enqueued.length := (List.getElem?_eq_some_iff.mp hk).1
        have hlate : s.enqueued.length < k + 15 := hlate rfl
        have hne : k % 15 ≠ s.idx := by omega
        simpa [hne] using h.held k t hk hrecent (by simp [hphase])
      unwritten := by
        intro i hi hlate
        have hcycle := h.unwritten i hi hlate
        by_cases heq : i = s.idx
        · subst heq
          simpa [Trb.cycle] using hcycle
        · simpa [heq] using hcycle
      filled := fun _ => ⟨r, rest, rfl, by simp⟩ }

theorem publish (h : Phased base w f s) (hphase : s.phase = .filled) : Phased base w f s.publish := by
  obtain ⟨r, rest, hpending, hslot⟩ := h.filled hphase
  have hproduced : s.enqueued.length = 15 * w + s.idx := by
    simpa [hphase, Phase.ahead] using h.produced
  have hidx := h.idx_lt
  have hroom := h.room hphase
  have htrb : { s.ring s.idx with dw3 := (r.trb s.ccs).dw3 } = r.trb s.ccs := by
    rw [hslot]
  unfold World.publish
  rw [hpending]
  simp only [htrb]
  exact { h with
    produced := by simp [Phase.ahead, hproduced]
    link := by simpa [Ne.symm (Nat.ne_of_lt hidx)] using h.link
    lag := by simpa using Nat.le_of_lt_succ hroom
    room := by simp
    sound := h.sound.trans (List.prefix_append _ _)
    held := by
      intro k t hk hrecent _
      simp only [List.length_append, List.length_singleton] at hrecent
      rw [List.getElem?_append] at hk
      split at hk
      next hkn =>
        have hne : k % 15 ≠ s.idx := by omega
        simpa [hne] using h.held k t hk (by omega) fun _ => hrecent
      next hkn =>
        obtain ⟨hk0, rfl⟩ := by simpa [List.getElem?_singleton] using hk
        have heq : k % 15 = s.idx := by omega
        simp [heq]
    marked := by
      intro k t hk
      rw [List.getElem?_append] at hk
      split at hk
      next hkn => exact h.marked k t hk
      next hkn =>
        obtain ⟨hk0, rfl⟩ := by simpa [List.getElem?_singleton] using hk
        have hlap : k / 15 = w := by omega
        rw [hlap, ← h.ccs]
        exact ⟨r.cycle_trb s.ccs, r.type_trb s.ccs⟩
    unwritten := by
      intro i hi hlate
      simp only [List.length_append, List.length_singleton] at hlate
      have hne : i ≠ s.idx := by omega
      simpa [hne] using h.unwritten i hi (by omega)
    filled := by simp }

theorem advance (h : Phased base w f s) (hphase : s.phase = .written) :
    Phased base (if s.idx = 14 then w + 1 else w) f s.advance := by
  have hproduced : s.enqueued.length = 15 * w + s.idx + 1 := by
    simpa [hphase, Phase.ahead] using h.produced
  have hidx := h.idx_lt
  unfold World.advance
  by_cases hlast : s.idx = 14
  · rw [if_pos hlast, if_pos (by omega)]
    have hslots : ∀ i < 15, ∃ t, s.enqueued[15 * w + i]? = some t ∧ s.ring i = t := by
      intro i hi
      have hlt : 15 * w + i < s.enqueued.length := by omega
      refine ⟨_, List.getElem?_eq_getElem hlt, ?_⟩
      have hmod : (15 * w + i) % 15 = i := by omega
      have hheld := h.held _ _ (List.getElem?_eq_getElem hlt) (by omega) (by simp [hphase])
      rwa [hmod] at hheld
    exact { h with
      produced := by simp [Phase.ahead]; omega
      idx_lt := by simp
      ccs := by simp [h.ccs]
      link := by simp [h.link, h.ccs, linkTrb]
      room := by simp
      held := by
        intro k t hk hrecent _
        have hne : k % 15 ≠ 15 := by omega
        simpa [hne] using h.held k t hk hrecent (by simp [hphase])
      unwritten := by
        intro i hi _
        obtain ⟨t, ht, hring⟩ := hslots i hi
        have hlap : (15 * w + i) / 15 = w := by omega
        have hmark := (h.marked _ t ht).1
        rw [hlap] at hmark
        simp [Nat.ne_of_lt hi, hring, hmark]
      filled := by simp }
  · rw [if_neg hlast, if_neg (by omega)]
    exact { h with
      produced := by simp [Phase.ahead]; omega
      idx_lt := by simp; omega
      room := by simp
      held := fun k t hk hrecent _ => h.held k t hk hrecent (by simp [hphase])
      filled := by simp }

theorem next (h : Phased base w f s) (hdeq : s.deq < 15)
    (hmore : s.processed.length < s.enqueued.length) :
    ∃ t, s.enqueued[s.processed.length]? = some t ∧ s.ring s.deq = t ∧ t.cycle = s.dcs ∧ t.type ≠ trbLink := by
  have hconsumed := h.consumed
  have hlap : s.processed.length / 15 = f := by omega
  have hmod : s.processed.length % 15 = s.deq := by omega
  refine ⟨_, List.getElem?_eq_getElem hmore, ?_⟩
  have hget := List.getElem?_eq_getElem hmore
  have hheld := h.held _ _ hget h.lag h.room
  obtain ⟨hcycle, htype⟩ := h.marked _ _ hget
  rw [hmod] at hheld
  rw [hlap, ← h.dcs] at hcycle
  exact ⟨hheld, hcycle, htype⟩

theorem waits (h : Phased base w f s) (hdeq : s.deq < 15)
    (hnone : s.processed.length = s.enqueued.length) : (s.ring s.deq).cycle ≠ s.dcs := by
  have hproduced := h.produced
  have hconsumed := h.consumed
  have hidx := h.idx_lt
  have hahead : s.phase.ahead ≤ 1 := by cases s.phase <;> simp [Phase.ahead]
  rw [h.dcs]
  obtain hsame | hnext : f = w ∨ f = w + 1 := by omega
  · rw [hsame, h.unwritten s.deq hdeq (by omega)]
    simp
  · -- The producer has yet to advance past the last slot, and the first holds the lap before.
    have hwritten : s.phase ≠ .filled := by
      intro hfilled
      have := hfilled ▸ hproduced
      simp only [Phase.ahead] at this
      omega
    have hget : 15 * w < s.enqueued.length := by omega
    have hheld := h.held _ _ (List.getElem?_eq_getElem hget) (by omega) (by simp [hwritten])
    have hmark := (h.marked _ _ (List.getElem?_eq_getElem hget)).1
    have hdeq0 : s.deq = 15 * w % 15 := by omega
    have hlap : 15 * w / 15 = w := by omega
    rw [hdeq0, hheld, hmark, hlap, hnext]
    simp

theorem consume_cases (h : Phased base w f s) :
    (∃ t, s.enqueued[s.processed.length]? = some t ∧ s.deq < 15 ∧
      s.consume base = { s with deq := s.deq + 1, processed := s.processed ++ [t] }) ∨
    (s.deq = 15 ∧ lap w = lap f ∧ s.consume base = { s with deq := 0, dcs := !s.dcs }) ∨
    (s.consume base = s ∧ (s.deq = 15 ∧ lap w ≠ lap f ∨ s.processed.length = s.enqueued.length)) := by
  have hle := h.sound.length_le
  unfold World.consume
  by_cases hdeq : s.deq = 15
  · rw [hdeq, h.link, h.dcs]
    by_cases hlap : lap w = lap f
    · refine Or.inr (Or.inl ⟨rfl, hlap, ?_⟩)
      simp [hlap]
    · refine Or.inr (Or.inr ⟨?_, Or.inl ⟨rfl, hlap⟩⟩)
      simp [hlap]
  · have hdeq : s.deq < 15 := Nat.lt_of_le_of_ne h.deq_le hdeq
    by_cases hmore : s.processed.length < s.enqueued.length
    · obtain ⟨t, hget, hslot, hcycle, htype⟩ := h.next hdeq hmore
      refine Or.inl ⟨t, hget, hdeq, ?_⟩
      simp [hslot, hcycle, htype]
    · have hnone : s.processed.length = s.enqueued.length := by omega
      refine Or.inr (Or.inr ⟨?_, Or.inr hnone⟩)
      simp [h.waits hdeq hnone]

theorem consume (h : Phased base w f s) :
    Phased base w f (s.consume base) ∨
      (s.deq = 15 ∧ lap w = lap f ∧ Phased base w (f + 1) (s.consume base)) := by
  have hconsumed := h.consumed
  obtain ⟨t, hget, hdeq, hnext⟩ | ⟨hdeq, hlap, hnext⟩ | ⟨hnext, -⟩ := h.consume_cases
  · rw [hnext]
    refine Or.inl { h with
      consumed := by simp [hconsumed]; omega
      deq_le := hdeq
      lag := ?_
      room := ?_
      sound := ?_ }
    · have := h.lag
      simp only [List.length_append, List.length_singleton]
      omega
    · intro hphase
      have := h.room hphase
      simp only [List.length_append, List.length_singleton]
      omega
    · obtain ⟨rest, hrest⟩ := h.sound
      rw [← hrest, List.getElem?_append_right (Nat.le_refl _), Nat.sub_self] at hget
      obtain ⟨rest, rfl⟩ : ∃ tl, rest = t :: tl := by
        cases rest with
        | nil => simp at hget
        | cons hd tl => exact ⟨tl, by simpa using hget⟩
      exact ⟨rest, by simpa using hrest⟩
  · rw [hnext]
    exact Or.inr ⟨hdeq, hlap, { h with
      consumed := by simp only; omega
      deq_le := by simp
      dcs := by simp [h.dcs] }⟩
  · rw [hnext]
    exact Or.inl h

end Phased

/-! ## What the consumer reaches by itself -/

namespace Phased

variable {base : BitVec 64} {w f : Nat} {s : World}

/-- The consumer is in the producer's lap, or nothing is enqueued behind the Link TRB. -/
def Level (w f : Nat) (s : World) : Prop := w ≤ f ∨ (f + 1 = w ∧ s.enqueued.length = 15 * w)

theorem completes (h : Phased base w f s) (hlevel : Level w f s) : Completes base s := by
  obtain ⟨n, hn⟩ : ∃ n, s.enqueued.length - s.processed.length = n := ⟨_, rfl⟩
  have hle := h.sound.length_le
  induction n generalizing s with
  | zero => exact ⟨0, h.sound.eq_of_length (by omega)⟩
  | succ n ih =>
    have hproduced := h.produced
    have hconsumed := h.consumed
    have hidx := h.idx_lt
    have hahead : s.phase.ahead ≤ 1 := by cases s.phase <;> simp [Phase.ahead]
    have hdeq : s.deq ≠ 15 := by
      obtain hlap | ⟨hlap, hfull⟩ := hlevel
      · have := Nat.mul_le_mul_left 15 hlap
        omega
      · omega
    obtain ⟨t, hget, hdeq, hnext⟩ | ⟨hdeq, -, -⟩ | ⟨-, ⟨hdeq, -⟩ | hnone⟩ := h.consume_cases
    · have hnext' : Phased base w f (s.consume base) := by
        obtain h | ⟨hdeq15, -⟩ := h.consume
        · exact h
        · omega
      obtain ⟨m, hm⟩ := ih hnext' (by rw [hnext]; exact hlevel)
        (by simp only [hnext, List.length_append, List.length_singleton]; omega) hnext'.sound.length_le
      refine ⟨m + 1, ?_⟩
      rw [Function.iterate_succ_apply, hm, hnext]
    · exact absurd hdeq ‹_›
    · exact absurd hdeq ‹_›
    · omega

theorem iterate (h : Phased base w f s) (hlap : lap w ≠ lap f) (n : Nat) :
    Phased base w f ((World.consume base)^[n] s) ∧
      ((World.consume base)^[n] s).enqueued = s.enqueued := by
  induction n with
  | zero => exact ⟨h, rfl⟩
  | succ n ih =>
    obtain ⟨ih, hsame⟩ := ih
    rw [Function.iterate_succ_apply']
    obtain hnext | ⟨-, heq, -⟩ := ih.consume
    · refine ⟨hnext, ?_⟩
      rw [← hsame]
      unfold World.consume
      simp only
      split_ifs <;> rfl
    · exact absurd heq hlap

end Phased

/-! ## Runs -/

variable {p : Producer} {base kernelPhys : BitVec 64}

theorem Phased.step {w f : Nat} {s t : World} {o : Op} (h : Phased base w f s)
    (hstep : Step p base kernelPhys s o t) : ∃ w' f', Phased base w' f' t := by
  obtain ⟨hallowed, rfl⟩ := hstep
  cases o with
  | call c => exact ⟨w, f, h.call hallowed.2.2 _⟩
  | fill => exact ⟨w, f, h.fill hallowed.2.1 hallowed.2.2⟩
  | publish => exact ⟨w, f, h.publish hallowed⟩
  | advance => exact ⟨_, f, h.advance hallowed⟩
  | consume =>
    obtain h | ⟨-, -, h⟩ := h.consume
    · exact ⟨w, f, h⟩
    · exact ⟨w, f + 1, h⟩

theorem phased_of_run {ops : List Op} {s : World} (h : Run (Step p base kernelPhys) (ringInit base) ops s) :
    ∃ w f, Phased base w f s := by
  have hinv : ∀ s o t, (∃ w f, Phased base w f s) → Step p base kernelPhys s o t →
      ∃ w f, Phased base w f t := by
    rintro s o t ⟨w, f, hs⟩ hstep
    exact hs.step hstep
  exact h.invariant hinv ⟨0, 0, phased_ringInit base⟩

theorem not_completes_publish {ops : List Op} {s : World}
    (h : Run (Step p base kernelPhys) (ringInit base) ops s) (hphase : s.phase = .filled)
    (hcycle : s.dcs ≠ s.ccs) : ¬Completes base s.publish := by
  obtain ⟨w, f, h⟩ := phased_of_run h
  rw [h.dcs, h.ccs] at hcycle
  have hproduced := h.produced
  have hconsumed := h.consumed
  have hidx := h.idx_lt
  have hle := h.sound.length_le
  have hlap : f < w := by
    refine Nat.lt_of_le_of_ne ?_ fun heq => hcycle (by rw [heq])
    simp only [hphase, Phase.ahead] at hproduced
    omega
  rintro ⟨n, hn⟩
  have hpublish := h.publish hphase
  obtain ⟨hlast, -⟩ := hpublish.iterate (Ne.symm hcycle) n
  have hreached := hlast.consumed
  have hdeq := hlast.deq_le
  have hmore : s.publish.enqueued.length = s.enqueued.length + 1 := by
    obtain ⟨r, rest, hpending, -⟩ := h.filled hphase
    simp [World.publish, hpending]
  rw [hn, hmore] at hreached
  omega

/-- A TRB is published only when the consumer has the producer's cycle state. -/
def InPhase (s : World) (o : Op) : Prop := o = .publish → s.dcs = s.ccs

instance (s : World) (o : Op) : Decidable (InPhase s o) := inferInstanceAs (Decidable (_ → _))

/-- A consumer that can complete. -/
def Leveled (base : BitVec 64) (s : World) : Prop := ∃ w f, Phased base w f s ∧ Phased.Level w f s

theorem Leveled.step {s t : World} {o : Op} (h : Leveled base s)
    (hstep : Guarded InPhase (Step p base kernelPhys) s o t) : Leveled base t := by
  obtain ⟨w, f, hs, hlevel⟩ := h
  obtain ⟨hphase, hallowed, rfl⟩ := hstep
  cases o with

  | call c => exact ⟨w, f, hs.call hallowed.2.2 _, hlevel⟩
  | fill =>
    refine ⟨w, f, hs.fill hallowed.2.1 hallowed.2.2, ?_⟩
    have hsame : s.fill.enqueued = s.enqueued := by
      unfold World.fill
      split <;> rfl
    simpa only [Phased.Level, apply, hsame] using hlevel
  | publish =>
    refine ⟨w, f, hs.publish hallowed, Or.inl ?_⟩
    obtain hlap | ⟨hlap, -⟩ := hlevel
    · exact hlap
    · have hcycle := hphase rfl
      rw [hs.dcs, hs.ccs, ← hlap, lap_succ] at hcycle
      simp at hcycle
  | advance =>
    refine ⟨_, f, hs.advance hallowed, ?_⟩
    have hproduced := hs.produced
    rw [show s.phase.ahead = 1 by rw [show s.phase = .written from hallowed]; rfl] at hproduced
    have hsame : s.advance.enqueued = s.enqueued := by
      unfold World.advance
      split <;> rfl
    have hlap : w ≤ f := by
      obtain hlap | ⟨-, hfull⟩ := hlevel
      · exact hlap
      · omega
    simp only [Phased.Level, apply, hsame]
    split <;> omega
  | consume =>
    have hsame : (s.consume base).enqueued = s.enqueued := by
      unfold World.consume
      simp only
      split_ifs <;> rfl
    obtain hnext | ⟨hdeq, -, hnext⟩ := hs.consume
    · exact ⟨w, f, hnext, by simpa only [Phased.Level, apply, hsame] using hlevel⟩
    · refine ⟨w, f + 1, hnext, Or.inl ?_⟩
      obtain hlap | ⟨hlap, -⟩ := hlevel
      · omega
      · omega

theorem leveled_of_run {ops : List Op} {s : World}
    (h : Run (Guarded InPhase (Step p base kernelPhys)) (ringInit base) ops s) : Leveled base s :=
  h.invariant (fun _ _ _ hs hstep => hs.step hstep)
    ⟨0, 0, phased_ringInit base, Or.inl (Nat.le_refl 0)⟩

theorem rings_faithful {ops : List Op} {s : World}
    (h : Run (Guarded InPhase (Step p base kernelPhys)) (ringInit base) ops s) : Faithful base s := by
  obtain ⟨w, f, hs, hlevel⟩ := leveled_of_run h
  exact ⟨hs.sound, hs.completes hlevel⟩

/-- One TRB written and advanced past, with what the consumer does before and after `advance`. -/
def poll (before after : Nat) : List Op :=
  [.call (.readHid 0x1000), .fill, .publish] ++ List.replicate before .consume ++
    .advance :: List.replicate after .consume

theorem rings_faithful_wrap :
    Faithful 0x8000 (((List.replicate 14 (poll 0 1)).flatten ++ poll 2 0 ++ poll 0 0).foldl
      (apply 0x8000 0) (ringInit 0x8000)) :=
  rings_faithful (p := .ep1) (Run.of_admits_guarded (by decide +kernel))

/-- Fifteen TRBs, each taken after its `advance`, and the next one filled in. -/
def stalled : List Op := (List.replicate 15 (poll 0 1)).flatten ++ [.call (.readHid 0x1000), .fill]

theorem rings_unfaithful :
    ¬∀ (p : Producer) (base kernelPhys : BitVec 64) (ops : List Op) (s : World),
      Run (Step p base kernelPhys) (ringInit base) ops s → Faithful base s := by
  intro h
  have hrun : Run (Step .ep1 0x8000 0) (ringInit 0x8000) stalled
      (stalled.foldl (apply 0x8000 0) (ringInit 0x8000)) :=
    Run.of_admits (by decide +kernel)
  have hfilled : (stalled.foldl (apply 0x8000 0) (ringInit 0x8000)).phase = .filled := by decide +kernel
  have hpublish : Step .ep1 0x8000 0 (stalled.foldl (apply 0x8000 0) (ringInit 0x8000)) .publish _ :=
    ⟨hfilled, rfl⟩
  exact not_completes_publish hrun hfilled (by decide +kernel)
    (h _ _ _ _ _ (hrun.append (Run.single hpublish))).2

end Siathos.Usb
