import Siathos.Usb.Hid

/-!
# The reports of a run

The driver and the controller agree on the one TD under way: none, submitted, or completed with its
event in the queue. `EV_LEN` is the residual, though, so the bytes that a call returns are the right
ones only where that makes no difference.
-/

open Lib

namespace Siathos.Usb

variable {m : Place}

/-! ## The TD under way -/

/-- The TD under way, where the calls have read the reports `done`. -/
inductive Stage (m : Place) (s : Hid) (done : List Report) : Prop
  | free (hsub : s.sub = none) (hout : s.outstanding = []) (hdone : s.reports = done)
      (hunread : ∀ e ∈ s.events.unread, ¬Ours m e)
  | submitted (hsub : s.sub ≠ none) (hout : s.outstanding = [s.subTrb]) (hdone : s.reports = done)
      (hunread : ∀ e ∈ s.events.unread, ¬Ours m e)
  | completed (r : Report) (before after : List Trb) (hsub : s.sub ≠ none) (hout : s.outstanding = [])
      (hdone : s.reports = done ++ [r]) (hunread : s.events.unread = before ++ r.event :: after)
      (hbefore : ∀ e ∈ before, ¬Ours m e) (hafter : ∀ e ∈ after, ¬Ours m e)
      (htype : r.event.type = evtTransfer) (hpointer : r.event.pointer = s.subTrb)
      (hlength : r.bytes.length ≤ 8) (hlen : r.event.len.toNat = 8 - r.bytes.length)
      (hbuf : r.bytes <+: s.ep1Buf)

structure Sane (m : Place) (s : Hid) (done : List Report) : Prop where
  events : s.events.Ok
  idx_lt : s.ep1.idx < 15
  sub : s.sub ≠ none → ∃ i, i < 15 ∧ s.subTrb = m.trb i
  polling : s.polling ≠ none → s.sub ≠ none
  stage : Stage m s done

theorem sane_init (m : Place) (kbd : Bool) : Sane m (Hid.init m kbd) [] where
  events := EventRing.ok_empty
  idx_lt := by simp [Hid.init, ringInit]
  sub := by simp [Hid.init]
  polling := by simp [Hid.init]
  stage := .free rfl rfl rfl (by simp [Hid.init, EventRing.unread, EventRing.empty])

theorem Stage.frame {s : Hid} {done : List Report} (h : Stage m s done)
    (polling : Option (Nat × BitVec 32)) (answers : List Answer) :
    Stage m { s with polling := polling, answers := answers } done := by
  cases h with
  | free hsub hout hdone hunread => exact .free hsub hout hdone hunread
  | submitted hsub hout hdone hunread => exact .submitted hsub hout hdone hunread
  | completed r before after hsub hout hdone hunread hbefore hafter htype hpointer hlength hlen hbuf =>
    exact .completed r before after hsub hout hdone hunread hbefore hafter htype hpointer hlength hlen hbuf

theorem not_match_of_not_ours {s : Hid} {done : List Report} (h : Sane m s done) (hsub : s.sub ≠ none)
    {e : Trb} (hours : ¬Ours m e) (htype : e.type = evtTransfer) : e.pointer ≠ s.subTrb := by
  intro hpointer
  obtain ⟨i, hi, htrb⟩ := h.sub hsub
  exact hours ⟨htype, i, hi, hpointer.trans htrb⟩

/-! ## The calls -/

theorem Sane.answer {s : Hid} {done : List Report} (h : Sane m s done) (max : BitVec 32) (ret : Int)
    (out : List (BitVec 8)) : Sane m (s.answer max ret out) done :=
  { h with polling := by simp [Hid.answer], stage := h.stage.frame _ _ }

theorem settled_answer {s : Hid} {done : List Report} (h : Settled done s.answers) {max : BitVec 32}
    {ret : Int} (hret : ret < 0) (out : List (BitVec 8)) : Settled done (s.answer max ret out).answers := by
  simpa [Settled, Hid.answer, List.filter_append, Int.not_le.mpr hret] using h

theorem Sane.submit {s : Hid} {done : List Report} (h : Sane m s done) (hsub : s.sub = none) :
    Sane m (s.submit m) done := by
  have hstage : s.outstanding = [] ∧ s.reports = done ∧ ∀ e ∈ s.events.unread, ¬Ours m e := by
    cases h.stage with
    | free _ hout hdone hunread => exact ⟨hout, hdone, hunread⟩
    | submitted hne => exact absurd hsub hne
    | completed _ _ _ hne => exact absurd hsub hne
  obtain ⟨hout, hdone, hunread⟩ := hstage
  exact {
    events := h.events
    idx_lt := World.advance_idx_lt (by simpa using h.idx_lt)
    sub := fun _ => ⟨s.ep1.idx, h.idx_lt, rfl⟩
    polling := by simp [Hid.submit]
    stage := .submitted (by simp [Hid.submit]) (by simp [Hid.submit, hout]) hdone hunread }

theorem Sane.call {s : Hid} {done : List Report} (h : Sane m s done) (buf : Bool) (max : BitVec 32) :
    Sane m (s.call m buf max) done := by
  unfold Hid.call
  by_cases hbuf : (!s.kbd || !buf) = true
  · rw [if_pos hbuf]
    exact h.answer _ _ _
  · rw [if_neg hbuf]
    by_cases hsub : s.sub = none
    · rw [if_pos hsub]
      exact (h.submit hsub).answer _ _ _
    · rw [if_neg hsub]
      exact { h with polling := fun _ => hsub, stage := h.stage.frame _ _ }

theorem settled_call {s : Hid} {done : List Report} (h : Settled done s.answers) (buf : Bool)
    (max : BitVec 32) : Settled done (s.call m buf max).answers := by
  unfold Hid.call
  by_cases hbuf : (!s.kbd || !buf) = true
  · rw [if_pos hbuf]
    exact settled_answer h (by decide) _
  · rw [if_neg hbuf]
    by_cases hsub : s.sub = none
    · rw [if_pos hsub]
      exact settled_answer (s := s.submit m) h (by decide) _
    · rwa [if_neg hsub]

/-! ## The loop -/

theorem poll_cases {s : Hid} {done : List Report} (h : Sane m s done) {i : Nat} {max : BitVec 32}
    (hpolling : s.polling = some (i, max)) :
    (s.poll = s.answer max (-1) [] ∧ (256 ≤ i ∨ s.events.unread = [])) ∨
    (∃ e, s.events.next = some e ∧ ¬Ours m e ∧
      s.poll = { s with events := s.events.take, polling := some (i + 1, max) }) ∨
    (∃ r after, s.reports = done ++ [r] ∧ s.events.next = some r.event ∧ i < 256 ∧
      s.outstanding = [] ∧ s.events.unread = r.event :: after ∧ (∀ e ∈ after, ¬Ours m e) ∧
      r.event.type = evtTransfer ∧ r.event.pointer = s.subTrb ∧ r.bytes.length ≤ 8 ∧
      r.event.len.toNat = 8 - r.bytes.length ∧ r.bytes <+: s.ep1Buf ∧
      s.poll = { s with events := s.events.take, sub := none }.reply r.event max) := by
  have hsub : s.sub ≠ none := h.polling (by simp [hpolling])
  have hhead := h.events.next_eq
  -- An event that does not match is passed over.
  have hpass : ∀ e, s.events.next = some e → i < 256 → ¬Ours m e →
      s.poll = { s with events := s.events.take, polling := some (i + 1, max) } := by
    intro e hnext hi hours
    have hne := not_match_of_not_ours h hsub hours
    simp only [Hid.poll, hpolling, hnext, if_neg (Nat.not_le.mpr hi)]
    by_cases htype : e.type = evtTransfer
    · rw [if_neg (not_not.mpr htype), if_pos (hne htype)]
    · rw [if_pos htype]
  by_cases hi : 256 ≤ i
  · refine Or.inl ⟨?_, Or.inl hi⟩
    simp [Hid.poll, hpolling, hi]
  · have hi : i < 256 := Nat.not_le.mp hi
    cases hnext : s.events.next with
    | none =>
      refine Or.inl ⟨?_, Or.inr ?_⟩
      · simp [Hid.poll, hpolling, hnext]
      · rwa [hnext, eq_comm, List.head?_eq_none_iff] at hhead
    | some e =>
      have hmem : e ∈ s.events.unread := List.mem_of_head? (hhead.symm.trans hnext)
      cases h.stage with
      | free hnone => exact absurd hnone hsub
      | submitted _ hout hdone hunread =>
        exact Or.inr (Or.inl ⟨e, rfl, hunread e hmem, hpass e hnext hi (hunread e hmem)⟩)
      | completed r before after _ hout hdone hunread hbefore hafter htype hpointer hlength hlen hbuf =>
        cases before with
        | nil =>
          have he : r.event = e := by simpa [hunread, hnext] using hhead.symm
          subst he
          refine Or.inr (Or.inr ⟨r, after, hdone, rfl, hi, hout, hunread, hafter, htype, hpointer, hlength,
            hlen, hbuf, ?_⟩)
          simp only [Hid.poll, hpolling, hnext, if_neg (Nat.not_le.mpr hi), htype, hpointer, ne_eq,
            not_true_eq_false, if_false]
        | cons x before =>
          have he : x = e := by simpa [hunread, hnext] using hhead.symm
          subst he
          have hours := hbefore x (List.mem_cons_self ..)
          exact Or.inr (Or.inl ⟨x, rfl, hours, hpass x hnext hi hours⟩)

theorem Sane.skip {s : Hid} {done : List Report} (h : Sane m s done) (hpolling : s.polling ≠ none)
    {e : Trb} (hnext : s.events.next = some e) (hours : ¬Ours m e) (p : Nat × BitVec 32) :
    Sane m { s with events := s.events.take, polling := some p } done := by
  obtain ⟨hevents, hpopped⟩ := h.events.take hnext
  have hsub := h.polling hpolling
  refine ⟨hevents, h.idx_lt, h.sub, fun _ => hsub, ?_⟩
  cases h.stage with
  | free hnone => exact absurd hnone hsub
  | submitted _ hout hdone hunread =>
    refine .submitted hsub hout hdone fun x hx => hunread x ?_
    rw [hpopped]
    exact List.mem_cons_of_mem _ hx
  | completed r before after _ hout hdone hunread hbefore hafter htype hpointer hlength hlen hbuf =>
    rw [hpopped] at hunread
    cases before with
    | nil =>
      obtain ⟨i, hi, htrb⟩ := h.sub hsub
      obtain ⟨rfl, -⟩ := by simpa using hunread
      exact absurd ⟨htype, i, hi, hpointer.trans htrb⟩ hours
    | cons x before =>
      obtain ⟨-, hunread⟩ := by simpa using hunread
      exact .completed r before after hsub hout hdone hunread
        (fun y hy => hbefore y (List.mem_cons_of_mem _ hy)) hafter htype hpointer hlength hlen hbuf

/-! ## The answer -/

/-- The residual may stand for the length of a successful report: half of the 8 bytes, or a `max`
below both. -/
def Readable (max : BitVec 32) (e : Trb) : Prop :=
  e.Successful → e.code = codeSuccess ∧
    (e.len.toNat = 4 ∨ max.toNat ≤ min e.len.toNat (8 - e.len.toNat))

instance (max : BitVec 32) (e : Trb) : Decidable (Readable max e) := inferInstanceAs (Decidable (_ → _))

theorem forall₂_concat {α β : Type} {R : α → β → Prop} {l : List α} {l' : List β} {a : α} {b : β} :
    List.Forall₂ R (l ++ [a]) (l' ++ [b]) ↔ List.Forall₂ R l l' ∧ R a b := by
  rw [← List.forall₂_reverse_iff]
  simp [List.forall₂_reverse_iff, and_comm]

theorem right_iff {r : Report} {buf : List (BitVec 8)} {max : BitVec 32} (hlength : r.bytes.length ≤ 8)
    (hlen : r.event.len.toNat = 8 - r.bytes.length) (hbuf : r.bytes <+: buf) :
    Right r ⟨max, (min r.event.len.toNat max.toNat : Nat), buf.take (min r.event.len.toNat max.toNat)⟩ ↔
      r.event.len.toNat = 4 ∨ max.toNat ≤ min r.event.len.toNat (8 - r.event.len.toNat) := by
  have hret : ((min r.event.len.toNat max.toNat : Nat) : Int) = min r.bytes.length max.toNat ↔
      r.event.len.toNat = 4 ∨ max.toNat ≤ min r.event.len.toNat (8 - r.event.len.toNat) := by
    omega
  constructor
  · intro h
    exact hret.mp h.1
  · intro h
    refine ⟨hret.mpr h, ?_⟩
    obtain ⟨rest, rfl⟩ := hbuf
    have hle : min r.event.len.toNat max.toNat ≤ r.bytes.length := by omega
    simp only [List.take_append_of_le_length hle, List.take_eq_take_iff]
    omega

theorem settled_reply_iff {s : Hid} {done : List Report} {r : Report} {max : BitVec 32}
    (h : Settled done s.answers) (hlength : r.bytes.length ≤ 8)
    (hlen : r.event.len.toNat = 8 - r.bytes.length) (hbuf : r.bytes <+: s.ep1Buf) :
    Settled (done ++ [r]) (s.reply r.event max).answers ↔ Readable max r.event := by
  unfold Hid.reply Readable
  by_cases hcode : r.event.code = codeSuccess
  · have hsuccess : r.event.Successful := Or.inl hcode
    rw [if_neg (not_not.mpr hcode)]
    simp only [Settled, Hid.answer, List.filter_append, List.filter_cons, List.filter_nil, hsuccess,
      decide_true, if_true, forall₂_concat, Int.natCast_nonneg, right_iff hlength hlen hbuf]
    simp [hcode, show List.Forall₂ Right _ _ from h]
  · have hret : ¬(0 : Int) ≤ if r.event.code = codeTrbError then -2 else -3 := by split <;> decide
    rw [if_pos hcode]
    by_cases hsuccess : r.event.Successful
    · have hlong : ¬Settled (done ++ [r]) s.answers := by
        intro hsettled
        have hlength := h.length_eq.trans hsettled.length_eq.symm
        simp [hsuccess] at hlength
      simpa [Settled, Hid.answer, List.filter_append, hret, hsuccess, hcode] using hlong
    · simpa [Settled, Hid.answer, List.filter_append, hret, hsuccess] using h

/-! ## The controller -/

theorem Sane.complete {s : Hid} {done : List Report} (h : Sane m s done) {r : Report}
    (hallowed : HidAllowed m s (.complete r)) : Sane m (s.complete r) done := by
  obtain ⟨hmem, htype, hcycle, hroom, hlength, hlen⟩ := hallowed
  obtain ⟨hevents, hunread'⟩ := h.events.post hcycle hroom
  cases h.stage with
  | free hsub hout => simp [hout] at hmem
  | completed _ _ _ hsub hout => simp [hout] at hmem
  | submitted hsub hout hdone hunread =>
    have hpointer : r.event.pointer = s.subTrb := by simpa [hout] using hmem
    refine ⟨hevents, h.idx_lt, h.sub, h.polling, ?_⟩
    refine .completed r s.events.unread [] hsub ?_ ?_ hunread' hunread (by simp) htype hpointer hlength
      hlen (List.prefix_append _ _)
    · simp [Hid.complete, hout, hpointer]
    · simp [Hid.complete, hdone]

theorem Sane.post {s : Hid} {done : List Report} (h : Sane m s done) {e : Trb}
    (hallowed : HidAllowed m s (.post e)) : Sane m { s with events := s.events.post e } done := by
  obtain ⟨hours, hcycle, hroom⟩ := hallowed
  obtain ⟨hevents, hunread'⟩ := h.events.post hcycle hroom
  have hall : ∀ es : List Trb, (∀ e ∈ es, ¬Ours m e) → ∀ x ∈ es ++ [e], ¬Ours m x := by
    intro es hes x hx
    obtain hx | hx := List.mem_append.mp hx
    · exact hes x hx
    · rwa [List.mem_singleton.mp hx]
  refine ⟨hevents, h.idx_lt, h.sub, h.polling, ?_⟩
  cases h.stage with
  | free hsub hout hdone hunread => exact .free hsub hout hdone (hunread' ▸ hall _ hunread)
  | submitted hsub hout hdone hunread => exact .submitted hsub hout hdone (hunread' ▸ hall _ hunread)
  | completed r before after hsub hout hdone hunread hbefore hafter htype hpointer hlength hlen hbuf =>
    refine .completed r before (after ++ [e]) hsub hout hdone ?_ hbefore (hall _ hafter) htype hpointer
      hlength hlen hbuf
    simp [hunread', hunread]

/-! ## Runs -/

/-- A call that reads the event of its TD can return the report. -/
def Legible (s : Hid) (o : HidOp) : Prop :=
  o = .poll → ∀ p ∈ s.polling, p.1 < 256 → ∀ e ∈ s.events.next,
    e.type = evtTransfer → e.pointer = s.subTrb → Readable p.2 e

instance (s : Hid) (o : HidOp) : Decidable (Legible s o) := inferInstanceAs (Decidable (_ → _))

theorem Sane.poll {s : Hid} {done : List Report} (h : Sane m s done) (hpolling : s.polling ≠ none) :
    ∃ done', Sane m s.poll done' ∧
      (Legible s .poll → Settled done s.answers → Settled done' s.poll.answers) := by
  obtain ⟨⟨i, max⟩, hpair⟩ := Option.ne_none_iff_exists'.mp hpolling
  obtain ⟨hnext, -⟩ | ⟨e, he, hours, hnext⟩ |
    ⟨r, after, hdone, he, hi, hout, hunread, hafter, htype, hpointer, hlength, hlen, hbuf, hnext⟩ :=
      poll_cases h hpair
  · rw [hnext]
    exact ⟨done, h.answer _ _ _, fun _ hsettled => settled_answer hsettled (by decide) _⟩
  · rw [hnext]
    exact ⟨done, h.skip hpolling he hours _, fun _ hsettled => hsettled⟩
  · rw [hnext]
    obtain ⟨hevents, hpopped⟩ := h.events.take he
    have hrest : s.events.take.unread = after := by
      rw [hpopped] at hunread
      exact (List.cons.inj hunread).2
    refine ⟨done ++ [r], ?_, fun hlegible hsettled => ?_⟩
    · have hstage : Stage m { s with events := s.events.take, sub := none } (done ++ [r]) :=
        .free rfl hout hdone (by rwa [hrest])
      unfold Hid.reply
      split <;> exact ⟨hevents, h.idx_lt, by simp [Hid.answer], by simp [Hid.answer], hstage.frame _ _⟩
    · exact (settled_reply_iff (s := { s with events := s.events.take, sub := none }) hsettled hlength hlen
        hbuf).mpr (hlegible rfl _ hpair hi _ he htype hpointer)

theorem Sane.step {s t : Hid} {o : HidOp} {done : List Report} (h : Sane m s done)
    (hstep : HidStep m s o t) :
    ∃ done', Sane m t done' ∧ (Legible s o → Settled done s.answers → Settled done' t.answers) := by
  obtain ⟨hallowed, rfl⟩ := hstep
  cases o with
  | call buf max => exact ⟨done, h.call buf max, fun _ hsettled => settled_call hsettled buf max⟩
  | poll => exact h.poll hallowed
  | complete r => exact ⟨done, h.complete hallowed, fun _ hsettled => hsettled⟩
  | post e => exact ⟨done, h.post hallowed, fun _ hsettled => hsettled⟩

/-! ## What an undisturbed call does -/

theorem poll_idle {s : Hid} (h : s.polling = none) (n : Nat) : Hid.poll^[n] s = s := by
  induction n with
  | zero => rfl
  | succ n ih =>
    have hpoll : s.poll = s := by
      unfold Hid.poll
      rw [h]
    rw [Function.iterate_succ_apply, hpoll, ih]

theorem poll_reads {s : Hid} {done : List Report} (h : Sane m s done) {i : Nat} {max : BitVec 32}
    (hpolling : s.polling = some (i, max)) (hout : s.outstanding = []) {n : Nat}
    (hturns : s.events.unread.length ≤ n) (hi : i + n ≤ 256) :
    (Hid.poll^[n] s).sub = none ∧ (Hid.poll^[n] s).polling = none := by
  have hsub : s.sub ≠ none := h.polling (by simp [hpolling])
  have hmore : s.events.unread ≠ [] := by
    cases h.stage with
    | free hnone => exact absurd hnone hsub
    | submitted _ hone => simp [hout] at hone
    | completed r before after _ _ _ hunread => simp [hunread]
  induction n generalizing s i with
  | zero => exact absurd (List.eq_nil_of_length_eq_zero (Nat.le_zero.mp hturns)) hmore
  | succ n ih =>
    rw [Function.iterate_succ_apply]
    obtain ⟨-, hlate | hnone⟩ | ⟨e, he, hours, hnext⟩ | ⟨r, after, -, -, -, -, -, -, -, -, -, -, -, hnext⟩ :=
      poll_cases h hpolling
    · omega
    · exact absurd hnone hmore
    · have hskip := h.skip (by simp [hpolling]) he hours (i + 1, max)
      have hlength := congrArg List.length (h.events.take he).2
      simp only [List.length_cons] at hlength
      rw [hnext]
      refine ih hskip rfl hout (by simp only; omega) (by omega) hsub ?_
      cases hskip.stage with
      | free hnone => exact absurd hnone hsub
      | submitted _ hone => simp [hout] at hone
      | completed r before after _ _ _ hunread => simp [hunread]
    · have hidle : s.poll.sub = none ∧ s.poll.polling = none := by
        rw [hnext]
        unfold Hid.reply
        split <;> exact ⟨rfl, rfl⟩
      rwa [poll_idle hidle.2]

theorem Sane.faithful {s : Hid} {done : List Report} (h : Sane m s done) (hsettled : Settled done s.answers) :
    s.Faithful m where
  one := by
    cases h.stage with
    | free _ hout => simp [hout]
    | submitted _ hout => simp [hout]
    | completed _ _ _ _ hout => simp [hout]
  settled := by
    cases h.stage with
    | free _ _ hdone => exact ⟨done, [], by simpa using hdone, hsettled, by simp, fun _ => rfl⟩
    | submitted _ _ hdone => exact ⟨done, [], by simpa using hdone, hsettled, by simp, fun _ => rfl⟩
    | completed r _ _ hsub _ hdone => exact ⟨done, [r], hdone, hsettled, by simp, fun hnone => absurd hnone hsub⟩
  reads := by
    intro hkbd hidle hout hsub max
    have hcall : s.call m true max = { s with polling := some (0, max) } := by
      simp [Hid.call, hkbd, hsub]
    have hturns := h.events.length_unread_le
    have hsane : Sane m { s with polling := some (0, max) } done := hcall ▸ h.call true max
    have hread := poll_reads hsane rfl hout hturns (by decide)
    unfold Hid.finish
    rw [show 257 = 241 + 16 from rfl, Function.iterate_add_apply, hcall, poll_idle hread.2]
    exact hread.1
  submits := by
    intro hkbd hidle hsub max
    have hout : s.outstanding = [] := by
      cases h.stage with
      | free _ hout => exact hout
      | submitted hne => exact absurd hsub hne
      | completed _ _ _ hne => exact absurd hsub hne
    have hcall : s.call m true max = (s.submit m).answer max (-1) [] := by
      simp [Hid.call, hkbd, hsub]
    unfold Hid.finish
    rw [hcall, poll_idle rfl]
    simp [Hid.answer, Hid.submit, hout]

theorem reports_delivered {kbd : Bool} {ops : List HidOp} {s : Hid}
    (h : Run (Guarded Legible (HidStep m)) (Hid.init m kbd) ops s) : s.Faithful m := by
  have hinv : ∀ s o t, (∃ done, Sane m s done ∧ Settled done s.answers) →
      Guarded Legible (HidStep m) s o t → ∃ done, Sane m t done ∧ Settled done t.answers := by
    rintro s o t ⟨done, hs, hsettled⟩ ⟨hlegible, hstep⟩
    obtain ⟨done', ht, hnext⟩ := hs.step hstep
    exact ⟨done', ht, hnext hlegible hsettled⟩
  obtain ⟨done, hs, hsettled⟩ := h.invariant hinv ⟨[], sane_init m kbd, List.Forall₂.nil⟩
  exact hs.faithful hsettled

/-- The event of the first TD of the ring: the code Success, and a residual. -/
def firstEvent (residual : BitVec 32) : Trb := ⟨0x8000, 0, (1 <<< 24) ||| residual, (32 <<< 10) ||| 1⟩

def keyboard : Place := ⟨0x8000, 0x1000, 0⟩

/-- A full report, of which a call with `max` 0 takes no byte. -/
theorem reports_delivered_none :
    ([.call true 8, .complete ⟨firstEvent 0, [0, 0, 4, 0, 0, 0, 0, 0]⟩, .call true 0, .poll].foldl (hidApply keyboard)
      (Hid.init keyboard true)).Faithful keyboard :=
  reports_delivered (Run.of_admits_guarded (by decide +kernel))

/-- A full report of 8 bytes. -/
def pressed : List HidOp :=
  [.call true 8, .complete ⟨firstEvent 0, [0, 0, 4, 0, 0, 0, 0, 0]⟩, .call true 8, .poll]

theorem reports_lost :
    ¬∀ (m : Place) (kbd : Bool) (ops : List HidOp) (s : Hid),
      Run (HidStep m) (Hid.init m kbd) ops s → s.Faithful m := by
  intro h
  have hrun : Run (HidStep keyboard) (Hid.init keyboard true) pressed
      (pressed.foldl (hidApply keyboard) (Hid.init keyboard true)) :=
    Run.of_admits (by decide +kernel)
  obtain ⟨done, waiting, hdone, hsettled, -, hnone⟩ := (h _ _ _ _ hrun).settled
  have hsub : (pressed.foldl (hidApply keyboard) (Hid.init keyboard true)).sub = none := by decide +kernel
  rw [hnone hsub, List.append_nil] at hdone
  rw [← hdone] at hsettled
  revert hsettled
  decide +kernel

end Siathos.Usb
