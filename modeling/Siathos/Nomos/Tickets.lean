import Siathos.Lib.Run
import Siathos.Nomos.Auth

/-!
# The life of a ticket (`auth.c`)

A ledger is the accounts with what the calls on tickets did so far. The n-th ticket ever issued
sits in place n of the table, so a place names a ticket.
-/

open Lib

namespace Siathos.Nomos

/-- A ticket as its issuer asked for it. -/
structure Issue where
  name : CStr
  caps : Rights
  tok : BitVec 64
  deriving DecidableEq, Repr

def AuthTicket.issue (t : AuthTicket) : Issue := ⟨t.name, t.caps, t.tok⟩

/-- `issues` are those that succeeded, oldest first, and `consumed` the places of the tickets that a
consume took. -/
structure Ledger where
  auth : Auth
  issues : List Issue
  consumed : List Nat
  deriving DecidableEq, Repr

inductive TicketOp
  | issue (name : CStr) (caps : Rights) (tok : BitVec 64) (issuer : Rights)
  | consume (name : CStr) (tok : BitVec 64)
  | session (u : Option UserRef)

/-- The test of `auth_ticket_consume`. -/
def AuthTicket.matches (name : CStr) (tok : BitVec 64) (t : AuthTicket) : Bool :=
  !t.used && decide (t.name = name) && decide (t.tok = tok)

namespace Ledger

/-- No ticket was issued yet. -/
def start (a : Auth) : Ledger := ⟨{ a with tickets := [] }, [], []⟩

def apply (l : Ledger) : TicketOp → Ledger
  | .issue name caps tok issuer =>
    match authTicketIssue l.auth name caps tok issuer with
    | none => l
    | some a => { l with auth := a, issues := l.issues ++ [⟨name, caps, tok⟩] }
  | .consume name tok =>
    match authTicketConsume l.auth name tok with
    | none => l
    | some a =>
      { l with auth := a, consumed := l.auth.tickets.findIdx (·.matches name tok) :: l.consumed }
  | .session u => { l with auth := loginSetUser l.auth u }

end Ledger

/-- Names of 1 to `AUTH_NAME_MAX` - 1 bytes. -/
def TicketOp.Named : TicketOp → Prop
  | .issue name _ _ _ => name ≠ [] ∧ name.length < authNameMax
  | .consume name _ => name ≠ [] ∧ name.length < authNameMax
  | .session _ => True

instance : (o : TicketOp) → Decidable o.Named
  | .issue .. => inferInstanceAs (Decidable (_ ∧ _))
  | .consume .. => inferInstanceAs (Decidable (_ ∧ _))
  | .session _ => isTrue trivial

/-- Ticket `i` is the last one issued for the name. -/
def Latest (issues : List Issue) (name : CStr) (i : Nat) : Prop :=
  (∃ r, issues[i]? = some r ∧ r.name = name) ∧
    ∀ j r, issues[j]? = some r → r.name = name → j ≤ i

theorem Latest.eq {issues : List Issue} {name : CStr} {i j : Nat} (hi : Latest issues name i)
    (hj : Latest issues name j) : i = j := by
  obtain ⟨⟨r, hr, hrn⟩, hmaxi⟩ := hi
  obtain ⟨⟨q, hq, hqn⟩, hmaxj⟩ := hj
  have := hmaxi j q hq hqn
  have := hmaxj i r hr hrn
  omega

theorem Latest.lt {issues : List Issue} {name : CStr} {i : Nat} (h : Latest issues name i) :
    i < issues.length := by
  obtain ⟨⟨r, hr, -⟩, -⟩ := h
  exact (List.getElem?_eq_some_iff.mp hr).1

theorem latest_append {issues : List Issue} {name : CStr} {i : Nat} (r : Issue)
    (hi : i < issues.length) :
    Latest (issues ++ [r]) name i ↔ Latest issues name i ∧ r.name ≠ name := by
  constructor
  · rintro ⟨⟨q, hq, hqn⟩, hmax⟩
    rw [List.getElem?_append_left hi] at hq
    refine ⟨⟨⟨q, hq, hqn⟩, ?_⟩, ?_⟩
    · intro j p hp hpn
      have hj : j < issues.length := (List.getElem?_eq_some_iff.mp hp).1
      apply hmax j p _ hpn
      rw [List.getElem?_append_left hj, hp]
    · intro hname
      have := hmax issues.length r (by simp) hname
      omega
  · rintro ⟨⟨⟨q, hq, hqn⟩, hmax⟩, hne⟩
    refine ⟨⟨q, by rw [List.getElem?_append_left hi, hq], hqn⟩, ?_⟩
    intro j p hp hpn
    rcases Nat.lt_trichotomy j issues.length with hj | hj | hj
    · rw [List.getElem?_append_left hj] at hp
      exact hmax j p hp hpn
    · subst hj
      simp only [List.getElem?_concat_length, Option.some.injEq] at hp
      exact absurd (hp ▸ hpn) hne
    · rw [List.getElem?_eq_none (by simp; omega)] at hp
      simp at hp

theorem latest_new (issues : List Issue) (r : Issue) :
    Latest (issues ++ [r]) r.name issues.length := by
  refine ⟨⟨r, by simp, rfl⟩, ?_⟩
  intro j p hp _
  have := (List.getElem?_eq_some_iff.mp hp).1
  simp at this
  omega

/-! ## What the two calls do to the table -/

/-- `auth_ticket_issue` on an older ticket. -/
def AuthTicket.superseded (name : CStr) (t : AuthTicket) : AuthTicket :=
  if !t.used && decide (t.name = name) then { t with used := true } else t

@[simp] theorem superseded_issue (name : CStr) (t : AuthTicket) :
    (t.superseded name).issue = t.issue := by
  unfold AuthTicket.superseded
  split <;> rfl

theorem superseded_used (name : CStr) (t : AuthTicket) :
    (t.superseded name).used = false ↔ t.used = false ∧ t.name ≠ name := by
  unfold AuthTicket.superseded
  split <;> simp_all

theorem authTicketIssue_isSome {a : Auth} {name : CStr} {caps : Rights} {tok : BitVec 64}
    {issuer : Rights} :
    (authTicketIssue a name caps tok issuer).isSome ↔
      name ≠ [] ∧ a.tickets.length < authTicketMax := by
  unfold authTicketIssue
  split
  · simp_all
  · split <;> simp_all

theorem authTicketIssue_some {a b : Auth} {name : CStr} {caps : Rights} {tok : BitVec 64}
    {issuer : Rights} (h : authTicketIssue a name caps tok issuer = some b) :
    a.tickets.length < authTicketMax ∧ b.tickets =
      a.tickets.map (·.superseded name) ++ [⟨cut authNameMax name, caps, tok, false, issuer⟩] := by
  unfold authTicketIssue at h
  split at h
  · simp at h
  · split at h
    · simp at h
    · simp only [Option.some.injEq] at h
      exact ⟨by omega, by rw [← h]; rfl⟩

theorem useTicket_eq (name : CStr) (tok : BitVec 64) (ts : List AuthTicket) :
    useTicket name tok ts =
      ts.modify (ts.findIdx (·.matches name tok)) fun t => { t with used := true } := by
  induction ts with
  | nil => simp [useTicket]
  | cons t rest ih =>
    unfold useTicket
    rw [List.findIdx_cons]
    unfold AuthTicket.matches at ih ⊢
    split
    · next h => simp [h]
    · next h => simp [h, ih]

/-- Ticket `i` is what a consume takes. -/
theorem authTicketMatch_some {a : Auth} {name : CStr} {tok : BitVec 64} {t : AuthTicket}
    (h : authTicketMatch a name tok = some t) :
    a.tickets[a.tickets.findIdx (·.matches name tok)]? = some t ∧ t.used = false ∧ t.name = name ∧
      t.tok = tok := by
  have hp := List.find?_some h
  have hget : a.tickets[a.tickets.findIdx (·.matches name tok)]? = some t := by
    rw [← h, authTicketMatch, List.find?_eq_getElem?_findIdx]
    rfl
  simp at hp
  exact ⟨hget, hp.1.1, hp.1.2, hp.2⟩

theorem authTicketMatch_isSome {a : Auth} {name : CStr} {tok : BitVec 64} :
    (authTicketMatch a name tok).isSome ↔
      ∃ (i : Nat) (t : AuthTicket), a.tickets[i]? = some t ∧ t.used = false ∧ t.name = name ∧
        t.tok = tok := by
  constructor
  · intro h
    obtain ⟨t, ht⟩ := Option.isSome_iff_exists.mp h
    exact ⟨_, t, authTicketMatch_some ht⟩
  · rintro ⟨i, t, ht, hu, hn, hk⟩
    simp only [authTicketMatch, List.find?_isSome]
    exact ⟨t, List.mem_of_getElem? ht, by simp [hu, hn, hk]⟩

/-! ## The invariant -/

/-- A ticket can still be consumed when no consume took it and it is the latest of its name. -/
structure TicketsInv (l : Ledger) : Prop where
  listed : l.auth.tickets.map AuthTicket.issue = l.issues
  unused : ∀ i t, l.auth.tickets[i]? = some t →
    (t.used = false ↔ i ∉ l.consumed ∧ Latest l.issues t.name i)
  placed : ∀ i ∈ l.consumed, i < l.issues.length
  once : l.consumed.Nodup

namespace TicketsInv

variable {l : Ledger}

theorem length (h : TicketsInv l) : l.auth.tickets.length = l.issues.length := by
  rw [← h.listed, List.length_map]

/-- Ticket `i` was issued as place `i` of the table says. -/
theorem issued (h : TicketsInv l) {i : Nat} {t : AuthTicket} (ht : l.auth.tickets[i]? = some t) :
    l.issues[i]? = some t.issue := by
  rw [← h.listed, List.getElem?_map, ht, Option.map_some]

theorem start (a : Auth) : TicketsInv (Ledger.start a) := by
  constructor <;> simp [Ledger.start]

theorem issue (h : TicketsInv l) {name : CStr} {caps : Rights} {tok : BitVec 64} {issuer : Rights}
    {b : Auth} (hname : name.length < authNameMax)
    (hb : authTicketIssue l.auth name caps tok issuer = some b) :
    TicketsInv { l with auth := b, issues := l.issues ++ [⟨name, caps, tok⟩] } := by
  obtain ⟨-, htickets⟩ := authTicketIssue_some hb
  have hcut : cut authNameMax name = name := List.take_of_length_le (by omega)
  have hlen := h.length
  constructor
  · simp only [htickets, List.map_append, List.map_map, List.map_cons, List.map_nil, hcut]
    rw [← h.listed]
    congr 1
    apply List.map_congr_left
    simp
  · intro i t ht
    simp only [htickets] at ht ⊢
    rcases Nat.lt_or_ge i l.auth.tickets.length with hi | hi
    · -- an older ticket
      rw [List.getElem?_append_left (by simpa using hi), List.getElem?_map] at ht
      obtain ⟨t₀, ht₀, rfl⟩ := Option.map_eq_some_iff.mp ht
      have hname₀ : (t₀.superseded name).name = t₀.name :=
        congrArg Issue.name (superseded_issue name t₀)
      rw [superseded_used, h.unused i t₀ ht₀, hname₀, latest_append _ (by omega)]
      simp only [ne_eq, eq_comm (a := name)]
      tauto
    · -- the new one
      rw [List.getElem?_append_right (by simpa using hi)] at ht
      simp only [List.length_map, List.getElem?_singleton] at ht
      split at ht
      · next hi₀ =>
        have hi' : i = l.issues.length := by omega
        simp only [Option.some.injEq] at ht
        subst ht hi'
        have hfresh : l.issues.length ∉ l.consumed := fun hmem => by
          have := h.placed _ hmem
          omega
        have hlatest := latest_new l.issues ⟨name, caps, tok⟩
        simpa [hcut] using ⟨hfresh, hlatest⟩
      · simp at ht
  · intro i hi
    have := h.placed i hi
    simp
    omega
  · exact h.once

theorem consume (h : TicketsInv l) {name : CStr} {tok : BitVec 64} {t : AuthTicket}
    (ht : authTicketMatch l.auth name tok = some t) {b : Auth}
    (hb : b.tickets = useTicket name tok l.auth.tickets) :
    TicketsInv { l with
      auth := b, consumed := l.auth.tickets.findIdx (·.matches name tok) :: l.consumed } := by
  obtain ⟨hget, hunused, -, -⟩ := authTicketMatch_some ht
  rw [useTicket_eq] at hb
  revert hb
  generalize l.auth.tickets.findIdx (·.matches name tok) = i at hget ⊢
  intro hb
  obtain ⟨hi, -⟩ := (h.unused i t hget).mp hunused
  constructor
  · rw [hb, ← h.listed]
    apply List.ext_getElem?
    intro j
    simp only [List.getElem?_map, List.getElem?_modify]
    split <;> cases l.auth.tickets[j]? <;> rfl
  · intro j s hs
    simp only [hb, List.getElem?_modify] at hs
    split at hs
    · next hij =>
      subst hij
      rw [hget] at hs
      simp only [Option.map_eq_map, Option.map_some, Option.some.injEq] at hs
      subst hs
      simp
    · next hij =>
      simp only [Option.map_eq_map, Option.map_id_fun', id_eq] at hs
      rw [h.unused j s hs]
      simp [Ne.symm hij]
  · intro j hj
    rcases List.mem_cons.mp hj with rfl | hj
    · exact (List.getElem?_eq_some_iff.mp (h.issued hget)).1
    · exact h.placed j hj
  · exact List.nodup_cons.mpr ⟨hi, h.once⟩

end TicketsInv

theorem ticketsInv_apply {l : Ledger} (h : TicketsInv l) {o : TicketOp} (ho : o.Named) :
    TicketsInv (l.apply o) := by
  cases o with
  | issue name caps tok issuer =>
    simp only [Ledger.apply]
    split
    · exact h
    · next b hb => exact h.issue ho.2 hb
  | consume name tok =>
    simp only [Ledger.apply, authTicketConsume]
    cases ht : authTicketMatch l.auth name tok with
    | none => exact h
    | some t => exact h.consume ht rfl
  | session u => exact ⟨h.listed, h.unused, h.placed, h.once⟩

theorem ticketsInv_run {a : Auth} {ops : List TicketOp} {l : Ledger}
    (h : Run (Exec (fun _ o => o.Named) Ledger.apply) (Ledger.start a) ops l) : TicketsInv l :=
  h.invariant (fun _ _ _ hl ⟨ho, ht⟩ => ht ▸ ticketsInv_apply hl ho) (TicketsInv.start a)

/-! ## One-shot tickets -/

/-- A consume needs the token of the name's latest ticket, not consumed yet, and returns the rights of its issue. -/
theorem consume_iff_latest {a : Auth} {ops : List TicketOp} {l : Ledger}
    (h : Run (Exec (fun _ o => o.Named) Ledger.apply) (Ledger.start a) ops l) :
    (∀ (name : CStr) (tok : BitVec 64),
      ((authTicketConsume l.auth name tok).isSome ↔
        ∃ i r, Latest l.issues name i ∧ l.issues[i]? = some r ∧ r.tok = tok ∧ i ∉ l.consumed) ∧
      ∀ b, authTicketConsume l.auth name tok = some b →
        ∃ i r, Latest l.issues name i ∧ l.issues[i]? = some r ∧
          (l.apply (.consume name tok)).consumed = i :: l.consumed ∧ b.synthUser.caps = r.caps) ∧
    l.consumed.Nodup ∧
    ∀ (i j : Nat) (t u : AuthTicket), l.auth.tickets[i]? = some t → l.auth.tickets[j]? = some u →
      t.used = false → u.used = false → t.name = u.name → i = j := by
  have hinv := ticketsInv_run h
  refine ⟨fun name tok => ⟨?_, ?_⟩, hinv.once, ?_⟩
  · rw [authTicketConsume, Option.isSome_map, authTicketMatch_isSome]
    constructor
    · rintro ⟨i, t, ht, hunused, rfl, rfl⟩
      obtain ⟨hi, hlatest⟩ := (hinv.unused i t ht).mp hunused
      exact ⟨i, t.issue, hlatest, hinv.issued ht, rfl, hi⟩
    · rintro ⟨i, r, hlatest, hr, htok, hi⟩
      have hlt : i < l.auth.tickets.length := by
        rw [hinv.length]
        exact hlatest.lt
      have ht := List.getElem?_eq_getElem hlt
      have hissue := hinv.issued ht
      rw [hr, Option.some.injEq] at hissue
      subst hissue
      obtain ⟨⟨r', hr', hname⟩, -⟩ := id hlatest
      rw [hr, Option.some.injEq] at hr'
      subst hr'
      have hname' : l.auth.tickets[i].name = name := hname
      exact ⟨i, _, ht, (hinv.unused i _ ht).mpr ⟨hi, hname' ▸ hlatest⟩, hname', htok⟩
  · intro b hb
    obtain ⟨t, ht, hcaps⟩ := Option.map_eq_some_iff.mp hb
    obtain ⟨hget, hunused, hname, -⟩ := authTicketMatch_some ht
    obtain ⟨-, hlatest⟩ := (hinv.unused _ t hget).mp hunused
    refine ⟨_, t.issue, hname ▸ hlatest, hinv.issued hget, ?_, by rw [← hcaps]; rfl⟩
    simp only [Ledger.apply, hb]
  · intro i j t u ht hu htu huu hname
    have hi := ((hinv.unused i t ht).mp htu).2
    have hj := ((hinv.unused j u hu).mp huu).2
    exact hi.eq (hname ▸ hj)

/-- Two tickets of one name: the older one does not open a session and the newer one does once. -/
theorem consume_iff_latest_two_issues :
    let name := ascii "eva"
    let l := [TicketOp.issue name 5 7 0, .issue name 6 7 0, .consume name 7].foldl Ledger.apply
      (Ledger.start authInit)
    l.consumed = [1] ∧ ((authTicketConsume l.auth name 7).isSome ↔
      ∃ i r, Latest l.issues name i ∧ l.issues[i]? = some r ∧ r.tok = 7 ∧ i ∉ l.consumed) := by
  intro name l
  have hrun : Run (Exec (fun _ o => o.Named) Ledger.apply) (Ledger.start authInit)
      [TicketOp.issue name 5 7 0, .issue name 6 7 0, .consume name 7] l :=
    Run.of_admits (by decide)
  exact ⟨by decide, ((consume_iff_latest hrun).1 name 7).1⟩

/-! ## A ticket for each login -/

/-- The tickets neither consumed nor invalidated. -/
def consumable (a : Auth) : List AuthTicket := a.tickets.filter (!·.used)

/-- Each issue takes a place of the table, and no place is ever freed. -/
structure PlacesInv (l : Ledger) : Prop where
  length : l.auth.tickets.length = l.issues.length
  bound : l.issues.length ≤ authTicketMax

theorem placesInv_apply {l : Ledger} (h : PlacesInv l) (o : TicketOp) : PlacesInv (l.apply o) := by
  have hlen := h.length
  cases o with
  | issue name caps tok issuer =>
    simp only [Ledger.apply]
    split
    · exact h
    · next b hb =>
      obtain ⟨hroom, htickets⟩ := authTicketIssue_some hb
      constructor
      · simp [htickets, hlen]
      · simp
        omega
  | consume name tok =>
    simp only [Ledger.apply]
    split
    · exact h
    · next b hb =>
      obtain ⟨t, -, hb⟩ := Option.map_eq_some_iff.mp hb
      constructor
      · simp [← hb, useTicket_eq, hlen]
      · exact h.bound
  | session u => exact ⟨h.length, h.bound⟩

theorem placesInv_run {a : Auth} {ops : List TicketOp} {l : Ledger}
    (h : Run (Exec (fun _ _ => True) Ledger.apply) (Ledger.start a) ops l) : PlacesInv l := by
  apply h.invariant (fun _ _ _ hl ⟨_, ht⟩ => ht ▸ placesInv_apply hl _)
  constructor <;> simp [Ledger.start]

/-- With room in the table, an issue succeeds exactly when fewer than `AUTH_TICKET_MAX` were issued so far. -/
theorem issue_succeeds_iff {a : Auth} {ops : List TicketOp} {l : Ledger}
    (h : Run (Exec (fun _ _ => True) Ledger.apply) (Ledger.start a) ops l) :
    ((consumable l.auth).length < authTicketMax →
      ∀ (name : CStr) (caps : Rights) (tok : BitVec 64) (issuer : Rights), name ≠ [] →
        (authTicketIssue l.auth name caps tok issuer).isSome) ↔
    l.issues.length < authTicketMax ∨ (consumable l.auth).length = authTicketMax := by
  obtain ⟨hlen, hbound⟩ := placesInv_run h
  have hle : (consumable l.auth).length ≤ l.auth.tickets.length := List.length_filter_le _ _
  constructor
  · intro hissue
    rcases Nat.lt_or_ge (consumable l.auth).length authTicketMax with hlt | hge
    · have := (authTicketIssue_isSome.mp (hissue hlt (ascii "x") 0 0 0 (by decide))).2
      omega
    · omega
  · rintro (hfew | hfull) hlt name caps tok issuer hname
    · exact authTicketIssue_isSome.mpr ⟨hname, by omega⟩
    · omega

/-- Sixteen logins, each with its own ticket. -/
def sixteenLogins : List TicketOp :=
  (List.replicate 16 [TicketOp.issue (ascii "eva") capAll 7 0, .consume (ascii "eva") 7,
    .session (some .synth), .session none]).flatten

theorem sixteenLogins_run :
    Run (Exec (fun _ _ => True) Ledger.apply) (Ledger.start authInit) sixteenLogins
      (sixteenLogins.foldl Ledger.apply (Ledger.start authInit)) :=
  Run.of_admits (by decide)

theorem issue_succeeds_iff_sixteen :
    let l := sixteenLogins.foldl Ledger.apply (Ledger.start authInit)
    ((consumable l.auth).length < authTicketMax →
      ∀ (name : CStr) (caps : Rights) (tok : BitVec 64) (issuer : Rights), name ≠ [] →
        (authTicketIssue l.auth name caps tok issuer).isSome) ↔
    l.issues.length < authTicketMax ∨ (consumable l.auth).length = authTicketMax := by
  exact issue_succeeds_iff sixteenLogins_run

/-- After sixteen logins and logouts no ticket is left and none can be issued. -/
theorem login_runs_out :
    ¬ ∀ (a : Auth) (ops : List TicketOp) (l : Ledger),
      Run (Exec (fun _ _ => True) Ledger.apply) (Ledger.start a) ops l →
      (consumable l.auth).length < authTicketMax →
      ∀ (name : CStr) (caps : Rights) (tok : BitVec 64) (issuer : Rights), name ≠ [] →
        (authTicketIssue l.auth name caps tok issuer).isSome := by
  intro hall
  have hissue := hall authInit sixteenLogins _ sixteenLogins_run (by decide +kernel) (ascii "eva")
    capAll 7 0 (by decide)
  exact absurd hissue (by decide +kernel)

end Siathos.Nomos
