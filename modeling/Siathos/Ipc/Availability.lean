import Siathos.Ipc.Delivery

/-!
# A mailbox for every process

No mailbox is ever given back. Every process can be written to as long as the last free mailbox goes to
the only process that has none.
-/

open Lib

namespace Siathos.Ipc.Post

def HasMailbox (mbs : Mailboxes) (pid : Nat) : Prop := ∃ mb ∈ mbs, mb.pid = pid

instance (mbs : Mailboxes) (pid : Nat) : Decidable (HasMailbox mbs pid) :=
  inferInstanceAs (Decidable (∃ _ ∈ _, _))

/-- Every live process can be written to and can receive: neither call returns -2. -/
def Available (s : Sys) : Prop :=
  ∀ q ∈ s.live,
    (∀ canIpc sender type data, (ipcSend s.mailboxes canIpc sender q type data).2 ≠ -2) ∧
    ∀ canIpc max, (ipcReceive s.mailboxes canIpc q max).2 ≠ .error (-2)

/-- There is a mailbox for every live process. -/
def Provided (s : Sys) : Prop := ∀ q ∈ s.live, HasMailbox s.mailboxes q ∨ HasFree s.mailboxes

theorem mailboxFor_ne_none {mbs : Mailboxes} {pid : Nat} :
    mailboxFor mbs pid ≠ none ↔ HasMailbox mbs pid ∨ HasFree mbs := by
  rw [Ne, mailboxFor_eq_none, not_and_or, not_not]
  refine or_congr ?_ Iff.rfl
  unfold HasMailbox
  simp

theorem ipcSend_eq_neg_two {mbs : Mailboxes} {canIpc : Bool} {sender dst type : Nat} {data : List UInt8} :
    (ipcSend mbs canIpc sender dst type data).2 = -2 ↔ canIpc = true ∧ mailboxFor mbs dst = none := by
  unfold ipcSend
  cases hsend : doSend mbs canIpc sender dst type data 0 with
  | none =>
    cases canIpc with
    | false => simp
    | true =>
      have hbox := (doSend_eq_none.mp hsend).resolve_left (by decide)
      simp [hbox]
  | some mbs' =>
    obtain ⟨-, hbox⟩ := not_or.mp (mt doSend_eq_none.mpr (by rw [hsend]; exact Option.some_ne_none mbs'))
    simp [hbox]

theorem ipcTryReceive_of_none {mbs : Mailboxes} {canIpc : Bool} {me : Nat} (h : mailboxFor mbs me = none) :
    ipcTryReceive mbs canIpc me = (mbs, none) := by
  unfold ipcTryReceive
  rw [h]
  split <;> rfl

theorem ipcReceive_eq_neg_two {mbs : Mailboxes} {canIpc : Bool} {me max : Nat} :
    (ipcReceive mbs canIpc me max).2 = .error (-2) ↔ canIpc = true ∧ mailboxFor mbs me = none := by
  unfold ipcReceive
  constructor
  · intro h
    split at h
    · cases h
    · cases canIpc with
      | false => simp at h
      | true =>
        cases hbox : mailboxFor mbs me with
        | none => exact ⟨rfl, rfl⟩
        | some mbs' => simp [hbox] at h
  · rintro ⟨rfl, h⟩
    rw [ipcTryReceive_of_none h, h]
    rfl

theorem available_iff (s : Sys) : Available s ↔ Provided s := by
  refine forall₂_congr fun q _ => ?_
  rw [← mailboxFor_ne_none]
  constructor
  · rintro ⟨-, h⟩ hbox
    exact h true 0 (ipcReceive_eq_neg_two.mpr ⟨rfl, hbox⟩)
  · intro h
    exact ⟨fun _ _ _ _ hsend => h (ipcSend_eq_neg_two.mp hsend).2,
      fun _ _ hrecv => h (ipcReceive_eq_neg_two.mp hrecv).2⟩

/-! ## The table of mailboxes -/

theorem hasFree_claim {mbs mbs' : Mailboxes} {pid : Nat} (h : claimFree pid mbs = some mbs')
    (htwo : 2 ≤ (mbs.filter (·.pid = 0)).length) : HasFree mbs' := by
  induction mbs generalizing mbs' with
  | nil => cases h
  | cons mb rest ih =>
    unfold claimFree at h
    by_cases hfree : mb.pid = 0
    · rw [if_pos hfree] at h
      obtain rfl := Option.some.inj h
      rw [List.filter_cons_of_pos (by simpa using hfree), List.length_cons] at htwo
      obtain ⟨x, hx⟩ := List.exists_mem_of_length_pos (by omega : 0 < (rest.filter (·.pid = 0)).length)
      obtain ⟨hx, h0⟩ := List.mem_filter.mp hx
      exact ⟨x, List.mem_cons_of_mem _ hx, by simpa using h0⟩
    · rw [if_neg hfree] at h
      obtain ⟨rest', hrest, rfl⟩ := Option.map_eq_some_iff.mp h
      rw [List.filter_cons_of_neg (by simpa using hfree)] at htwo
      obtain ⟨x, hx, h0⟩ := ih hrest htwo
      exact ⟨x, List.mem_cons_of_mem _ hx, h0⟩

theorem hasMailbox_claim {mbs mbs' : Mailboxes} {pid q : Nat} (h : claimFree pid mbs = some mbs') (hq : q ≠ 0)
    (hbox : HasMailbox mbs q) : HasMailbox mbs' q := by
  induction mbs generalizing mbs' with
  | nil => cases h
  | cons mb rest ih =>
    unfold claimFree at h
    obtain ⟨x, hx, hpid⟩ := hbox
    by_cases hfree : mb.pid = 0
    · rw [if_pos hfree] at h
      obtain rfl := Option.some.inj h
      rcases List.mem_cons.mp hx with rfl | hx
      · exact absurd (hpid.symm.trans hfree) hq
      · exact ⟨x, List.mem_cons_of_mem _ hx, hpid⟩
    · rw [if_neg hfree] at h
      obtain ⟨rest', hrest, rfl⟩ := Option.map_eq_some_iff.mp h
      rcases List.mem_cons.mp hx with rfl | hx
      · exact ⟨x, List.mem_cons_self, hpid⟩
      · obtain ⟨y, hy, hpid⟩ := ih hrest ⟨x, hx, hpid⟩
        exact ⟨y, List.mem_cons_of_mem _ hy, hpid⟩

theorem updateMailbox_pids (pid : Nat) (f : Ring Message ipcQueueMax → Ring Message ipcQueueMax) (mbs : Mailboxes) :
    (updateMailbox pid f mbs).map (·.pid) = mbs.map (·.pid) := by
  induction mbs with
  | nil => rfl
  | cons mb rest ih =>
    unfold updateMailbox
    split
    · rfl
    · rw [List.map_cons, List.map_cons, ih]

theorem hasMailbox_iff {mbs : Mailboxes} {pid : Nat} : HasMailbox mbs pid ↔ pid ∈ mbs.map (·.pid) := by
  rw [List.mem_map]
  exact Iff.rfl

/-- The numbers in the table after a call for `pid`. -/
def pidsAfter (mbs : Mailboxes) (pid : Nat) : List Nat := ((mailboxFor mbs pid).getD mbs).map (·.pid)

theorem doSend_pids {mbs mbs' : Mailboxes} {canIpc : Bool} {sender dst type : Nat} {data : List UInt8}
    (h : doSend mbs canIpc sender dst type data 0 = some mbs') : mbs'.map (·.pid) = pidsAfter mbs dst := by
  obtain ⟨-, -, h⟩ := Option.bind_eq_some_iff.mp h
  obtain ⟨mid, hmid, h⟩ := Option.bind_eq_some_iff.mp h
  obtain rfl := Option.some.inj h
  unfold pidsAfter
  rw [updateMailbox_pids, hmid]
  rfl

theorem ipcTryReceive_pids (mbs : Mailboxes) (canIpc : Bool) (me : Nat) :
    (ipcTryReceive mbs canIpc me).1.map (·.pid) = mbs.map (·.pid) ∨
      canIpc = true ∧ (ipcTryReceive mbs canIpc me).1.map (·.pid) = pidsAfter mbs me := by
  unfold ipcTryReceive pidsAfter
  split
  · exact Or.inl rfl
  rename_i hcan
  split
  · exact Or.inl rfl
  rename_i mid hmid
  refine Or.inr ⟨by simpa using hcan, ?_⟩
  split
  · rw [hmid]
    rfl
  · rw [updateMailbox_pids, hmid]
    rfl

/-! ## Runs -/

/-- A call for the process takes the last free mailbox only if every other live process has one. -/
def LeavesRoom (s : Sys) (pid : Nat) : Prop :=
  Claims s.mailboxes pid → (s.mailboxes.filter (·.pid = 0)).length = 1 →
    ∀ q ∈ s.live, q = pid ∨ HasMailbox s.mailboxes q

instance (s : Sys) (pid : Nat) : Decidable (LeavesRoom s pid) :=
  inferInstanceAs (Decidable (_ → _ → ∀ _ ∈ _, _))

/-- The last free mailbox goes to the only process that has none, and none is created without one. -/
def RoomForAll (s : Sys) : Op → Prop
  | .send _ dst _ canIpc _ => canIpc = true → LeavesRoom s dst
  | .receive me _ canIpc => canIpc = true → LeavesRoom s me
  | .create => HasFree s.mailboxes
  | .exit _ => True

instance (s : Sys) : (o : Op) → Decidable (RoomForAll s o)
  | .send .. | .receive .. => inferInstanceAs (Decidable (_ → LeavesRoom s _))
  | .create => inferInstanceAs (Decidable (HasFree s.mailboxes))
  | .exit _ => isTrue trivial

/-- What a run keeps: numbers are not 0, and there is a mailbox for every live process. -/
structure Stocked (s : Sys) : Prop where
  live_ne : ∀ q ∈ s.live, q ≠ 0
  next_ne : s.nextPid ≠ 0
  provided : Provided s

theorem stocked_boot : Stocked boot where
  live_ne := by
    intro q hq
    rw [List.mem_singleton.mp hq]
    exact Nat.one_ne_zero
  next_ne := Nat.succ_ne_zero 1
  provided := fun _ _ => Or.inr ⟨emptyMailbox 0, List.mem_replicate.mpr ⟨by decide, rfl⟩, rfl⟩

theorem Stocked.of_pids {s t : Sys} (h : Stocked s) (hlive : t.live = s.live) (hnext : t.nextPid = s.nextPid)
    (hpids : t.mailboxes.map (·.pid) = s.mailboxes.map (·.pid)) : Stocked t where
  live_ne := hlive ▸ h.live_ne
  next_ne := hnext ▸ h.next_ne
  provided := by
    intro q hq
    have hp := h.provided q (hlive ▸ hq)
    unfold HasFree at hp ⊢
    rw [← HasMailbox, hasMailbox_iff, hasMailbox_iff] at hp ⊢
    rwa [hpids]

/-- A call for `pid` that leaves room leaves a mailbox for every live process. -/
theorem Stocked.call {s t : Sys} (h : Stocked s) {pid : Nat} (hroom : LeavesRoom s pid) (hlive : t.live = s.live)
    (hnext : t.nextPid = s.nextPid) (hpids : t.mailboxes.map (·.pid) = pidsAfter s.mailboxes pid) : Stocked t := by
  unfold pidsAfter at hpids
  cases hbox : mailboxFor s.mailboxes pid with
  | none =>
    rw [hbox] at hpids
    exact h.of_pids hlive hnext hpids
  | some mbs =>
    rw [hbox] at hpids
    rcases mailboxFor_cases hbox with ⟨rfl, -⟩ | ⟨hclaims, hfree⟩
    · exact h.of_pids hlive hnext hpids
    refine Stocked.of_pids (s := { s with mailboxes := mbs }) ⟨h.live_ne, h.next_ne, ?_⟩ hlive hnext hpids
    intro q hq
    have hq0 := h.live_ne q hq
    by_cases hhas : HasMailbox s.mailboxes q
    · exact Or.inl (hasMailbox_claim hfree hq0 hhas)
    by_cases htwo : 2 ≤ (s.mailboxes.filter (·.pid = 0)).length
    · exact Or.inr (hasFree_claim hfree htwo)
    -- the last free mailbox: it is for `q`, or `q` has one
    have hone : (s.mailboxes.filter (·.pid = 0)).length = 1 := by
      have hsome : HasFree s.mailboxes := by
        by_contra hno
        rw [claimFree_eq_none.mpr hno] at hfree
        cases hfree
      obtain ⟨mb, hmb, h0⟩ := hsome
      have hmem : mb ∈ s.mailboxes.filter (·.pid = 0) := List.mem_filter.mpr ⟨hmb, by simpa using h0⟩
      have hpos := List.length_pos_of_mem hmem
      omega
    rcases hroom hclaims hone q hq with rfl | hhas'
    · obtain ⟨mb, hmb⟩ := find?_of_mailboxFor hbox
      exact Or.inl ⟨mb, List.mem_of_find?_eq_some hmb, by simpa using List.find?_some hmb⟩
    · exact absurd hhas' hhas

theorem Stocked.send {s : Sys} (h : Stocked s) (sender dst type : Nat) {canIpc : Bool} (data : List UInt8)
    (hroom : canIpc = true → LeavesRoom s dst) : Stocked (send s sender dst type canIpc data) := by
  unfold Post.send ipcSend
  cases hsend : doSend s.mailboxes canIpc sender dst type data 0 with
  | none =>
    cases canIpc
    · exact h
    · exact h
  | some mbs => exact h.call (hroom (doSend_some hsend).1) rfl rfl (doSend_pids hsend)

theorem Stocked.receive {s : Sys} (h : Stocked s) (me max : Nat) {canIpc : Bool}
    (hroom : canIpc = true → LeavesRoom s me) : Stocked (receive s me max canIpc) := by
  have hpids := ipcTryReceive_pids s.mailboxes canIpc me
  unfold Post.receive ipcReceive
  revert hpids
  generalize ipcTryReceive s.mailboxes canIpc me = r
  obtain ⟨mbs, msg⟩ := r
  rintro (hpids | ⟨hcan, hpids⟩)
  · cases msg
    · exact h.of_pids rfl rfl hpids
    · exact h.of_pids rfl rfl hpids
  · cases msg
    · exact h.call (hroom hcan) rfl rfl hpids
    · exact h.call (hroom hcan) rfl rfl hpids

theorem Stocked.step {s t : Sys} {o : Op} (h : Stocked s) (hstep : Guarded RoomForAll Step s o t) : Stocked t := by
  obtain ⟨hroom, -, rfl⟩ := hstep
  cases o with
  | send sender dst type canIpc data => exact h.send sender dst type data hroom
  | receive me max canIpc => exact h.receive me max hroom
  | create =>
    refine ⟨?_, Nat.succ_ne_zero _, ?_⟩
    · exact List.forall_mem_cons.mpr ⟨h.next_ne, h.live_ne⟩
    · exact List.forall_mem_cons.mpr ⟨Or.inr hroom, h.provided⟩
  | exit pid =>
    exact ⟨fun q hq => h.live_ne q (List.mem_of_mem_erase hq), h.next_ne,
      fun q hq => h.provided q (List.mem_of_mem_erase hq)⟩

/-- In a run that leaves a mailbox for every live process, none is ever told that there is none. -/
theorem available {ops : List Op} {s : Sys} (h : Run (Guarded RoomForAll Step) boot ops s) : Available s :=
  (available_iff s).mpr (Run.invariant (fun _ _ _ hs hstep => Stocked.step hs hstep) h stocked_boot).provided

theorem available_two :
    Available (([.create, .send 1 2 7 true [0x61], .receive 2 64 true, .exit 2] : List Op).foldl apply boot) :=
  available (Run.of_admits_guarded (by decide +kernel))

/-- Messages to 64 numbers that no process ever had. -/
def strangers : List Op := (List.range 64).map fun i => .send 1 (1000 + i) 0 true []

/-- They leave the only process without a mailbox of its own. -/
theorem available_exhausted : ¬ ∀ (ops : List Op) (s : Sys), Run Step boot ops s → Available s := by
  intro h
  have havail := h strangers _ (Run.of_admits (by decide +kernel))
  have hlive : 1 ∈ (strangers.foldl apply boot).live := by decide +kernel
  rcases (available_iff _).mp havail 1 hlive with hhas | hfree
  · exact absurd hhas (by decide +kernel)
  · exact absurd hfree (by decide +kernel)

end Siathos.Ipc.Post
