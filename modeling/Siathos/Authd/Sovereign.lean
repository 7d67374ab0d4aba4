import Siathos.Authd.Store

/-!
# Who may administer accounts

Accounts are for the sovereign to create and to delete. The service notes that the sovereign has logged in
once, and from then on does what anybody asks.
-/

open Lib Siathos.Nomos Siathos.Ipc

namespace Siathos.Authd

/-! ## The service and its clients -/

/-- The service, the user who is logged in in the session of each process, and the names for which it gave out
tickets. -/
structure World where
  serving : Serving Accounts
  user : Nat → Option CStr
  tickets : List CStr

inductive WorldOp
  /-- Somebody logs in or out in the session of the process, or it joins another session. -/
  | session (pid : Nat) (user : Option CStr)
  | request (m : Call Env)

def fields (m : Call Env) : Fields := authFields (svcRequest m.payload)

namespace World

def start (req resp : Buf) : World := ⟨⟨authdInit, req, resp⟩, fun _ => none, []⟩

def authd (w : World) : Accounts := w.serving.service

/-- A ticket has 16 digits. -/
def apply (w : World) : WorldOp → World
  | .session pid user => { w with user := Function.update w.user pid user }
  | .request m =>
    let r := serve authdHandler w.serving m
    { w with
      serving := r.1
      tickets := if m.type = ipcTypeAuthLogin ∧ r.2.length = 16 then (fields m).f1 :: w.tickets else w.tickets }

end World

/-- The name of the sovereign. -/
def Sovereign (s : Accounts) (name : CStr) : Prop := ∃ u ∈ idents s, u.active = true ∧ u.isAdmin = true ∧ u.name = name

/-- The process belongs to a session in which the sovereign is logged in. -/
def FromSovereign (w : World) (pid : Nat) : Prop := ∃ name ∈ w.user pid, Sovereign w.authd name

/-- The sovereign has logged in since the service started. -/
def SovereignSeen (w : World) : Prop := ∃ name ∈ w.tickets, Sovereign w.authd name

/-- The requests that are for the sovereign. -/
def ForSovereign (s : Accounts) (m : Call Env) : Prop :=
  m.type = ipcTypeAuthDelete ∨ m.type = ipcTypeAuthCreateUser ∨
    m.type = ipcTypeAuthChangepw ∧ verify m.env s (fields m).f1 (fields m).f2 = false

/-- The request can be met: there is an account to delete or to change, or room for a new one, and the kernel hashes the
password. -/
def Feasible (s : Accounts) (m : Call Env) : Prop :=
  if m.type = ipcTypeAuthDelete then ∃ i, find s (fields m).f1 = some i ∧ isAdmin s i = false
  else if m.type = ipcTypeAuthCreateUser then
    3 ≤ (fields m).f1.length ∧ 4 ≤ (fields m).f2.length ∧ s.accts.length < authMax ∧ find s (fields m).f1 = none ∧
      authdHash m.env 0 (fields m).f2 (m.env.salt 0) ≠ []
  else
    4 ≤ (fields m).f3.length ∧ find s (fields m).f1 ≠ none ∧ authdHash m.env 2 (fields m).f3 (m.env.salt 1) ≠ []

/-! ## When the service says '1' -/

variable {env : Env} {s : Accounts}

theorem handleDelete_true (s : Accounts) (f : Fields) :
    (handleDelete s f).2 = true ↔ s.adminAuthed = true ∧ ∃ i, find s f.f1 = some i ∧ isAdmin s i = false := by
  unfold handleDelete
  cases find s f.f1 with
  | none => simp
  | some i =>
    dsimp only
    split
    · next h =>
      simp only [Bool.or_eq_true, Bool.not_eq_true'] at h
      simp only [Bool.false_eq_true, Option.some.injEq, exists_eq_left', false_iff, not_and, Bool.not_eq_false]
      intro hauthed
      simpa [hauthed] using h
    · next h => simpa [and_comm] using h

theorem handleCreateUser_true (s : Accounts) (f : Fields) :
    (handleCreateUser env s f).2 = true ↔ s.adminAuthed = true ∧ 3 ≤ f.f1.length ∧ 4 ≤ f.f2.length ∧
      s.accts.length < authMax ∧ find s f.f1 = none ∧ authdHash env 0 f.f2 (env.salt 0) ≠ [] := by
  unfold handleCreateUser
  split
  · next h => simp [show s.adminAuthed = false by simpa using h]
  split
  · next h =>
    simp only [Bool.false_eq_true, false_iff]
    omega
  next hauthed hlen =>
    have hcreate : (create env s f.f1 f.f2 capUserDefault false).isSome = true ↔
        s.accts.length < authMax ∧ find s f.f1 = none ∧ authdHash env 0 f.f2 (env.salt 0) ≠ [] := by
      unfold create
      split
      · simp only [Option.isSome_none, Bool.false_eq_true, false_iff]
        omega
      split
      · next hfind => simp [Option.isSome_iff_ne_none.mp hfind]
      · next hroom hfind =>
        have hnone : find s f.f1 = none := by simpa using hfind
        dsimp only
        split
        · next hhash => simp [hhash]
        · next hhash => simp [hhash, hnone, Nat.lt_of_not_le hroom]
    cases hc : create env s f.f1 f.f2 capUserDefault false with
    | none =>
      rw [hc] at hcreate
      simp only [Bool.false_eq_true, false_iff]
      rintro ⟨-, -, -, hrest⟩
      exact absurd (hcreate.mpr hrest) (by simp)
    | some t =>
      rw [hc] at hcreate
      simp only [true_iff]
      exact ⟨by simpa using hauthed, by omega, by omega, hcreate.mp rfl⟩

theorem handleChangepw_true {f : Fields} (hverify : verify env s f.f1 f.f2 = false) :
    (handleChangepw env s f).2 = true ↔ s.adminAuthed = true ∧ 4 ≤ f.f3.length ∧ find s f.f1 ≠ none ∧
      authdHash env 2 f.f3 (env.salt 1) ≠ [] := by
  have hself : changePassword env s f.f1 f.f2 f.f3 = (s, false) := by
    unfold changePassword
    split
    · rfl
    split
    · rfl
    · rw [hverify]
      rfl
  unfold handleChangepw
  split
  · simp only [Bool.false_eq_true, false_iff]
    omega
  next hlen =>
    rw [hself]
    dsimp only
    cases find s f.f1 with
    | none => simp
    | some i =>
      cases hauthed : s.adminAuthed with
      | false => simp
      | true =>
        simp only [if_true, setPassword, decide_eq_true_eq]
        simp [Nat.le_of_not_lt hlen]

theorem flag_one (ok : Bool) (b : Buf) : (Writer.flag ok).reply b = ascii "1" ↔ ok = true := by
  rw [Writer.flag_writes]
  cases ok <;> decide

/-- A request that is for the sovereign is met whoever sent it, once `admin_authed` is set. -/
theorem serve_one {serving : Serving Accounts} {m : Call Env} (h : ForSovereign serving.service m) :
    (serve authdHandler serving m).2 = ascii "1" ↔ serving.service.adminAuthed = true ∧ Feasible serving.service m := by
  rw [(serve_eq authdHandler serving m).2]
  unfold answerOf authdHandler Feasible
  rcases h with htype | htype | ⟨htype, hverify⟩
  · simp only [htype, ipcTypePing, ipcTypeAuthCount, ipcTypeAuthList, ipcTypeAuthCreate, ipcTypeAuthLogin,
      ipcTypeAuthDelete, Nat.reduceEqDiff, if_false, if_true, flagged, flag_one]
    exact handleDelete_true _ _
  · simp only [htype, ipcTypePing, ipcTypeAuthCount, ipcTypeAuthList, ipcTypeAuthCreate, ipcTypeAuthLogin,
      ipcTypeAuthDelete,
      ipcTypeAuthChangepw, ipcTypeAuthCreateUser, Nat.reduceEqDiff, if_false, if_true, flagged, flag_one]
    exact handleCreateUser_true _ _
  · simp only [htype, ipcTypePing, ipcTypeAuthCount, ipcTypeAuthList, ipcTypeAuthCreate, ipcTypeAuthLogin,
      ipcTypeAuthDelete,
      ipcTypeAuthChangepw, ipcTypeAuthCreateUser, Nat.reduceEqDiff, if_false, if_true, flagged, flag_one]
    exact handleChangepw_true hverify

/-! ## What `admin_authed` stands for -/

theorem sovereign_iff (h : StoreInv s) (name : CStr) : Sovereign s name ↔ ∃ u ∈ (idents s).head?, u.name = name := by
  have hheaded := h.headed
  unfold Sovereign
  cases hs : idents s with
  | nil => simp
  | cons u rest =>
    rw [hs] at hheaded
    obtain ⟨hactive, hadmin, -, hrest⟩ := hheaded
    simp only [List.mem_cons, List.head?_cons, Option.mem_def, Option.some.injEq, exists_eq_left']
    constructor
    · rintro ⟨v, rfl | hv, -, hvadmin, hname⟩
      · exact hname
      · rw [hrest v hv] at hvadmin
        cases hvadmin
    · exact fun hname => ⟨u, .inl rfl, hactive, hadmin, hname⟩

/-- The account that `find` gives for a name is the sovereign's where the name is. -/
theorem isAdmin_iff (h : StoreInv s) {name : CStr} {i : Nat} {u : Acct} (hi : find s name = some i)
    (hu : s.accts[i]? = some u) : u.isAdmin = true ↔ Sovereign s name := by
  unfold find at hi
  obtain ⟨hlt, hmatch, hbefore⟩ := List.findIdx?_eq_some_iff_getElem.mp hi
  obtain ⟨_, hget⟩ := List.getElem?_eq_some_iff.mp hu
  rw [hget, Bool.and_eq_true, decide_eq_true_eq] at hmatch
  constructor
  · intro hadmin
    exact ⟨u.ident, List.mem_map_of_mem (List.mem_of_getElem? hu), hmatch.1, hadmin, hmatch.2⟩
  · intro hsovereign
    obtain ⟨v, hv, hname⟩ := (sovereign_iff h name).mp hsovereign
    have hheaded := h.headed
    unfold idents at hv hheaded
    cases haccts : s.accts with
    | nil => simp [haccts] at hv
    | cons a rest =>
      rw [haccts] at hheaded
      simp only [haccts, List.map_cons, List.head?_cons, Option.mem_def, Option.some.injEq] at hv
      subst hv
      obtain ⟨hactive, hadmin, -, -⟩ := hheaded
      cases i with
      | zero =>
        simp only [haccts, List.getElem?_cons_zero, Option.some.injEq] at hu
        exact hu ▸ hadmin
      | succ i =>
        have hfirst := hbefore 0 (Nat.zero_lt_succ i)
        simp only [haccts, List.getElem_cons_zero] at hfirst
        simp only [Acct.ident] at hactive hname
        simp [hactive, hname] at hfirst

theorem authdHandler_authed {type : Nat} (htype : type ≠ ipcTypeAuthLogin) (sender : Nat) (req : CStr) :
    (authdHandler env s sender type req).1.adminAuthed = s.adminAuthed := by
  unfold authdHandler
  dsimp only
  split
  · rfl
  split
  · rfl
  split
  · rfl
  split
  · unfold flagged handleCreate
    split
    · rfl
    split
    · rfl
    split
    · next ht =>
      obtain ⟨u, -, -, -, rfl⟩ := create_some ht
      rfl
    · rfl
  split
  · unfold flagged handleDelete
    split
    · rfl
    split <;> rfl
  split
  · exact (handleChangepw_keeps _ s _).2
  split
  · unfold flagged handleCreateUser
    split
    · rfl
    split
    · rfl
    split
    · next ht =>
      obtain ⟨u, -, -, -, rfl⟩ := create_some ht
      rfl
    · rfl
  · rfl

theorem serve_login (serving : Serving Accounts) {m : Call Env} (htype : m.type = ipcTypeAuthLogin) :
    ((serve authdHandler serving m).2.length ≠ 16 ∧ (serve authdHandler serving m).1.service = serving.service) ∨
    (serve authdHandler serving m).2.length = 16 ∧ ∃ i u, find serving.service (fields m).f1 = some i ∧
      serving.service.accts[i]? = some u ∧ (serve authdHandler serving m).1.service =
        { serving.service with adminAuthed := serving.service.adminAuthed || u.isAdmin } := by
  obtain ⟨hservice, hreply⟩ := serve_eq authdHandler serving m
  have hlogin : answerOf authdHandler serving.service m = handleLogin m.env serving.service (fields m) := by
    simp [answerOf, authdHandler, htype, ipcTypePing, ipcTypeAuthCount, ipcTypeAuthList, ipcTypeAuthCreate,
      ipcTypeAuthLogin, fields]
  rw [hservice, hreply, hlogin]
  unfold handleLogin
  split
  · split
    · exact .inl ⟨by simp [Writer.reply, Writer.ncpy], rfl⟩
    · next u hu =>
      obtain ⟨i, hi, hget⟩ := Option.bind_eq_some_iff.mp hu
      split
      · exact .inr ⟨by simp [Writer.reply, Writer.ncpy], i, u, hi, hget, rfl⟩
      · exact .inl ⟨by simp [Writer.reply, Writer.ncpy], rfl⟩
  · exact .inl ⟨by simp [Writer.reply, Writer.ncpy], rfl⟩

structure WorldInv (w : World) : Prop where
  store : StoreInv w.authd
  tickets : w.tickets ≠ [] → w.authd.accts ≠ []
  seen : w.authd.adminAuthed = true ↔ SovereignSeen w

theorem WorldInv.seen_after {w : World} (h : WorldInv w) {t : Accounts} (ht : StoreInv t)
    (hhead : w.authd.accts ≠ [] → (idents t).head? = (idents w.authd).head?) :
    (∃ name ∈ w.tickets, Sovereign t name) ↔ SovereignSeen w := by
  refine exists_congr fun name => and_congr_right fun hname => ?_
  rw [sovereign_iff ht, sovereign_iff h.store, hhead (h.tickets (List.ne_nil_of_mem hname))]

theorem WorldInv.apply {w : World} (h : WorldInv w) (o : WorldOp) : WorldInv (w.apply o) := by
  cases o with
  | session pid user => exact ⟨h.store, h.tickets, h.seen⟩
  | request m =>
    have heffect := serve_effect w.serving m
    obtain ⟨hstore, hhead⟩ := h.store.effect heffect
    have hseen := h.seen_after hstore hhead
    have hkept : w.authd.accts ≠ [] → (serve authdHandler w.serving m).1.service.accts ≠ [] := by
      intro hne hnil
      have hsame := hhead hne
      rw [idents, idents, hnil, List.map_nil, List.head?_nil, eq_comm, List.head?_eq_none_iff,
        List.map_eq_nil_iff] at hsame
      exact hne hsame
    by_cases htype : m.type = ipcTypeAuthLogin
    · rcases serve_login w.serving htype with ⟨hlength, hsame⟩ | ⟨hlength, i, u, hi, hu, hnext⟩
      · refine ⟨hstore, ?_, ?_⟩
        · simpa [World.apply, World.authd, htype, hlength] using fun hne => hkept (h.tickets hne)
        · simp only [World.apply, World.authd, SovereignSeen, htype, hlength, and_false, if_false]
          rw [hseen, ← h.seen, hsame]
          rfl
      · have hne : w.authd.accts ≠ [] := by
          intro hnil
          rw [show w.serving.service.accts = [] from hnil] at hu
          simp at hu
        refine ⟨hstore, fun _ => hkept hne, ?_⟩
        simp only [World.apply, World.authd, SovereignSeen, htype, hlength, and_self, if_true, List.mem_cons,
          exists_eq_or_imp]
        rw [hseen, ← h.seen, sovereign_iff hstore, hhead hne, ← sovereign_iff h.store,
          ← isAdmin_iff h.store hi hu, hnext]
        simp only [Bool.or_eq_true]
        exact or_comm
    · refine ⟨hstore, ?_, ?_⟩
      · simpa [World.apply, World.authd, htype] using fun hne => hkept (h.tickets hne)
      · simp only [World.apply, World.authd, SovereignSeen, htype, false_and, if_false]
        rw [hseen, ← h.seen, (serve_eq authdHandler w.serving m).1, answerOf, authdHandler_authed htype]
        rfl

theorem WorldInv.run (req resp : Buf) (ops : List WorldOp) :
    WorldInv (ops.foldl World.apply (World.start req resp)) := by
  have hstart : WorldInv (World.start req resp) :=
    ⟨StoreInv.init, fun h => absurd rfl h, by simp [World.start, World.authd, authdInit, SovereignSeen]⟩
  generalize World.start req resp = w at hstart
  induction ops generalizing w with
  | nil => exact hstart
  | cons o ops ih => exact ih _ (hstart.apply o)

/-- Only the sovereign's session gets '1', unless the sovereign has logged in before and the request can be met. -/
theorem authd_sovereign_iff (req resp : Buf) (ops : List WorldOp) (m : Call Env) :
    let w := ops.foldl World.apply (World.start req resp)
    ForSovereign w.authd m →
      (((serve authdHandler w.serving m).2 = ascii "1" → FromSovereign w m.sender) ↔
        FromSovereign w m.sender ∨ ¬ SovereignSeen w ∨ ¬ Feasible w.authd m) := by
  intro w hm
  have hinv := WorldInv.run req resp ops
  rw [serve_one hm]
  have hseen := hinv.seen
  change w.authd.adminAuthed = true ↔ SovereignSeen w at hseen
  change ((w.authd.adminAuthed = true ∧ Feasible w.authd m → _) ↔ _)
  rw [hseen, imp_iff_or_not, not_and_or]

def aNames : CStr := List.replicate 31 0x61

/-- Process 5 makes the first account and logs in. -/
def founded : List WorldOp :=
  [.request bootstrapCall, .session 5 (some aNames), .request { bootstrapCall with type := ipcTypeAuthLogin }]

/-- A request for one more account. -/
def createCall (sender : Nat) : Call Env := ⟨plainEnv, sender, ipcTypeAuthCreateUser, List.replicate 36 0x62⟩

theorem authd_sovereign_founded :
    let w := founded.foldl World.apply (World.start (fun _ => 0) fun _ => 0)
    ((serve authdHandler w.serving (createCall 5)).2 = ascii "1" → FromSovereign w 5) ↔
      FromSovereign w 5 ∨ ¬ SovereignSeen w ∨ ¬ Feasible w.authd (createCall 5) :=
  authd_sovereign_iff (fun _ => 0) (fun _ => 0) founded (createCall 5) (.inr (.inl rfl))

/-- The sovereign logs out, and somebody else is in another session. -/
def handedOver : List WorldOp := founded ++ [.session 5 none, .session 7 (some (ascii "eva"))]

theorem authd_obeys_anybody :
    let w := handedOver.foldl World.apply (World.start (fun _ => 0) fun _ => 0)
    ForSovereign w.authd (createCall 7) ∧ (serve authdHandler w.serving (createCall 7)).2 = ascii "1" ∧
      ¬ FromSovereign w 7 := by
  refine ⟨.inr (.inl rfl), by decide +kernel, ?_⟩
  rintro ⟨name, hname, u, hu, -, -, rfl⟩
  have hothers : ∀ u ∈ idents (handedOver.foldl World.apply (World.start (fun _ => 0) fun _ => 0)).authd,
      some u.name ≠ some (ascii "eva") := by decide +kernel
  exact hothers u hu (Option.mem_def.mp hname).symm

end Siathos.Authd
