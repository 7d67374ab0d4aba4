import Siathos.Authd.Service
import Siathos.Lib.Modify

/-!
# The accounts of 'authd'

What each request can do to the accounts, and what holds of them after any requests: the names of active
accounts differ, and the first account, once there is one, stays the only sovereign.
-/

open Lib Siathos.Nomos Siathos.Ipc

namespace Siathos.Authd

/-- What of an account a change of password leaves alone. -/
structure Ident where
  name : CStr
  caps : Rights
  active : Bool
  isAdmin : Bool
  deriving DecidableEq, Repr

def Acct.ident (u : Acct) : Ident := ⟨u.name, u.caps, u.active, u.isAdmin⟩

def idents (s : Accounts) : List Ident := s.accts.map Acct.ident

def Ident.deactivate (u : Ident) : Ident := { u with active := false }

/-! ## What a request can do -/

/-- The effects of a request on the accounts, with its reply. -/
inductive Effect (s : Accounts) : Accounts → List UInt8 → Prop
  | keeps {t : Accounts} {l : List UInt8} : idents t = idents s →
    (t.adminAuthed = true → s.adminAuthed = true ∨ s.accts ≠ []) →
      Effect s t l
  | bootstrap {u : Acct} : s.accts = [] → u.ident = ⟨u.name, capAll, true, true⟩ →
      Effect s { s with accts := [u] } (ascii "1")
  | adds {u : Acct} : s.adminAuthed = true → s.accts.length < authMax → find s u.name = none → u.active = true →
      u.isAdmin = false → Effect s { s with accts := s.accts ++ [u] } (ascii "1")
  | deletes {i : Nat} : isAdmin s i = false →
      Effect s { s with accts := s.accts.modify i fun u => { u with active := false } } (ascii "1")

theorem Effect.zero {s t : Accounts} {l : List UInt8} (h : Effect s t l) (hl : l = ascii "0") :
    idents t = idents s := by
  cases h with
  | keeps hidents _ => exact hidents
  | bootstrap => exact absurd hl (by decide)
  | adds => exact absurd hl (by decide)
  | deletes => exact absurd hl (by decide)

theorem Effect.same (s : Accounts) (l : List UInt8) : Effect s s l := .keeps rfl .inl

theorem cut_f1 (req : CStr) : cut authName (authFields req).f1 = (authFields req).f1 := by
  refine List.take_of_length_le ?_
  simp only [authFields, field, List.length_take]
  omega

variable {env : Env} {s t : Accounts}

theorem create_some {name password : CStr} {caps : Rights} {admin : Bool}
    (h : create env s name password caps admin = some t) :
    ∃ u : Acct, u.ident = ⟨cut authName name, caps, true, admin⟩ ∧ find s name = none ∧ s.accts.length < authMax ∧
      t = { s with accts := s.accts ++ [u] } := by
  unfold create at h
  split at h
  · cases h
  split at h
  · cases h
  dsimp only at h
  split at h
  · cases h
  next hroom hfind hhash =>
    exact ⟨_, rfl, by simpa using hfind, by omega, (Option.some.inj h).symm⟩

variable (env)

theorem idents_setPassword (a b : Nat) (s : Accounts) (i : Nat) (pw : CStr) :
    idents (setPassword env a b s i pw).1 = idents s ∧ (setPassword env a b s i pw).1.adminAuthed = s.adminAuthed := by
  refine ⟨?_, rfl⟩
  apply map_modify_same
  exact fun _ => rfl

theorem changePassword_keeps (s : Accounts) (name oldpw newpw : CStr) :
    idents (changePassword env s name oldpw newpw).1 = idents s ∧
      (changePassword env s name oldpw newpw).1.adminAuthed = s.adminAuthed := by
  unfold changePassword
  split
  · exact ⟨rfl, rfl⟩
  split
  · exact ⟨rfl, rfl⟩
  split
  · exact idents_setPassword env 0 1 s _ newpw
  · exact ⟨rfl, rfl⟩

theorem handleChangepw_keeps (s : Accounts) (f : Fields) :
    idents (handleChangepw env s f).1 = idents s ∧ (handleChangepw env s f).1.adminAuthed = s.adminAuthed := by
  unfold handleChangepw
  split
  · exact ⟨rfl, rfl⟩
  have hkeeps := changePassword_keeps env s f.f1 f.f2 f.f3
  split
  · next heq =>
    rw [heq] at hkeeps
    exact hkeeps
  · next heq =>
    rw [heq] at hkeeps
    split
    · exact hkeeps
    split
    · obtain ⟨hidents, hauthed⟩ := idents_setPassword env 1 2 _ _ f.f3
      exact ⟨hidents.trans hkeeps.1, hauthed.trans hkeeps.2⟩
    · exact hkeeps

theorem handleLogin_keeps (s : Accounts) (f : Fields) : (handleLogin env s f).1.accts = s.accts ∧
    ((handleLogin env s f).1.adminAuthed = true → s.adminAuthed = true ∨ s.accts ≠ []) := by
  unfold handleLogin
  split
  · split
    · exact ⟨rfl, .inl⟩
    · next u hu =>
      split
      · refine ⟨rfl, fun _ => .inr fun hnil => ?_⟩
        simp [find, hnil] at hu
      · exact ⟨rfl, .inl⟩
  · exact ⟨rfl, .inl⟩

variable {env}

theorem authdHandler_effect (s : Accounts) (sender type : Nat) (req : CStr) (b : Buf) :
    Effect s (authdHandler env s sender type req).1 ((authdHandler env s sender type req).2.reply b) := by
  unfold authdHandler
  dsimp only
  split
  · exact .same _ _
  split
  · exact .same _ _
  split
  · exact .same _ _
  split
  · -- the bootstrap
    unfold flagged handleCreate
    split
    · exact .same _ _
    split
    · exact .same _ _
    split
    · next hempty _ _ t ht =>
      obtain ⟨u, hu, -, -, rfl⟩ := create_some ht
      have hnil : s.accts = [] := List.length_eq_zero_iff.mp (by omega)
      have hone := Writer.flag_writes true b
      simp only [hnil, List.nil_append]
      rw [hone]
      refine .bootstrap hnil ?_
      obtain ⟨hn, hrest⟩ := Ident.mk.inj hu
      simp [Acct.ident, hrest]
    · exact .same _ _
  split
  · obtain ⟨haccts, hauthed⟩ := handleLogin_keeps env s (authFields req)
    exact .keeps (by rw [idents, idents, haccts]) hauthed
  split
  · unfold flagged handleDelete
    split
    · exact .same _ _
    split
    · exact .same _ _
    · next i _ hi =>
      rw [Bool.or_eq_true, not_or] at hi
      have hone := Writer.flag_writes true b
      rw [hone]
      exact .deletes (by simpa using hi.1)
  split
  · obtain ⟨hidents, hauthed⟩ := handleChangepw_keeps env s (authFields req)
    exact .keeps hidents fun h => .inl (hauthed ▸ h)
  split
  · unfold flagged handleCreateUser
    split
    · exact .same _ _
    split
    · exact .same _ _
    split
    · next hauthed _ _ t ht =>
      obtain ⟨u, hu, hfind, hroom, rfl⟩ := create_some ht
      have hone := Writer.flag_writes true b
      rw [hone]
      obtain ⟨hname, -, hactive, hadmin⟩ := Ident.mk.inj hu
      rw [cut_f1] at hname
      exact .adds (by simpa using hauthed) hroom (hname ▸ hfind) hactive hadmin
    · exact .same _ _
  · exact .same _ _

/-! ## What holds of the accounts -/

/-- Two accounts, if both are active, have different names. -/
def Distinct (u v : Ident) : Prop := u.active = true → v.active = true → u.name ≠ v.name

/-- The first account is the sovereign, and no other is one. -/
def Headed : List Ident → Prop
  | [] => True
  | u :: rest => u.active = true ∧ u.isAdmin = true ∧ u.caps = capAll ∧ ∀ v ∈ rest, v.isAdmin = false

structure StoreInv (s : Accounts) : Prop where
  names : (idents s).Pairwise Distinct
  bound : (idents s).length ≤ authMax
  headed : Headed (idents s)
  authed : s.adminAuthed = true → s.accts ≠ []

theorem StoreInv.init : StoreInv authdInit :=
  ⟨List.Pairwise.nil, Nat.zero_le _, trivial, fun h => by cases h⟩

theorem idents_delete (s : Accounts) (i : Nat) :
    (s.accts.modify i fun u => { u with active := false }).map Acct.ident = (idents s).modify i Ident.deactivate := by
  apply map_modify
  exact fun _ => rfl

theorem find_none {name : CStr} (h : find s name = none) : ∀ u ∈ idents s, u.active = true → u.name ≠ name := by
  intro u hu hactive hname
  obtain ⟨a, ha, rfl⟩ := List.mem_map.mp hu
  unfold find at h
  rw [List.findIdx?_eq_none_iff] at h
  have := h a ha
  simp only [Acct.ident] at hactive hname
  simp [hactive, hname] at this

theorem Headed.delete {i : Nat} (h : Headed (idents s)) (hi : isAdmin s i = false) :
    Headed ((idents s).modify i Ident.deactivate) ∧
    ((idents s).modify i Ident.deactivate).head? = (idents s).head? := by
  unfold idents isAdmin at *
  cases haccts : s.accts with
  | nil => simp [Headed]
  | cons a rest =>
    rw [haccts] at h hi
    obtain ⟨hactive, hadmin, hcaps, hrest⟩ := h
    cases i with
    | zero =>
      simp only [List.getElem?_cons_zero, Option.any_some] at hi
      simp [Acct.ident, hi] at hadmin
    | succ i =>
      rw [List.map_cons, List.modify_succ_cons]
      refine ⟨⟨hactive, hadmin, hcaps, fun v hv => ?_⟩, rfl⟩
      rcases mem_modify hv with ⟨c, hc, rfl⟩ | ⟨j, -, hj⟩
      · exact hrest c (List.mem_of_getElem? hc)
      · exact hrest v (List.mem_of_getElem? hj)

theorem StoreInv.effect (h : StoreInv s) {l : List UInt8} (ht : Effect s t l) :
    StoreInv t ∧ (s.accts ≠ [] → (idents t).head? = (idents s).head?) := by
  cases ht with
  | keeps hidents hauthed =>
    refine ⟨⟨hidents ▸ h.names, hidents ▸ h.bound, hidents ▸ h.headed, fun hauth => ?_⟩, fun _ => by rw [hidents]⟩
    have hne : s.accts ≠ [] := (hauthed hauth).elim h.authed id
    intro hnil
    simp [idents, hnil, eq_comm, hne] at hidents
  | bootstrap hnil hu =>
    refine ⟨⟨?_, by simp [idents, authMax], ?_, fun _ => by simp⟩, fun hne => absurd hnil hne⟩
    · simp [idents]
    · simp [idents, hu, Headed]
  | @adds u hauthed hroom hfind hactive hadmin =>
    have hne := h.authed hauthed
    have hidents : idents { s with accts := s.accts ++ [u] } = idents s ++ [u.ident] := by simp [idents]
    refine ⟨⟨?_, ?_, ?_, fun _ => by simp⟩, fun _ => ?_⟩
    · rw [hidents, List.pairwise_append]
      refine ⟨h.names, List.pairwise_singleton _ _, fun v hv w hw hvactive _ => ?_⟩
      obtain rfl := List.mem_singleton.mp hw
      exact find_none hfind v hv hvactive
    · rw [hidents, List.length_append, List.length_singleton]
      have : (idents s).length = s.accts.length := List.length_map _
      omega
    · rw [hidents]
      have hheaded := h.headed
      cases hs : idents s with
      | nil => simp [idents, hne] at hs
      | cons v rest =>
        rw [hs] at hheaded
        obtain ⟨hv, hvadmin, hvcaps, hrest⟩ := hheaded
        refine ⟨hv, hvadmin, hvcaps, fun w hw => ?_⟩
        rcases List.mem_append.mp hw with hw | hw
        · exact hrest w hw
        · obtain rfl := List.mem_singleton.mp hw
          exact hadmin
    · rw [hidents]
      exact List.head?_append_of_ne_nil _ (by simpa [idents] using hne)
  | deletes hi =>
    obtain ⟨hheaded, hhead⟩ := h.headed.delete hi
    refine ⟨⟨?_, ?_, ?_, fun hauth hnil => h.authed hauth (by simpa using hnil)⟩, fun _ => ?_⟩
    · rw [idents, idents_delete]
      refine pairwise_modify (fun u v huv => ⟨?_, ?_⟩) h.names _
      · exact fun hu => by cases hu
      · exact fun _ hv => by cases hv
    · rw [idents, idents_delete, List.length_modify]
      exact h.bound
    · rw [idents, idents_delete]
      exact hheaded
    · rw [idents, idents_delete]
      exact hhead

/-! ## Over all requests -/

theorem serve_effect (s : Serving Accounts) (m : Call Env) :
    Effect s.service (serve authdHandler s m).1.service (serve authdHandler s m).2 := by
  obtain ⟨hservice, hreply⟩ := serve_eq authdHandler s m
  rw [hservice, hreply]
  exact authdHandler_effect _ _ _ _ _

theorem storeInv_serveAll {s : Serving Accounts} (h : StoreInv s.service) (ms : List (Call Env)) :
    StoreInv (serveAll authdHandler s ms).service ∧
      (s.service.accts ≠ [] → (idents (serveAll authdHandler s ms).service).head? = (idents s.service).head?) := by
  induction ms generalizing s with
  | nil => exact ⟨h, fun _ => rfl⟩
  | cons m ms ih =>
    obtain ⟨hinv, hhead⟩ := h.effect (serve_effect s m)
    obtain ⟨hinv', hhead'⟩ := ih hinv
    refine ⟨hinv', fun hne => ?_⟩
    have hsame := hhead hne
    refine (hhead' fun hnil => ?_).trans hsame
    rw [idents, idents, hnil, List.map_nil, List.head?_nil, eq_comm, List.head?_eq_none_iff,
      List.map_eq_nil_iff] at hsame
    exact hne hsame

theorem handleCreate_true {f : Fields} (h : (handleCreate env s f).2 = true) : (handleCreate env s f).1.accts ≠ [] := by
  revert h
  unfold handleCreate
  split
  · simp
  split
  · simp
  split
  · next ht =>
    intro _
    obtain ⟨u, -, -, -, rfl⟩ := create_some ht
    simp
  · simp

theorem Headed.sovereign {s : Accounts} {u : Ident} {rest : List Ident} (h : Headed (u :: rest))
    (hs : idents s = u :: rest) :
    (s.accts.filter fun a => a.active && a.isAdmin).map (fun a => (a.name, a.caps)) = [(u.name, capAll)] := by
  obtain ⟨hactive, hadmin, hcaps, hrest⟩ := h
  have hmap : (s.accts.filter fun a => a.active && a.isAdmin).map (fun a => (a.name, a.caps)) =
      ((idents s).filter fun u => u.active && u.isAdmin).map fun u => (u.name, u.caps) := by
    rw [idents, List.filter_map, List.map_map]
    rfl
  have hnone : rest.filter (fun u => u.active && u.isAdmin) = [] := by
    rw [List.filter_eq_nil_iff]
    intro v hv
    simp [hrest v hv]
  rw [hmap, hs, List.filter_cons, if_pos (by simp [hactive, hadmin]), hnone, List.map_singleton, hcaps]

/-- Active names differ, a reply of '0' changes no account, and the account of the bootstrap stays the only
sovereign. -/
theorem authd_accounts (req resp : Buf) (before : List (Call Env)) :
    let s := serveAll authdHandler ⟨authdInit, req, resp⟩ before
    ((s.service.accts.filter (·.active)).map (·.name)).Nodup ∧
    s.service.accts.length ≤ authMax ∧
    (∀ m, (serve authdHandler s m).2 = ascii "0" → idents (serve authdHandler s m).1.service = idents s.service) ∧
    (∀ m, m.type = ipcTypeAuthCreate → (serve authdHandler s m).2 = ascii "1" → ∃ name, ∀ after,
      ((serveAll authdHandler (serve authdHandler s m).1 after).service.accts.filter fun a => a.active && a.isAdmin).map
        (fun a => (a.name, a.caps)) = [(name, capAll)]) := by
  intro s
  have hinv : StoreInv s.service := (storeInv_serveAll (s := ⟨authdInit, req, resp⟩) StoreInv.init before).1
  refine ⟨?_, ?_, ?_, ?_⟩
  · have hnames := hinv.names
    unfold idents at hnames
    rw [List.pairwise_map] at hnames
    rw [List.Nodup, List.pairwise_map, List.pairwise_filter]
    exact hnames.imp fun huv hu hv => huv hu hv
  · have hbound := hinv.bound
    rwa [idents, List.length_map] at hbound
  · exact fun m hreply => (serve_effect s m).zero hreply
  · intro m htype hreply
    have hone : (serve authdHandler s m).1.service.accts ≠ [] := by
      obtain ⟨hservice, hwriter⟩ := serve_eq authdHandler s m
      rw [hwriter] at hreply
      rw [hservice]
      simp only [answerOf, authdHandler, htype, ipcTypeAuthCreate, ipcTypePing, ipcTypeAuthCount, ipcTypeAuthList,
        flagged, Nat.reduceEqDiff, if_false, if_true] at hreply ⊢
      refine handleCreate_true ?_
      rw [Writer.flag_writes] at hreply
      by_contra hfalse
      rw [if_neg hfalse] at hreply
      exact absurd hreply (by decide)
    have hinv' := (hinv.effect (serve_effect s m)).1
    cases hidents : idents (serve authdHandler s m).1.service with
    | nil => simp [idents, hone] at hidents
    | cons u rest =>
      refine ⟨u.name, fun after => ?_⟩
      obtain ⟨hlast, hhead⟩ := storeInv_serveAll hinv' after
      have hfirst := hhead hone
      rw [hidents, List.head?_cons] at hfirst
      obtain ⟨rest', hrest'⟩ := List.head?_eq_some_iff.mp hfirst
      exact Headed.sovereign (hrest' ▸ hlast.headed) hrest'

/-- The kernel hashes every password and issues every ticket. -/
def plainEnv : Env := ⟨fun _ => ascii "00", fun _ pw salt => pw ++ salt, fun _ _ => some 1⟩

/-- The name is the first 31 bytes, and the password what stands behind the 32nd. -/
def bootstrapCall : Call Env := ⟨plainEnv, 5, ipcTypeAuthCreate, List.replicate 36 0x61⟩

theorem authd_accounts_bootstrap :
    (serve authdHandler ⟨authdInit, fun _ => 0, fun _ => 0⟩ bootstrapCall).2 = ascii "1" ∧ ∃ name, ∀ after,
      ((serveAll authdHandler
        (serve authdHandler ⟨authdInit, fun _ => 0, fun _ => 0⟩ bootstrapCall).1 after).service.accts.filter
        fun a => a.active && a.isAdmin).map (fun a => (a.name, a.caps)) = [(name, capAll)] :=
  ⟨by decide +kernel, (authd_accounts (fun _ => 0) (fun _ => 0) []).2.2.2 bootstrapCall rfl (by decide +kernel)⟩

end Siathos.Authd
