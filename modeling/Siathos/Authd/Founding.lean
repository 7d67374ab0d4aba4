import Mathlib.Data.List.Induction
import Siathos.Authd.Client

/-!
# The first account

A store without accounts is only left by a request to found it. The client library makes such requests too, but of its
password nothing arrives.
-/

open Lib Siathos.Ipc Siathos.Nomos

namespace Siathos.Authd

/-- The request founds a store that has no accounts: the service reads a name and a password that are long
enough, and the kernel hashes the password. -/
structure Founds (m : Call Env) : Prop where
  type : m.type = ipcTypeAuthCreate
  name : 3 ≤ (authFields (svcRequest m.payload)).f1.length
  password : 4 ≤ (authFields (svcRequest m.payload)).f2.length
  hash : authdHash m.env 0 (authFields (svcRequest m.payload)).f2 (m.env.salt 0) ≠ []

/-! ## One request -/

section

variable (env : Env)

theorem handleCreate_init (f : Fields) :
    (¬(3 ≤ f.f1.length ∧ 4 ≤ f.f2.length ∧ authdHash env 0 f.f2 (env.salt 0) ≠ []) →
    (handleCreate env authdInit f).1 = authdInit) ∧
    (3 ≤ f.f1.length ∧ 4 ≤ f.f2.length ∧ authdHash env 0 f.f2 (env.salt 0) ≠ [] →
      (handleCreate env authdInit f).1.accts ≠ []) := by
  have hcreate : create env authdInit f.f1 f.f2 capAll true =
      if authdHash env 0 f.f2 (env.salt 0) = [] then none
      else some ⟨[⟨cut authName f.f1, authdHash env 0 f.f2 (env.salt 0), env.salt 0, capAll, true, true⟩], false⟩ := rfl
  have hempty : ¬authdInit.accts.length ≠ 0 := fun h => h rfl
  unfold handleCreate
  rw [if_neg hempty, hcreate]
  by_cases hshort : f.f1.length < 3 ∨ f.f2.length < 4
  · rw [if_pos hshort]
    exact ⟨fun _ => rfl, fun h => by omega⟩
  · rw [if_neg hshort]
    by_cases hhash : authdHash env 0 f.f2 (env.salt 0) = []
    · rw [if_pos hhash]
      exact ⟨fun _ => rfl, fun h => absurd hhash h.2.2⟩
    · rw [if_neg hhash]
      refine ⟨fun h => absurd ⟨?_, ?_, hhash⟩ h, fun _ => List.cons_ne_nil _ _⟩
      · omega
      · omega

theorem handleChangepw_init (f : Fields) : (handleChangepw env authdInit f).1 = authdInit := by
  have hchange : changePassword env authdInit f.f1 f.f2 f.f3 = (authdInit, false) := by
    unfold changePassword
    split
    · rfl
    · rfl
  unfold handleChangepw
  split
  · rfl
  · rw [hchange]
    rfl

end

theorem serve_init {s : Serving Accounts} (hs : s.service = authdInit) (m : Call Env) :
    (¬Founds m → (serve authdHandler s m).1.service = authdInit) ∧
    (Founds m → (serve authdHandler s m).1.service.accts ≠ []) := by
  rw [(serve_eq authdHandler s m).1, hs, answerOf]
  by_cases htype : m.type = ipcTypeAuthCreate
  · have hhandler : (authdHandler m.env authdInit m.sender m.type (svcRequest m.payload)).1 =
        (handleCreate m.env authdInit (authFields (svcRequest m.payload))).1 := by
      rw [htype]
      rfl
    obtain ⟨hkeeps, hfounds⟩ := handleCreate_init m.env (authFields (svcRequest m.payload))
    rw [hhandler]
    refine ⟨fun h => hkeeps ?_, fun h => hfounds ⟨h.name, h.password, h.hash⟩⟩
    rintro ⟨hname, hpass, hhash⟩
    exact h ⟨htype, hname, hpass, hhash⟩
  · refine ⟨fun _ => ?_, fun h => absurd h.type htype⟩
    unfold authdHandler
    dsimp only
    rw [if_neg htype]
    split
    · rfl
    split
    · rfl
    split
    · rfl
    split
    · rfl
    split
    · rfl
    split
    · exact handleChangepw_init _ _
    split
    · rfl
    · rfl

/-! ## Any number of requests -/

theorem served_snoc (req resp : Buf) (ms : List (Call Env)) (m : Call Env) :
    served req resp (ms ++ [m]) = (serve authdHandler (served req resp ms) m).1 := by
  unfold served serveAll
  rw [List.foldl_append]
  rfl

theorem served_founded (req resp : Buf) (ms : List (Call Env)) :
    (served req resp ms).service = authdInit ↔ ∀ m ∈ ms, ¬Founds m := by
  induction ms using List.reverseRecOn with
  | nil => exact iff_of_true rfl fun m hm => absurd hm List.not_mem_nil
  | append_singleton ms m ih =>
    rw [served_snoc, List.forall_mem_append, List.forall_mem_singleton, ← ih]
    have hinit : StoreInv (⟨authdInit, req, resp⟩ : Serving Accounts).service := StoreInv.init
    have hinv : StoreInv (served req resp ms).service := (storeInv_serveAll hinit ms).1
    by_cases hempty : (served req resp ms).service = authdInit
    · obtain ⟨hkeeps, hfounds⟩ := serve_init hempty m
      constructor
      · intro hstays
        refine ⟨hempty, fun hm => hfounds hm ?_⟩
        rw [hstays]
        rfl
      · exact fun h => hkeeps h.2
    · -- who has accounts keeps the first one
      refine iff_of_false (fun hstays => ?_) fun h => hempty h.1
      have hne : (served req resp ms).service.accts ≠ [] := by
        intro hnil
        refine hempty ?_
        have hauthed : (served req resp ms).service.adminAuthed = false :=
          Bool.eq_false_iff.mpr fun h => hinv.authed h hnil
        calc (served req resp ms).service
            = ⟨(served req resp ms).service.accts, (served req resp ms).service.adminAuthed⟩ := rfl
          _ = authdInit := by rw [hnil, hauthed, authdInit]
      have hhead := (storeInv_serveAll hinv [m]).2 hne
      have hlast : (serveAll authdHandler (served req resp ms) [m]).service = authdInit := hstays
      rw [hlast] at hhead
      have hidents : idents (served req resp ms).service = [] := List.head?_eq_none_iff.mp hhead.symm
      exact hne (List.map_eq_nil_iff.mp hidents)

theorem founds_iff {m : Call Env} {name pass : CStr} (htype : m.type = ipcTypeAuthCreate) (hname : NulFree name)
    (hpayload : m.payload = accountRequest name pass) :
    Founds m ↔ 36 ≤ name.length ∧ authdHash m.env 0 (authFields (svcRequest m.payload)).f2 (m.env.salt 0) ≠ [] := by
  have hreq : svcRequest m.payload = name.take 127 := by
    rw [hpayload]
    exact request_pack (by decide) hname (some pass) none
  constructor
  · rintro ⟨-, -, hpass, hhash⟩
    refine ⟨?_, hhash⟩
    rw [hreq, authFields_eq] at hpass
    simp only [List.length_take, List.length_drop] at hpass
    omega
  · rintro ⟨hlen, hhash⟩
    refine ⟨htype, ?_, ?_, hhash⟩
    · rw [hreq, authFields_eq]
      simp only [List.length_take]
      omega
    · rw [hreq, authFields_eq]
      simp only [List.length_take, List.length_drop]
      omega

/-- The request, if it is one to found the store, was made by `spud_auth_create`. -/
def MadeByLibrary (m : Call Env) : Prop :=
  m.type = ipcTypeAuthCreate → ∃ name pass, NulFree name ∧ m.payload = accountRequest name pass

/-- Founded through the library, the store stays empty until a name has 36 bytes, whose end becomes the password. -/
theorem store_empty_iff (req resp : Buf) {ms : List (Call Env)} (hlib : ∀ m ∈ ms, MadeByLibrary m) :
    (served req resp ms).service = authdInit ↔ ∀ m ∈ ms, m.type = ipcTypeAuthCreate → ∀ name pass, NulFree name →
      m.payload = accountRequest name pass →
        name.length ≤ 35 ∨ authdHash m.env 0 (authFields (svcRequest m.payload)).f2 (m.env.salt 0) = [] := by
  rw [served_founded]
  refine forall₂_congr fun m hm => ?_
  constructor
  · intro hm' htype name pass hname hpayload
    by_contra hnot
    obtain ⟨hlong, hhash⟩ := not_or.mp hnot
    exact hm' ((founds_iff htype hname hpayload).mpr ⟨by omega, hhash⟩)
  · intro hshort hfounds
    obtain ⟨name, pass, hname, hpayload⟩ := hlib m hm hfounds.type
    obtain ⟨hlong, hhash⟩ := (founds_iff hfounds.type hname hpayload).mp hfounds
    rcases hshort hfounds.type name pass hname hpayload with hlen | hnone
    · omega
    · exact hhash hnone

/-- What `spud_auth_create` sends. -/
def createRequest (name pass : CStr) : Call Env := ⟨plainEnv, 7, ipcTypeAuthCreate, accountRequest name pass⟩

theorem store_empty_thais :
    (served (fun _ => 0) (fun _ => 0) [createRequest (ascii "thais") (ascii "senha")]).service = authdInit := by
  have hfree : NulFree (ascii "thais") := by
    unfold NulFree
    decide +kernel
  have hmade : ∀ m ∈ [createRequest (ascii "thais") (ascii "senha")], MadeByLibrary m := by
    intro m hm _
    rw [List.mem_singleton.mp hm]
    exact ⟨ascii "thais", ascii "senha", hfree, rfl⟩
  refine (store_empty_iff _ _ hmade).mpr fun m hm htype name pass hname hpayload => ?_
  rw [List.mem_singleton.mp hm] at hpayload
  have hreq := request_pack (show 128 ≤ reqMax by decide) hname (some pass) none
  have hsame : svcRequest (spudAuthPack 128 name (some pass) none) = ascii "thais" := by
    rw [show spudAuthPack 128 name (some pass) none = accountRequest (ascii "thais") (ascii "senha") from hpayload.symm]
    decide +kernel
  have hlen := congrArg List.length (hreq.symm.trans hsame)
  rw [List.length_take] at hlen
  have hfive : (ascii "thais").length = 5 := by decide
  omega

end Siathos.Authd
