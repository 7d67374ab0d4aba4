import Siathos.Authd.Sovereign

/-!
# Changing a password (`IPC_TYPE_AUTH_CHANGEPW`)

The salt and the hash of the account are written over before it is known whether the new password can be hashed.
-/

open Lib Siathos.Nomos Siathos.Ipc

namespace Siathos.Authd

/-- Calls of `SYS_AUTH_HASH` that give the digest, or fail. -/
def hashing (digest : CStr → CStr → CStr) (fails : Nat → Bool) (salt : Nat → CStr)
    (ticket : CStr → Rights → Option (BitVec 64)) : Env :=
  ⟨salt, fun call password salt => if fails call then [] else digest password salt, ticket⟩

/-- What `verify` says of the name and the password, where the hash does not fail. -/
def knows (digest : CStr → CStr → CStr) (s : Accounts) (name password : CStr) : Bool :=
  verify (hashing digest (fun _ => false) (fun _ => []) fun _ _ => none) s name password

/-- Each password is good for the same accounts as before, or only the one named has changed and has the new
password. -/
structure ChangeAtomic (digest : CStr → CStr → CStr) (s : Accounts) (name new : CStr)
    (r : Accounts × Writer) : Prop where
  refused : r.2.Writes (ascii "0") →
    r.1.accts.map (fun u => (u.salt, u.hash)) = s.accts.map (fun u => (u.salt, u.hash)) ∧
      ∀ name password, knows digest r.1 name password = knows digest s name password
  changed : r.2.Writes (ascii "1") →
    ∃ i, find s name = some i ∧ (∀ j, j ≠ i → r.1.accts[j]? = s.accts[j]?) ∧ knows digest r.1 name new = true

/-- The account has a new salt and hash. -/
def put (s : Accounts) (i : Nat) (salt hash : CStr) : Accounts :=
  { s with accts := s.accts.modify i fun u => { u with salt, hash } }

/-- The last hash that the request asks for fails, and the account was not without a password already. -/
def LockedOut (env : Env) (s : Accounts) (f : Fields) : Prop :=
  4 ≤ f.f3.length ∧ ∃ i u, find s f.f1 = some i ∧ s.accts[i]? = some u ∧
    if s.adminAuthed then
      (verify env s f.f1 f.f2 = true → authdHash env 1 f.f3 (env.salt 0) = []) ∧
      authdHash env 2 f.f3 (env.salt 1) = [] ∧
        (u.salt, u.hash) ≠ (env.salt 1, [])
    else verify env s f.f1 f.f2 = true ∧ authdHash env 1 f.f3 (env.salt 0) = []

/-! ## The two branches -/

theorem find_put (s : Accounts) (i : Nat) (salt hash name : CStr) : find (put s i salt hash) name = find s name := by
  apply findIdx?_modify
  exact fun _ => rfl

theorem put_put (s : Accounts) (i : Nat) (salt hash salt' hash' : CStr) :
    put (put s i salt hash) i salt' hash' = put s i salt' hash' := by
  unfold put
  dsimp only
  rw [List.modify_modify_eq]
  rfl

theorem find_some {s : Accounts} {name : CStr} {i : Nat} (h : find s name = some i) :
    ∃ u, s.accts[i]? = some u ∧ u.active = true ∧ u.name = name := by
  obtain ⟨hi, hmatch, -⟩ := List.findIdx?_eq_some_iff_getElem.mp h
  refine ⟨s.accts[i], List.getElem?_eq_getElem hi, ?_⟩
  simpa using hmatch

variable (env : Env) (s : Accounts) (f : Fields)

theorem handleChangepw_eq {i : Nat} (hlen : 4 ≤ f.f3.length) (hi : find s f.f1 = some i) :
    handleChangepw env s f =
      if verify env s f.f1 f.f2 = true ∧ authdHash env 1 f.f3 (env.salt 0) ≠ [] then
        (put s i (env.salt 0) (authdHash env 1 f.f3 (env.salt 0)), true)
      else if s.adminAuthed then
        (put s i (env.salt 1) (authdHash env 2 f.f3 (env.salt 1)), decide (authdHash env 2 f.f3 (env.salt 1) ≠ []))
      else if verify env s f.f1 f.f2 = true then (put s i (env.salt 0) [], false)
      else (s, false) := by
  have hset : ∀ (t : Accounts) (a b : Nat), setPassword env a b t i f.f3 =
      (put t i (env.salt a) (authdHash env b f.f3 (env.salt a)), decide (authdHash env b f.f3 (env.salt a) ≠ [])) :=
    fun _ _ _ => rfl
  unfold handleChangepw changePassword
  rw [if_neg (by omega), if_neg (by omega), hi]
  dsimp only
  by_cases hverify : verify env s f.f1 f.f2 = true
  · by_cases hhash : authdHash env 1 f.f3 (env.salt 0) = []
    · by_cases hadmin : s.adminAuthed = true
      · have hfind := find_put s i (env.salt 0) [] f.f1
        have hauthed : (put s i (env.salt 0) []).adminAuthed = true := hadmin
        simp only [hset, hverify, hhash, hadmin, hauthed, hfind, hi, put_put, ne_eq, not_true_eq_false, and_false,
          decide_false, if_true, if_false]
      · have hfind := find_put s i (env.salt 0) [] f.f1
        have hauthed : ¬(put s i (env.salt 0) []).adminAuthed = true := hadmin
        simp only [hset, hverify, hhash, hadmin, hauthed, hfind, hi, ne_eq, not_true_eq_false, and_false, decide_false,
          if_true, if_false, Bool.false_eq_true]
    · simp [hset, hverify, hhash]
  · by_cases hadmin : s.adminAuthed = true
    · simp [hset, hverify, hadmin, hi]
    · simp [hverify, hadmin, hi]

theorem handleChangepw_none (h : f.f3.length < 4 ∨ find s f.f1 = none) : handleChangepw env s f = (s, false) := by
  unfold handleChangepw changePassword
  split
  · rfl
  · rename_i hlen
    simp only [h.resolve_left hlen]

/-! ## What a new salt and hash change -/

variable {env s}

theorem put_same {i : Nat} {u : Acct} {salt hash : CStr} (hu : s.accts[i]? = some u)
    (h : (u.salt, u.hash) = (salt, hash)) :
    put s i salt hash = s := by
  obtain ⟨rfl, rfl⟩ := Prod.mk.inj h
  have haccts : s.accts.modify i (fun v => { v with salt := u.salt, hash := u.hash }) = s.accts := by
    refine List.ext_getElem? fun j => ?_
    rw [List.getElem?_modify]
    split
    · rename_i heq
      rw [← heq, hu]
      rfl
    · simp
  unfold put
  rw [haccts]

theorem put_changes {i : Nat} {u : Acct} {salt hash : CStr} (hu : s.accts[i]? = some u)
    (h : (u.salt, u.hash) ≠ (salt, hash)) :
    (put s i salt hash).accts.map (fun u => (u.salt, u.hash)) ≠ s.accts.map fun u => (u.salt, u.hash) := by
  intro heq
  have hat := congrArg (·[i]?) heq
  simp only [put, List.getElem?_map, List.getElem?_modify_eq, hu, Option.map_some] at hat
  exact h (Option.some.inj hat).symm

theorem put_other {i j : Nat} (salt hash : CStr) (h : j ≠ i) : (put s i salt hash).accts[j]? = s.accts[j]? :=
  List.getElem?_modify_ne _ _ (Ne.symm h)

theorem verify_found {name password : CStr} {i : Nat} {u : Acct} (hi : find s name = some i)
    (hu : s.accts[i]? = some u) :
    verify env s name password =
      (decide (authdHash env 0 password u.salt ≠ []) && decide (authdHash env 0 password u.salt = u.hash)) := by
  unfold verify
  rw [hi, Option.bind_some, hu]

section

variable {digest : CStr → CStr → CStr} {fails : Nat → Bool} {salt : Nat → CStr}
    {ticket : CStr → Rights → Option (BitVec 64)}

theorem knows_put {name new nonce : CStr} {call i : Nat} (hi : find s name = some i)
    (hhash : authdHash (hashing digest fails salt ticket) call new nonce ≠ []) :
    knows digest (put s i nonce (authdHash (hashing digest fails salt ticket) call new nonce)) name new = true := by
  obtain ⟨u, hu, -⟩ := find_some hi
  have hdigest : authdHash (hashing digest fails salt ticket) call new nonce = digest (new.take 63) nonce := by
    simp only [authdHash, hashing] at hhash ⊢
    split
    · rename_i hfail
      rw [if_pos hfail] at hhash
      exact absurd rfl hhash
    · rfl
  rw [hdigest] at hhash ⊢
  have hput : (put s i nonce (digest (new.take 63) nonce)).accts[i]? =
      some { u with salt := nonce, hash := digest (new.take 63) nonce } := by
    simp [put, hu]
  unfold knows
  rw [verify_found ((find_put ..).trans hi) hput]
  simpa [authdHash, hashing] using hhash

theorem flag_writes_iff (ok : Bool) :
    ((Writer.flag ok).Writes (ascii "0") ↔ ok = false) ∧ ((Writer.flag ok).Writes (ascii "1") ↔ ok = true) := by
  constructor
  · constructor
    · intro h
      have hzero := (Writer.flag_writes ok (fun _ => 0)).symm.trans (h fun _ => 0)
      cases ok with
      | false => rfl
      | true => exact absurd hzero (by decide)
    · rintro rfl
      exact Writer.flag_writes false
  · exact ⟨fun h => (flag_one ok fun _ => 0).mp (h _), fun h b => (flag_one ok b).mpr h⟩

/-- A request to change a password fails as a whole or succeeds as a whole unless the last hash that it asks for
fails. -/
theorem changepw_atomic_iff (digest : CStr → CStr → CStr) (fails : Nat → Bool) (salt : Nat → CStr)
    (ticket : CStr → Rights → Option (BitVec 64)) (s : Accounts) (sender : Nat) (req : CStr) :
    ChangeAtomic digest s (authFields req).f1 (authFields req).f3
        (authdHandler (hashing digest fails salt ticket) s sender ipcTypeAuthChangepw req) ↔
      ¬LockedOut (hashing digest fails salt ticket) s (authFields req) := by
  have hhandler : authdHandler (hashing digest fails salt ticket) s sender ipcTypeAuthChangepw req =
      flagged (handleChangepw (hashing digest fails salt ticket) s (authFields req)) := rfl
  rw [hhandler]
  generalize authFields req = f
  generalize henv : hashing digest fails salt ticket = env
  -- a request that is refused must leave the store, one that is met must change one account
  have hkept : ∀ ok, ok = false → ChangeAtomic digest s f.f1 f.f3 (flagged (s, ok)) := by
    rintro _ rfl
    refine ⟨fun _ => ⟨rfl, fun _ _ => rfl⟩, fun h => ?_⟩
    cases (flag_writes_iff false).2.mp h
  have hmet : ∀ (i call : Nat) (nonce : CStr), find s f.f1 = some i → authdHash env call f.f3 nonce ≠ [] →
      ChangeAtomic digest s f.f1 f.f3 (flagged (put s i nonce (authdHash env call f.f3 nonce), true)) := by
    intro i call nonce hi hhash
    subst henv
    refine ⟨fun h => ?_, fun _ => ⟨i, hi, fun j hj => put_other _ _ hj, knows_put hi hhash⟩⟩
    cases (flag_writes_iff true).1.mp h
  have hlost : ∀ (i : Nat) (u : Acct) (nonce : CStr), s.accts[i]? = some u → (u.salt, u.hash) ≠ (nonce, []) →
      ¬ChangeAtomic digest s f.f1 f.f3 (flagged (put s i nonce [], false)) :=
    fun i u nonce hu hne h => put_changes hu hne (h.refused ((flag_writes_iff false).1.mpr rfl)).1
  by_cases hnone : f.f3.length < 4 ∨ find s f.f1 = none
  · rw [handleChangepw_none env s f hnone]
    refine iff_of_true (hkept _ rfl) ?_
    rintro ⟨hlen, i, u, hi, -⟩
    rcases hnone with hshort | hfind
    · omega
    · rw [hi] at hfind
      cases hfind
  · obtain ⟨hlen, hfind⟩ := not_or.mp hnone
    obtain ⟨i, hi⟩ := Option.ne_none_iff_exists'.mp hfind
    obtain ⟨u, hu, -⟩ := find_some hi
    have hlocked : LockedOut env s f ↔ if s.adminAuthed then
        (verify env s f.f1 f.f2 = true → authdHash env 1 f.f3 (env.salt 0) = []) ∧
        authdHash env 2 f.f3 (env.salt 1) = [] ∧
          (u.salt, u.hash) ≠ (env.salt 1, [])
        else verify env s f.f1 f.f2 = true ∧ authdHash env 1 f.f3 (env.salt 0) = [] := by
      constructor
      · rintro ⟨-, i', u', hi', hu', h⟩
        obtain rfl : i = i' := Option.some.inj (hi.symm.trans hi')
        obtain rfl : u = u' := Option.some.inj (hu.symm.trans hu')
        exact h
      · exact fun h => ⟨by omega, i, u, hi, hu, h⟩
    rw [handleChangepw_eq env s f (by omega) hi, hlocked]
    by_cases hself : verify env s f.f1 f.f2 = true ∧ authdHash env 1 f.f3 (env.salt 0) ≠ []
    · rw [if_pos hself]
      refine iff_of_true (hmet i 1 _ hi hself.2) ?_
      split
      · exact fun h => hself.2 (h.1 hself.1)
      · exact fun h => hself.2 h.2
    · rw [if_neg hself]
      have hfailed : verify env s f.f1 f.f2 = true → authdHash env 1 f.f3 (env.salt 0) = [] :=
        fun hverify => by_contra fun hne => hself ⟨hverify, hne⟩
      by_cases hadmin : s.adminAuthed = true
      · rw [if_pos hadmin, if_pos hadmin]
        by_cases hhash : authdHash env 2 f.f3 (env.salt 1) = []
        · rw [hhash]
          by_cases hsame : (u.salt, u.hash) = (env.salt 1, [])
          · rw [put_same hu hsame]
            exact iff_of_true (hkept _ (by simp)) fun h => h.2.2 hsame
          · exact iff_of_false (hlost i u _ hu hsame) (not_not.mpr ⟨hfailed, rfl, hsame⟩)
        · rw [decide_eq_true hhash]
          exact iff_of_true (hmet i 2 _ hi hhash) fun h => hhash h.2.1
      · rw [if_neg hadmin, if_neg hadmin]
        by_cases hverify : verify env s f.f1 f.f2 = true
        · rw [if_pos hverify]
          refine iff_of_false (hlost i u _ hu ?_) (not_not.mpr ⟨hverify, hfailed hverify⟩)
          intro hsame
          rw [verify_found hi hu, (Prod.mk.inj hsame).2] at hverify
          simp at hverify
        · rw [if_neg hverify]
          exact iff_of_true (hkept _ rfl) fun h => hverify h.1

end

/-- An account whose name and password fill their fields, and a request with its password whose last hash fails. -/
def fullAccount : Accounts :=
  ⟨[⟨List.replicate 31 0x61, List.replicate 63 0x62 ++ ascii "00", ascii "00", capAll, true, true⟩], false⟩

def fullRequest : CStr := List.replicate 31 0x61 ++ 0x20 :: List.replicate 63 0x62 ++ 0x20 :: ascii "nova"

/-- The reply is '0', and the password of the account is no longer good. -/
theorem changepw_locks_out :
    ¬ChangeAtomic (fun password salt => password ++ salt) fullAccount (authFields fullRequest).f1
      (authFields fullRequest).f3
      (authdHandler (hashing (fun password salt => password ++ salt) (· == 1) (fun _ => ascii "01") fun _ _ => none)
        fullAccount 5 ipcTypeAuthChangepw fullRequest) := by
  intro h
  have hreply : (authdHandler
    (hashing (fun password salt => password ++ salt) (· == 1) (fun _ => ascii "01") fun _ _ => none)
      fullAccount 5 ipcTypeAuthChangepw fullRequest).2.Writes (ascii "0") := (flag_writes_iff false).1.mpr rfl
  have hsame := (h.refused hreply).2 (List.replicate 31 0x61) (List.replicate 63 0x62)
  revert hsame
  decide +kernel

end Siathos.Authd
