import Siathos.Lib.Modify
import Siathos.Lib.Run
import Siathos.Nomos.Auth

/-!
# Accounts and their passwords (`auth.c`)

What the kernel's store of accounts is for: a name that is not deleted has the password that was last set
for it. A register keeps those passwords beside the store.
-/

open Lib

namespace Siathos.Nomos

/-- `%016llx`. -/
def hex16 (r : BitVec 64) : CStr :=
  List.replicate (16 - (hexadecimal r.toNat).length) 0x30 ++ hexadecimal r.toNat

/-- `gen_salt`, where `rand64` gives the two numbers. -/
def genSalt (r1 r2 : BitVec 64) : CStr := hex16 r1 ++ hex16 r2

/-- A C string of at most 31 bytes. -/
def Word (s : CStr) : Prop := s.length < authNameMax ∧ 0 ∉ s

instance (s : CStr) : Decidable (Word s) := inferInstanceAs (Decidable (_ ∧ _))

inductive AccountOp
  | create (name password : CStr) (caps : Rights) (admin : Bool) (r1 r2 : BitVec 64)
  | change (name oldpw newpw : CStr) (r1 r2 : BitVec 64)
  | changeAdmin (name newpw : CStr) (r1 r2 : BitVec 64)
  | delete (name : CStr)

/-- The passwords of the accounts that are there. -/
structure Register where
  auth : Auth
  password : CStr → Option CStr

namespace AccountOp

def run (pbkdf2 : List UInt8 → List UInt8 → List UInt8) (a : Auth) : AccountOp → Option Auth
  | create name password caps admin r1 r2 => authCreateUser pbkdf2 a name password caps admin (genSalt r1 r2)
  | change name oldpw newpw r1 r2 => authChangePassword pbkdf2 a name oldpw newpw (genSalt r1 r2)
  | changeAdmin name newpw r1 r2 => authChangePasswordAdmin pbkdf2 a name newpw (genSalt r1 r2)
  | delete name => authUserDelete a name

/-- What an operation that succeeds does to the passwords. -/
def record (password : CStr → Option CStr) : AccountOp → CStr → Option CStr
  | create name pw .. => Function.update password name (some pw)
  | change name _ newpw .. => Function.update password name (some newpw)
  | changeAdmin name newpw .. => Function.update password name (some newpw)
  | delete name => Function.update password name none

/-- Names and passwords of at most 31 bytes. -/
def Short : AccountOp → Prop
  | create name password .. => Word name ∧ Word password
  | change name oldpw newpw .. => Word name ∧ Word oldpw ∧ Word newpw
  | changeAdmin name newpw .. => Word name ∧ Word newpw
  | delete name => Word name

instance : (o : AccountOp) → Decidable o.Short
  | create .. => inferInstanceAs (Decidable (_ ∧ _))
  | change .. => inferInstanceAs (Decidable (_ ∧ _ ∧ _))
  | changeAdmin .. => inferInstanceAs (Decidable (_ ∧ _))
  | delete .. => inferInstanceAs (Decidable (Word _))

end AccountOp

namespace Register

/-- `auth_init`. -/
def start (a : Auth) : Register := ⟨{ a with accounts := [] }, fun _ => none⟩

def apply (pbkdf2 : List UInt8 → List UInt8 → List UInt8) (r : Register) (o : AccountOp) : Register :=
  match o.run pbkdf2 r.auth with
  | none => r
  | some auth => ⟨auth, o.record r.password⟩

end Register

/-! ## Hashes -/

/-- Different passwords have different hashes under one salt. HMAC fills a key up with NULs, so that this is for
C strings only. -/
def Injective (pbkdf2 : List UInt8 → List UInt8 → List UInt8) : Prop :=
  ∀ salt p q : List UInt8, Word p → Word q → pbkdf2 p salt = pbkdf2 q salt → p = q

theorem hexToBytes_byte (b : UInt8) : ∃ hi lo, hexByte b = [hi, lo] ∧ hexValue hi <<< 4 ||| hexValue lo = b := by
  have hall : ∀ n < 256, ∃ hi ∈ (hexByte (UInt8.ofNat n)).head?, ∃ lo ∈ (hexByte (UInt8.ofNat n))[1]?,
      hexByte (UInt8.ofNat n) = [hi, lo] ∧ hexValue hi <<< 4 ||| hexValue lo = UInt8.ofNat n := by decide +kernel
  obtain ⟨hi, -, lo, -, h⟩ := hall b.toNat (UInt8.toNat_lt b)
  rw [UInt8.ofNat_toNat] at h
  exact ⟨hi, lo, h⟩

/-- `hex_to_bytes` takes back what `snprintf` wrote. -/
theorem hexToBytes_hex (l : List UInt8) : hexToBytes (l.flatMap hexByte) = l := by
  induction l with
  | nil => rfl
  | cons b bs ih =>
    obtain ⟨hi, lo, hb, hvalue⟩ := hexToBytes_byte b
    simp [hb, hexToBytes, hvalue, ih]

variable {pbkdf2 : List UInt8 → List UInt8 → List UInt8}

theorem Word.take {p : CStr} (h : Word p) : p.take 63 = p := by
  have hlt := h.1
  unfold authNameMax at hlt
  exact List.take_of_length_le (by omega)

theorem authHashPassword_inj (h : Injective pbkdf2) {p q : CStr} (hp : Word p) (hq : Word q) (salt : CStr) :
    authHashPassword pbkdf2 p salt = authHashPassword pbkdf2 q salt ↔ p = q := by
  refine ⟨fun heq => ?_, fun heq => by rw [heq]⟩
  have hbytes := congrArg hexToBytes heq
  unfold authHashPassword at hbytes
  rw [hexToBytes_hex, hexToBytes_hex, hp.take, hq.take] at hbytes
  exact h _ p q hp hq hbytes

/-! ## The register -/

/-- The names of all accounts differ, deleted ones included, and the register has the password of each that is
active. -/
structure RegisterInv (pbkdf2 : List UInt8 → List UInt8 → List UInt8) (r : Register) : Prop where
  names : (r.auth.accounts.map (·.name)).Nodup
  known : ∀ u ∈ r.auth.accounts, u.active = true → ∃ p, r.password u.name = some p ∧ Word p ∧
    u.hash = authHashPassword pbkdf2 p u.salt
  present : ∀ name p, r.password name = some p → ∃ u ∈ r.auth.accounts, u.active = true ∧ u.name = name

theorem authFind_some {a : Auth} {name : CStr} {i : Nat} (h : authFind a name = some i) :
    ∃ u, a.accounts[i]? = some u ∧ u.active = true ∧ u.name = name := by
  obtain ⟨hlt, hmatch, -⟩ := List.findIdx?_eq_some_iff_getElem.mp h
  rw [Bool.and_eq_true, decide_eq_true_eq] at hmatch
  exact ⟨_, List.getElem?_eq_getElem hlt, hmatch⟩

theorem authFind_none {a : Auth} {name : CStr} (h : authFind a name = none) :
    ∀ u ∈ a.accounts, u.active = true → u.name ≠ name := by
  intro u hu hactive hname
  have hno := List.findIdx?_eq_none_iff.mp h u hu
  simp [hactive, hname] at hno

namespace RegisterInv

variable {r : Register}

theorem start (a : Auth) : RegisterInv pbkdf2 (Register.start a) := by
  refine ⟨List.nodup_nil, ?_, ?_⟩
  · intro u hu
    simp [Register.start] at hu
  · intro name p h
    simp [Register.start] at h

theorem index (h : RegisterInv pbkdf2 r) {i j : Nat} {u v : AuthUser} (hu : r.auth.accounts[i]? = some u)
    (hv : r.auth.accounts[j]? = some v) (hname : u.name = v.name) : i = j := by
  have hlt : i < (r.auth.accounts.map (·.name)).length := by
    rw [List.length_map]
    exact (List.getElem?_eq_some_iff.mp hu).1
  refine (List.getElem?_inj hlt h.names).mp ?_
  rw [List.getElem?_map, List.getElem?_map, hu, hv, Option.map_some, Option.map_some, hname]

theorem create (h : RegisterInv pbkdf2 r) {name pw salt : CStr} {caps : Rights} {admin : Bool} {a : Auth}
    (hname : Word name) (hpw : Word pw)
    (ha : authCreateUser pbkdf2 r.auth name pw caps admin salt = some a) :
    RegisterInv pbkdf2 ⟨a, Function.update r.password name (some pw)⟩ := by
  unfold authCreateUser at ha
  split at ha
  · cases ha
  split at ha
  · cases ha
  next hroom hfresh =>
  obtain rfl := Option.some.inj ha
  have hcut : cut authNameMax name = name := by
    have hlt := hname.1
    exact List.take_of_length_le (by omega)
  have hother : ∀ u ∈ r.auth.accounts, u.name ≠ name := by
    intro u hu heq
    exact hfresh (List.any_eq_true.mpr ⟨u, hu, by simpa using heq⟩)
  refine ⟨?_, ?_, ?_⟩
  · simp only [List.map_append, List.map_cons, List.map_nil, hcut]
    rw [List.nodup_append]
    refine ⟨h.names, by simp, ?_⟩
    rintro n hn m hm rfl
    obtain ⟨u, hu, rfl⟩ := List.mem_map.mp hn
    exact hother u hu (List.mem_singleton.mp hm)
  · intro u hu hactive
    rcases List.mem_append.mp hu with hu | hu
    · simp only [Function.update_of_ne (hother u hu)]
      exact h.known u hu hactive
    · obtain rfl := List.mem_singleton.mp hu
      exact ⟨pw, by simp [hcut], hpw, rfl⟩
  · intro m p hp
    by_cases hm : m = name
    · subst hm
      exact ⟨_, List.mem_append_right _ (List.mem_singleton_self _), rfl, hcut⟩
    · simp only [Function.update_of_ne hm] at hp
      obtain ⟨u, hu, hactive, hname⟩ := h.present m p hp
      exact ⟨u, List.mem_append_left _ hu, hactive, hname⟩

/-- A change of the account that `auth_find` gives for the name. -/
theorem modify (h : RegisterInv pbkdf2 r) {name : CStr} {i : Nat} (hi : authFind r.auth name = some i)
    {f : AuthUser → AuthUser} (hname : ∀ u, (f u).name = u.name) {q : Option CStr}
    (hknown : ∀ u, (f u).active = true → ∃ p, q = some p ∧ Word p ∧
      (f u).hash = authHashPassword pbkdf2 p (f u).salt)
    (hactive : ∀ u p, u.active = true → q = some p → (f u).active = true) :
    RegisterInv pbkdf2
      ⟨{ r.auth with accounts := r.auth.accounts.modify i f }, Function.update r.password name q⟩ := by
  obtain ⟨v, hv, hvactive, hvname⟩ := authFind_some hi
  refine ⟨?_, ?_, ?_⟩
  · simp only [map_modify_same hname]
    exact h.names
  · intro u hu hactive
    rcases mem_modify hu with ⟨w, hw, rfl⟩ | ⟨j, hne, hj⟩
    · obtain rfl := Option.some.inj (hv.symm.trans hw)
      simp only [hname, hvname, Function.update_self]
      exact hknown v hactive
    · have hother : u.name ≠ name := fun heq => hne (h.index hj hv (heq.trans hvname.symm))
      simp only [Function.update_of_ne hother]
      exact h.known u (List.mem_of_getElem? hj) hactive
  · intro m p hp
    by_cases hm : m = name
    · subst hm
      simp only [Function.update_self] at hp
      refine ⟨f v, List.mem_of_getElem? (i := i) ?_, hactive v p hvactive hp, (hname v).trans hvname⟩
      simp [hv]
    · simp only [Function.update_of_ne hm] at hp
      obtain ⟨u, hu, huactive, huname⟩ := h.present m p hp
      obtain ⟨j, hj⟩ := List.mem_iff_getElem?.mp hu
      have hne : i ≠ j := by
        rintro rfl
        obtain rfl := Option.some.inj (hv.symm.trans hj)
        exact hm (huname.symm.trans hvname)
      refine ⟨u, List.mem_of_getElem? (i := j) ?_, huactive, huname⟩
      simp [hne, hj]

theorem setPassword (h : RegisterInv pbkdf2 r) {name pw : CStr} (hpw : Word pw) {i : Nat}
    (hi : authFind r.auth name = some i) (salt : CStr) :
    RegisterInv pbkdf2 ⟨Nomos.setPassword pbkdf2 r.auth i pw salt, Function.update r.password name (some pw)⟩ := by
  apply h.modify hi
  · exact fun _ => rfl
  · exact fun _ _ => ⟨pw, rfl, hpw, rfl⟩
  · exact fun _ _ hactive _ => hactive

theorem delete (h : RegisterInv pbkdf2 r) {name : CStr} {a : Auth} (ha : authUserDelete r.auth name = some a) :
    RegisterInv pbkdf2 ⟨a, Function.update r.password name none⟩ := by
  obtain ⟨i, hi, rfl⟩ := Option.map_eq_some_iff.mp ha
  apply h.modify hi
  · exact fun _ => rfl
  · exact fun _ hactive => by cases hactive
  · exact fun _ _ _ hp => by cases hp

theorem apply (h : RegisterInv pbkdf2 r) {o : AccountOp} (ho : o.Short) : RegisterInv pbkdf2 (r.apply pbkdf2 o) := by
  unfold Register.apply
  split
  · exact h
  next a ha =>
  cases o with
  | create name pw caps admin r1 r2 => exact h.create ho.1 ho.2 ha
  | change name oldpw newpw r1 r2 =>
    simp only [AccountOp.run, authChangePassword] at ha
    split at ha
    · cases ha
    · next i hi =>
      split at ha
      · obtain rfl := Option.some.inj ha
        exact h.setPassword ho.2.2 hi _
      · cases ha
  | changeAdmin name newpw r1 r2 =>
    obtain ⟨i, hi, rfl⟩ := Option.map_eq_some_iff.mp ha
    exact h.setPassword ho.2 hi _
  | delete name => exact h.delete ha

theorem run {a : Auth} {ops : List AccountOp}
    (h : Run (Exec (fun _ o => o.Short) (Register.apply pbkdf2)) (Register.start a) ops r) : RegisterInv pbkdf2 r :=
  h.invariant (fun _ _ _ hs ⟨ho, ht⟩ => ht ▸ hs.apply ho) (start a)

theorem verify (h : RegisterInv pbkdf2 r) (hinj : Injective pbkdf2) (name : CStr) {p : CStr}
    (hp : Word p) : authVerify pbkdf2 r.auth name p = true ↔ r.password name = some p := by
  unfold authVerify
  cases hi : authFind r.auth name with
  | none =>
    simp only [Option.bind_none, Bool.false_eq_true, false_iff]
    intro hsome
    obtain ⟨u, hu, hactive, hname⟩ := h.present name p hsome
    exact authFind_none hi u hu hactive hname
  | some i =>
    obtain ⟨u, hu, hactive, hname⟩ := authFind_some hi
    obtain ⟨q, hq, hlen, hhash⟩ := h.known u (List.mem_of_getElem? hu) hactive
    rw [hname] at hq
    simp only [Option.bind_some, hu, hactive, Bool.true_and, decide_eq_true_eq]
    rw [hhash, authHashPassword_inj hinj hp hlen, hq, Option.some.injEq, eq_comm]

end RegisterInv

/-- The store takes the password that was last set for a name, and no other. -/
theorem auth_verify_last (hinj : Injective pbkdf2) {a : Auth} {ops : List AccountOp} {r : Register}
    (h : Run (Exec (fun _ o => o.Short) (Register.apply pbkdf2)) (Register.start a) ops r) :
    (∀ name, (r.auth.accounts.filter fun u => u.active && decide (u.name = name)).length ≤ 1) ∧
    (∀ name p, Word p → (authVerify pbkdf2 r.auth name p = true ↔ r.password name = some p)) ∧
    ∀ o : AccountOp, o.run pbkdf2 r.auth = none →
      ∀ name p, authVerify pbkdf2 (r.apply pbkdf2 o).auth name p = authVerify pbkdf2 r.auth name p := by
  have hinv := RegisterInv.run h
  refine ⟨fun name => ?_, fun name p hp => hinv.verify hinj name hp, fun o ho name p => ?_⟩
  · have hsub : ((r.auth.accounts.filter fun u => u.active && decide (u.name = name)).map (·.name)).Sublist
        (r.auth.accounts.map (·.name)) := List.filter_sublist.map _
    have hsame : (r.auth.accounts.filter fun u => u.active && decide (u.name = name)).map (·.name) =
        List.replicate (r.auth.accounts.filter fun u => u.active && decide (u.name = name)).length name := by
      rw [List.eq_replicate_iff]
      refine ⟨List.length_map _, fun n hn => ?_⟩
      obtain ⟨u, hu, rfl⟩ := List.mem_map.mp hn
      have hmatch := (List.mem_filter.mp hu).2
      rw [Bool.and_eq_true, decide_eq_true_eq] at hmatch
      exact hmatch.2
    have hnodup := hinv.names.sublist hsub
    rw [hsame] at hnodup
    exact List.nodup_replicate.mp hnodup
  · rw [Register.apply, ho]

/-- Stands for PBKDF2 on short passwords: 32 bytes, the length first. -/
def padded (pw _salt : List UInt8) : List UInt8 :=
  UInt8.ofNat pw.length :: (pw ++ List.replicate (31 - pw.length) 0)

theorem padded_injective : Injective padded := by
  intro salt p q hp hq h
  have hltp := hp.1
  have hltq := hq.1
  unfold authNameMax at hltp hltq
  obtain ⟨hlen, hrest⟩ := List.cons.inj h
  have hsame : p.length = q.length := by
    have := congrArg UInt8.toNat hlen
    simp only [UInt8.toNat_ofNat'] at this
    omega
  exact (List.append_inj hrest hsame).1

def threeOps : List AccountOp :=
  [.create (ascii "thais") (ascii "senha") capAll true 1 2, .create (ascii "eva") (ascii "1234") 0 false 3 4,
    .change (ascii "thais") (ascii "senha") (ascii "outra") 5 6, .delete (ascii "eva")]

theorem auth_verify_last_three :
    let r := threeOps.foldl (Register.apply padded) (Register.start authInit)
    (∀ name, (r.auth.accounts.filter fun u => u.active && decide (u.name = name)).length ≤ 1) ∧
    (∀ name p, Word p → (authVerify padded r.auth name p = true ↔ r.password name = some p)) ∧
    ∀ o : AccountOp, o.run padded r.auth = none →
      ∀ name p, authVerify padded (r.apply padded o).auth name p = authVerify padded r.auth name p :=
  auth_verify_last padded_injective (Run.of_admits (by decide +kernel))

example : (threeOps.foldl (Register.apply padded) (Register.start authInit)).password (ascii "thais") =
    some (ascii "outra") := by decide +kernel

end Siathos.Nomos
