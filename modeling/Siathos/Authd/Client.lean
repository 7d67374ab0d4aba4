import Siathos.Authd.Request
import Siathos.Authd.Store
import Siathos.Lib.Format

/-!
# The client of the account service (`spud_auth_*`)

A reply is text: a count in decimal, a flag, or the 16 digits of a ticket. Without a reply the client asks the
kernel, whose answer is `sys` here.
-/

open Lib Lib.Format Siathos.Ipc Siathos.Nomos

namespace Siathos.Authd

/-! ## The client -/

/-- The request of a name and a password, in 128 bytes. -/
def accountRequest (user pass : CStr) : List UInt8 := spudAuthPack 128 user (some pass) none

/-- The loop over the digits. A `long` wraps. -/
def parseCount : Int → CStr → Int
  | v, [] => v
  | v, c :: cs => if c < 0x30 ∨ 0x39 < c then v else parseCount (Int.bmod (v * 10 + (c.toNat - 0x30)) (2 ^ 64)) cs

def spudAuthCount (reply : Option CStr) (sys : Int) : Int :=
  match reply with
  | some out => parseCount 0 (out.take 31)
  | none => sys

/-- What the callers that wait for a flag return, such as `spud_auth_create`. -/
def spudAuthFlag (reply : Option CStr) (sys : Int) : Int :=
  match reply with
  | some out => if (out.take 15).head? = some 0x31 then 1 else 0
  | none => sys

def hexDigit (c : UInt8) : Option (BitVec 64) :=
  if 0x30 ≤ c ∧ c ≤ 0x39 then some (BitVec.ofNat 64 (c.toNat - 0x30))
  else if 0x61 ≤ c ∧ c ≤ 0x66 then some (BitVec.ofNat 64 (c.toNat - 0x61 + 10))
  else if 0x41 ≤ c ∧ c ≤ 0x46 then some (BitVec.ofNat 64 (c.toNat - 0x41 + 10))
  else none

def parseHex : BitVec 64 → CStr → Option (BitVec 64)
  | v, [] => some v
  | v, c :: cs => (hexDigit c).bind fun d => parseHex (v <<< 4 ||| d) cs

/-- The result, and the ticket. -/
def spudAuthLogin (reply : Option CStr) (sys : Int) : Int × BitVec 64 :=
  match reply with
  | some out =>
    let out := out.take 63
    if out.length = 1 ∧ out.head? = some 0x30 then (0, 0)
    else if out.length = 16 then
      match parseHex 0 out with
      | some tok => (1, tok)
      | none => (0, 0)
    else (0, 0)
  | none => (sys, 0)

/-! ## Counts -/

theorem digitByte_digit (d : Fin 10) :
    ¬(digitByte d < 0x30 ∨ 0x39 < digitByte d) ∧ ((digitByte d).toNat : Int) - 0x30 = (d : Nat) := by
  revert d
  decide

theorem parseCount_digit (v : Int) (d : Fin 10) (cs : CStr) :
    parseCount v (digitByte d :: cs) = parseCount (Int.bmod (v * 10 + (d : Nat)) (2 ^ 64)) cs := by
  obtain ⟨hdigit, hvalue⟩ := digitByte_digit d
  rw [parseCount, if_neg hdigit, hvalue]

theorem parseCount_decimal {n : Nat} (hn : n < 10 ^ 18) (cs : CStr) :
    parseCount 0 (decimal n ++ cs) = parseCount n cs := by
  induction n using Nat.strongRecOn generalizing cs with
  | _ n ih =>
    have hfits : Int.bmod (n : Int) (2 ^ 64) = n := Int.bmod_eq_of_le_mul_two (by omega) (by omega)
    rw [decimal_eq, List.append_assoc, List.singleton_append]
    split
    · next h =>
      rw [List.nil_append, parseCount_digit, Int.zero_mul, Int.zero_add]
      simp only [Nat.mod_eq_of_lt h]
      rw [hfits]
    · have hvalue : ((n / 10 : Nat) : Int) * 10 + ((n % 10 : Nat) : Int) = n := by omega
      rw [ih (n / 10) (Nat.div_lt_self (by omega) (by decide)) (by omega), parseCount_digit]
      simp only [hvalue, hfits]

theorem length_decimal {n : Nat} (hn : n < 10 ^ 18) : (decimal n).length ≤ 18 := by
  simp only [decimal, digits, List.length_map]
  exact (Nat.length_toDigits_le_iff (by decide) (by decide)).mpr hn

theorem spudAuthCount_decimal {n : Nat} (hn : n < 10 ^ 18) (sys : Int) : spudAuthCount (some (decimal n)) sys = n := by
  have hlen := length_decimal hn
  have hparse := parseCount_decimal hn []
  rw [List.append_nil] at hparse
  unfold spudAuthCount
  dsimp only
  rw [List.take_of_length_le (by omega), hparse]
  rfl

/-! ## Tickets -/

def hexByteOf (k : Nat) : UInt8 := (ascii "0123456789abcdef").getD (k % 16) 0

theorem hexDigit_byte (k : Nat) : hexDigit (hexByteOf k) = some (BitVec.ofNat 64 (k % 16)) := by
  have hall : ∀ d : Fin 16, hexDigit ((ascii "0123456789abcdef").getD d 0) = some (BitVec.ofNat 64 d) := by
    decide +kernel
  exact hall ⟨k % 16, Nat.mod_lt k (by decide)⟩

theorem shift_digit (m : Nat) (hm : m < 2 ^ 64) :
    (BitVec.ofNat 64 (m / 16)) <<< 4 ||| BitVec.ofNat 64 (m % 16) = BitVec.ofNat 64 m := by
  apply BitVec.eq_of_toNat_eq
  have hhigh : m / 16 < 2 ^ 60 := by omega
  rw [BitVec.toNat_or, BitVec.toNat_shiftLeft, BitVec.toNat_ofNat, BitVec.toNat_ofNat, BitVec.toNat_ofNat,
    Nat.mod_eq_of_lt (by omega), Nat.mod_eq_of_lt (by omega), Nat.mod_eq_of_lt hm, Nat.shiftLeft_eq,
    Nat.mod_eq_of_lt (by omega), ← Nat.shiftLeft_eq, ← Nat.shiftLeft_add_eq_or_of_lt (by omega), Nat.shiftLeft_eq]
  omega

/-- The digits of a word from the digit `i` on. -/
def digitsFrom (n i k : Nat) : CStr := (List.range' i k).map fun j => hexByteOf (n / 2 ^ (60 - 4 * j))

theorem parseHex_digits {n : Nat} (hn : n < 2 ^ 64) {i k : Nat} (hi : i + k = 16) :
    parseHex (BitVec.ofNat 64 (n / 2 ^ (64 - 4 * i))) (digitsFrom n i k) = some (BitVec.ofNat 64 n) := by
  induction k generalizing i with
  | zero =>
    obtain rfl : i = 16 := hi
    rw [show 64 - 4 * 16 = 0 from rfl, Nat.pow_zero, Nat.div_one]
    rfl
  | succ k ih =>
    have hpow : 2 ^ (64 - 4 * i) = 2 ^ (60 - 4 * i) * 16 := by
      rw [show 64 - 4 * i = 60 - 4 * i + 4 from by omega, Nat.pow_add]
    have hnext : 64 - 4 * (i + 1) = 60 - 4 * i := by omega
    have hrest := @ih (i + 1) (by omega)
    rw [hnext] at hrest
    rw [digitsFrom, List.range'_succ, List.map_cons, parseHex, hexDigit_byte, Option.bind_some, hpow,
      ← Nat.div_div_eq_div_mul, shift_digit _ (Nat.lt_of_le_of_lt (Nat.div_le_self n _) hn)]
    exact hrest

theorem tokenHex_eq (tok : BitVec 64) : tokenHex tok = digitsFrom tok.toNat 0 16 := by
  unfold tokenHex digitsFrom hexByteOf
  rw [List.range_eq_range']
  refine List.map_congr_left fun i _ => ?_
  rw [BitVec.toNat_ushiftRight, Nat.shiftRight_eq_div_pow, Nat.mul_comm]

theorem spudAuthLogin_token (tok : BitVec 64) (sys : Int) : spudAuthLogin (some (tokenHex tok)) sys = (1, tok) := by
  have hlen : (tokenHex tok).length = 16 := by simp [tokenHex]
  have hparse := parseHex_digits tok.isLt (show 0 + 16 = 16 from rfl)
  rw [show 64 - 4 * 0 = 64 from rfl, Nat.div_eq_of_lt tok.isLt, ← tokenHex_eq, BitVec.ofNat_toNat,
    BitVec.setWidth_eq] at hparse
  unfold spudAuthLogin
  dsimp only
  rw [List.take_of_length_le (by omega)]
  rw [if_neg (by omega), if_pos hlen]
  have hzero : (0 : BitVec 64) = BitVec.ofNat 64 0 := rfl
  rw [hzero, hparse]

/-! ## What the client is told -/

/-- The ticket that a login is answered with, if any. -/
def loginTicket (env : Env) (s : Accounts) (f : Fields) : Option (BitVec 64) :=
  if verify env s f.f1 f.f2 then
    ((find s f.f1).bind (s.accts[·]?)).bind fun u => (env.ticket u.name u.caps).filter (· ≠ 0)
  else none

theorem handleLogin_writes (env : Env) (s : Accounts) (f : Fields) :
    (handleLogin env s f).2.Writes (match loginTicket env s f with | some tok => tokenHex tok | none => ascii "0") := by
  have hzero : (Writer.ncpy respMax (ascii "0") 1).Writes (ascii "0") := Writer.ncpy_text rfl (by decide)
  have hlen : ∀ tok, (tokenHex tok).length = 16 := fun tok => by simp [tokenHex]
  have hhex : ∀ tok, (Writer.ncpy respMax (tokenHex tok) 16).Writes (tokenHex tok) := fun tok =>
    Writer.ncpy_text (hlen tok).symm (by decide)
  unfold handleLogin loginTicket
  split
  · cases (find s f.f1).bind (s.accts[·]?) with
    | none => exact hzero
    | some u =>
      rw [Option.bind_some]
      dsimp only
      cases (env.ticket u.name u.caps).filter (· ≠ 0) with
      | none => exact hzero
      | some tok => exact hhex tok
  · exact hzero

theorem spudAuthFlag_flag (ok : Bool) (sys : Int) :
    spudAuthFlag (some (if ok then ascii "1" else ascii "0")) sys = if ok then 1 else 0 := by
  cases ok
  · rfl
  · rfl

theorem spudAuthLogin_zero (sys : Int) : spudAuthLogin (some (ascii "0")) sys = (0, 0) := rfl

section

variable (req resp : Buf) (before : List (Call Env))

/-- The service after what it was asked before. -/
def served : Serving Accounts := serveAll authdHandler ⟨authdInit, req, resp⟩ before

variable (env : Env) (sender : Nat) (payload : List UInt8) (sys : Int)

/-- The reply to one more request. -/
def replyTo (type : Nat) : List UInt8 := (serve authdHandler (served req resp before) ⟨env, sender, type, payload⟩).2

/-- What the client library returns for each request is what the service decides in the state `s`. -/
structure Told (env : Env) (s : Accounts) (f : Fields) (sys : Int) (reply : Nat → List UInt8) : Prop where
  count : spudAuthCount (some (reply ipcTypeAuthCount)) sys = s.accts.length
  login : spudAuthLogin (some (reply ipcTypeAuthLogin)) sys =
    (match loginTicket env s f with | some tok => (1, tok) | none => (0, 0))
  create : spudAuthFlag (some (reply ipcTypeAuthCreate)) sys = (if (handleCreate env s f).2 then 1 else 0)
  delete : spudAuthFlag (some (reply ipcTypeAuthDelete)) sys = (if (handleDelete s f).2 then 1 else 0)
  changepw : spudAuthFlag (some (reply ipcTypeAuthChangepw)) sys = (if (handleChangepw env s f).2 then 1 else 0)
  createUser : spudAuthFlag (some (reply ipcTypeAuthCreateUser)) sys = (if (handleCreateUser env s f).2 then 1 else 0)

/-- The client library returns what the service has decided. -/
theorem client_told : Told env (served req resp before).service (authFields (svcRequest payload)) sys
    (replyTo req resp before env sender payload) := by
  have hinit : StoreInv (⟨authdInit, req, resp⟩ : Serving Accounts).service := StoreInv.init
  have hinv : StoreInv (served req resp before).service := (storeInv_serveAll hinit before).1
  have hflag : ∀ {type : Nat} (r : Accounts × Bool),
      authdHandler env (served req resp before).service sender type (svcRequest payload) = flagged r →
      spudAuthFlag (some (replyTo req resp before env sender payload type)) sys = if r.2 then 1 else 0 := by
    intro type r hr
    rw [replyTo, (serve_eq _ _ _).2, answerOf, hr, flagged, Writer.flag_writes]
    exact spudAuthFlag_flag r.2 sys
  refine ⟨?_, ?_, hflag _ rfl, hflag _ rfl, hflag _ rfl, hflag _ rfl⟩
  · have hroom : (served req resp before).service.accts.length < 10 ^ 18 := by
      have hbound := hinv.bound
      rw [idents, List.length_map] at hbound
      exact Nat.lt_of_le_of_lt hbound (by decide)
    have hreply : replyTo req resp before env sender payload ipcTypeAuthCount =
        decimal (served req resp before).service.accts.length := by
      rw [replyTo, (serve_eq _ _ _).2]
      exact Writer.copied_writes _ _
    rw [hreply, spudAuthCount_decimal hroom]
  · have hreply : replyTo req resp before env sender payload ipcTypeAuthLogin =
        (match loginTicket env (served req resp before).service (authFields (svcRequest payload)) with
          | some tok => tokenHex tok
          | none => ascii "0") := by
      rw [replyTo, (serve_eq _ _ _).2]
      exact handleLogin_writes _ _ _ _
    rw [hreply]
    cases loginTicket env (served req resp before).service (authFields (svcRequest payload)) with
    | none => exact spudAuthLogin_zero sys
    | some tok => exact spudAuthLogin_token tok sys

end

end Siathos.Authd
