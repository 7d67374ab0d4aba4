import Siathos.Authd.Service

/-!
# Requests of several fields (`spud_auth_pack`)

The client puts a NUL behind each field. The service steps over a byte behind a field only where it is
not NUL, so that it never gets to the second field.
-/

open Lib Siathos.Ipc

namespace Siathos.Authd

/-! ## The client -/

/-- The loop of `spud_auth_pack`. It ends where the buffer is full, whose last byte is the NUL. -/
def packFields (max : Nat) (req : List UInt8) : List CStr → List UInt8
  | [] => req
  | f :: fs =>
    let req := req ++ f.take (max - 1 - req.length)
    if req.length + 1 < max then packFields max (req ++ [0]) fs else req

/-- The fields that go into a request. A null pointer before another field counts as empty. -/
def packed (a : CStr) (b c : Option CStr) : List CStr :=
  match b, c with
  | _, some c => [a, b.getD [], c]
  | some b, none => [a, b]
  | none, none => [a]

def spudAuthPack (max : Nat) (a : CStr) (b c : Option CStr) : List UInt8 := packFields max [] (packed a b c)

/-! ## What the service reads -/

/-- What is left of the request behind its first field, and behind its second. -/
def restAfter1 (req : CStr) : CStr := (field authName req).2

def restAfter2 (req : CStr) : CStr := (field authPass (restAfter1 req)).2

/-- Where a field begins in a request. -/
def fieldStart : List CStr → Nat → Nat
  | _, 0 => 0
  | [], _ => 0
  | f :: fs, k + 1 => f.length + 1 + fieldStart fs k

/-- The bytes lie in one field. -/
def Inside (fs : List CStr) (k start len : Nat) : Prop :=
  len = 0 ∨ fieldStart fs k ≤ start ∧ start + len ≤ fieldStart fs k + (fs.getD k []).length

/-- Each field that the service reads is made of bytes of the field that the client put in its place. -/
structure Apart (fs : List CStr) (req : CStr) : Prop where
  first : Inside fs 0 0 (authFields req).f1.length
  second : Inside fs 1 (req.length - (restAfter1 req).length) (authFields req).f2.length
  third : Inside fs 2 (req.length - (restAfter2 req).length) (authFields req).f3.length

def NulFree (s : CStr) : Prop := ∀ c ∈ s, c ≠ 0

theorem NulFree.take {s : CStr} (h : NulFree s) (n : Nat) : NulFree (s.take n) :=
  fun c hc => h c (List.mem_of_mem_take hc)

/-! ## Only the first field arrives -/

theorem takeWhile_nul {l : List UInt8} (h : NulFree l) {r : List UInt8} (hr : r.head? = none ∨ r.head? = some 0) :
    (l ++ r).takeWhile (· != 0) = l := by
  induction l with
  | nil =>
    cases r with
    | nil => rfl
    | cons c cs =>
      rcases hr with hr | hr
      · simp at hr
      · obtain rfl := Option.some.inj hr
        simp
  | cons c cs ih =>
    obtain ⟨hc, hcs⟩ := List.forall_mem_cons.mp h
    simp [hc, ih hcs]

theorem packFields_prefix (max : Nat) (req : List UInt8) (fs : List CStr) : req <+: packFields max req fs := by
  induction fs generalizing req with
  | nil => exact List.prefix_rfl
  | cons f fs ih =>
    unfold packFields
    dsimp only
    split
    · refine List.IsPrefix.trans ?_ (ih _)
      rw [List.append_assoc]
      exact List.prefix_append _ _
    · exact List.prefix_append _ _

theorem packed_cons (a : CStr) (b c : Option CStr) : ∃ fs, packed a b c = a :: fs := by
  unfold packed
  split <;> exact ⟨_, rfl⟩

theorem request_pack {max : Nat} (hmax : max ≤ reqMax) {a : CStr} (ha : NulFree a) (b c : Option CStr) :
    svcRequest (spudAuthPack max a b c) = a.take (max - 1) := by
  obtain ⟨fs, hfs⟩ := packed_cons a b c
  have hfirst : (spudAuthPack max a b c).takeWhile (· != 0) = a.take (max - 1) := by
    unfold spudAuthPack packFields
    rw [hfs]
    simp only [List.nil_append, List.length_nil, Nat.sub_zero]
    split
    · obtain ⟨tail, htail⟩ := packFields_prefix max (a.take (max - 1) ++ [0]) fs
      rw [← htail, List.append_assoc]
      exact takeWhile_nul (ha.take _) (.inr rfl)
    · simpa using takeWhile_nul (r := []) (ha.take (max - 1)) (.inl rfl)
  rw [svcRequest, ← List.take_takeWhile, hfirst, List.take_take, Nat.min_eq_right (by omega)]

theorem authFields_eq (req : CStr) :
    authFields req = ⟨req.take 31, (req.drop 32).take 63, (req.drop 96).take 63⟩ := by
  simp [authFields, field, authName, authPass, List.drop_drop]

/-- A name is read as it was packed, and a first field of up to 32 bytes does not run over into the next. -/
theorem authFields_pack {max : Nat} (hmax : max = 128 ∨ max = 196) {a : CStr} (ha : NulFree a) (b c : Option CStr) :
    (a.length ≤ 31 → (authFields (svcRequest (spudAuthPack max a b c)) = ⟨a, b.getD [], c.getD []⟩ ↔
      b.getD [] = [] ∧ c.getD [] = [])) ∧
    (Apart (packed a b c) (svcRequest (spudAuthPack max a b c)) ↔ a.length ≤ 32) := by
  rw [request_pack (by unfold reqMax; omega) ha]
  constructor
  · intro hlen
    rw [List.take_of_length_le (by omega), authFields_eq, List.take_of_length_le hlen,
      List.drop_eq_nil_of_le (by omega), List.drop_eq_nil_of_le (by omega), Fields.mk.injEq]
    exact ⟨fun ⟨_, hb, hc⟩ => ⟨hb.symm, hc.symm⟩, fun ⟨hb, hc⟩ => ⟨rfl, hb.symm, hc.symm⟩⟩
  · obtain ⟨fs, hfs⟩ := packed_cons a b c
    have hrest1 : restAfter1 (a.take (max - 1)) = (a.take (max - 1)).drop 32 := by
      simp [restAfter1, field, authName, List.drop_drop]
    have hrest2 : restAfter2 (a.take (max - 1)) = (a.take (max - 1)).drop 96 := by
      simp [restAfter2, hrest1, field, authPass, List.drop_drop]
    constructor
    · -- the second array gets what stands behind byte 32 of the first field
      intro h
      have hsecond := h.second
      simp only [Inside, authFields_eq, hrest1, hfs, fieldStart, List.length_take, List.length_drop] at hsecond
      omega
    · intro hlen
      refine ⟨?_, .inl ?_, .inl ?_⟩
      · right
        simp only [fieldStart, hfs, authFields_eq, List.length_take, List.getD_cons_zero]
        omega
      · simp only [authFields_eq, List.length_take, List.length_drop]
        omega
      · simp only [authFields_eq, List.length_take, List.length_drop]
        omega

theorem authFields_pack_name :
    let req := svcRequest (spudAuthPack 128 (ascii "thais") (some []) none)
    ((ascii "thais").length ≤ 31 → (authFields req = ⟨ascii "thais", [], []⟩ ↔ ([] : CStr) = [] ∧ ([] : CStr) = [])) ∧
      (Apart (packed (ascii "thais") (some []) none) req ↔ (ascii "thais").length ≤ 32) :=
  authFields_pack (.inl rfl) (by unfold NulFree; decide +kernel) (some []) none

/-- The password of a request to log in is not read. And a long name becomes a name and a password. -/
theorem authFields_lose :
    authFields (svcRequest (spudAuthPack 128 (ascii "thais") (some (ascii "senha")) none)) = ⟨ascii "thais", [], []⟩ ∧
    ¬ Apart (packed (List.replicate 40 0x61) (some (ascii "senha")) none)
      (svcRequest (spudAuthPack 128 (List.replicate 40 0x61) (some (ascii "senha")) none)) := by
  refine ⟨by decide +kernel, fun h => ?_⟩
  have hsecond := h.second
  revert hsecond
  unfold Inside
  decide +kernel

end Siathos.Authd
