import Siathos.Lib.Modify
import Siathos.Session.Consent
import Siathos.Synd.Seed

/-!
# Two records of one consent

The kernel notes a consent when a session begins, 'synd' when it is asked to. Neither tells the other.
-/

open Lib Siathos.Nomos Siathos.Fs Siathos.Ipc Siathos.Syscall Siathos.Session
open Siathos.Session.Consent (inForce consentAll_spec allInForce_consentAll check_consented)

namespace Siathos.Synd.Consent

/-- `granted` and `said` are ghost state: whether a login with consent has succeeded, and what 'synd' was
last asked to note for a path. -/
structure World where
  kernel : Kernel
  synd : Contracts
  granted : Bool
  said : CStr → Bool

/-- The scan of the boot, and then the seed. -/
def start (nodes : Nodes) (k : Kernel) : World :=
  let synallagma := synallagmaScanContracts nodes
  ⟨{ k with nodes, synallagma }, seeded synallagma.contracts, false, fun _ => false⟩

inductive Event
  | login (cur : Nat) (env : Env) (a1 a2 a3 : U64)
  | file (cur : Nat) (env : Env) (nr a1 a2 a3 a4 : U64)
  | request (m : Call Unit)

/-- The login succeeds, and with `a2` it accepts the contracts. -/
def consents (k : Kernel) (cur : Nat) (env : Env) (a1 a2 a3 : U64) : Bool :=
  decide (a2 ≠ 0) && ((strArg env k cur a1 authNameMax).bind (loginAccount · a3 k.auth)).isSome

/-- What a request asks 'synd' to note. -/
def saying (m : Call Unit) (said : CStr → Bool) : CStr → Bool :=
  if m.type = ipcTypeSynConsent then Function.update said (svcRequest m.payload) true
  else if m.type = ipcTypeSynRevoke then Function.update said (svcRequest m.payload) false
  else said

def apply (m : Machine) (w : World) : Event → World
  | .login cur env a1 a2 a3 =>
    { w with
      kernel := (sysSessionLogin env cur a1 a2 a3 w.kernel).state
      granted := w.granted || consents w.kernel cur env a1 a2 a3 }
  | .file cur env nr a1 a2 a3 a4 => { w with kernel := (syscallDispatch m env cur nr a1 a2 a3 a4 w.kernel).state }
  | .request r => { w with synd := (answerOf syndHandler w.synd r).1, said := saying r w.said }

def Allowed (_ : World) : Event → Prop
  | .file _ _ nr _ _ _ _ => nr.toNat ∈ fsCalls
  | _ => True

instance (w : World) : (e : Event) → Decidable (Allowed w e)
  | .login .. => inferInstanceAs (Decidable True)
  | .file .. => inferInstanceAs (Decidable (_ ∈ fsCalls))
  | .request _ => inferInstanceAs (Decidable True)

/-- What 'synd' reports of each path it has is what the kernel enforces. -/
def Agrees (w : World) : Prop :=
  ∀ path c, syndGet w.synd path = some c → c.consentido = synallagmaConsented w.kernel.synallagma path

/-! ## The kernel -/

/-- All bits are alike. -/
structure KernelInv (cs : List Contract) (w : World) : Prop where
  contracts : w.kernel.synallagma.contracts = cs
  length : w.kernel.synallagma.consented.length = maxContracts
  bits : ∀ i < cs.length, w.kernel.synallagma.consented.getD i false = w.granted

theorem kernelInv_start (nodes : Nodes) (k : Kernel) :
    KernelInv (synallagmaScanContracts nodes).contracts (start nodes k) := by
  obtain ⟨-, -, hconsented⟩ := synallagmaScanContracts_scanned nodes
  refine ⟨rfl, by simp [start, hconsented], fun i _ => ?_⟩
  simp only [start, hconsented, List.getD_eq_getElem?_getD, List.getElem?_replicate]
  split <;> rfl

theorem KernelInv.grant {cs : List Contract} {w : World} (h : KernelInv cs w) (hcs : ∀ c ∈ cs, c.ativo = true)
    (hlen : cs.length ≤ maxContracts) {k : Kernel} (hk : k.synallagma = consentAll w.kernel.synallagma) :
    KernelInv cs { w with kernel := k, granted := true } := by
  obtain ⟨hcontracts, hlength, -⟩ :=
    consentAll_spec w.kernel.synallagma (List.range w.kernel.synallagma.contracts.length)
      (consentAll w.kernel.synallagma) rfl
  refine ⟨?_, ?_, fun i hi => ?_⟩
  · rw [hk, hcontracts, h.contracts]
  · rw [hk, hlength, h.length]
  · have hactive : ((consentAll w.kernel.synallagma).contracts[i]?).any (·.ativo) = true := by
      rw [hcontracts, h.contracts, List.getElem?_eq_getElem hi]
      exact hcs _ (List.getElem_mem hi)
    have hforce := allInForce_consentAll w.kernel.synallagma i (by rw [hlength, h.length]; omega) hactive
    rw [inForce, hactive, Bool.true_and] at hforce
    rw [hk]
    exact hforce

theorem KernelInv.login {cs : List Contract} {w : World} (h : KernelInv cs w) (hcs : ∀ c ∈ cs, c.ativo = true)
    (hlen : cs.length ≤ maxContracts) (m : Machine) (cur : Nat) (env : Env) (a1 a2 a3 : U64) :
    KernelInv cs (apply m w (.login cur env a1 a2 a3)) := by
  simp only [apply, consents, sysSessionLogin_state]
  cases (strArg env w.kernel cur a1 authNameMax).bind (loginAccount · a3 w.kernel.auth) with
  | none =>
    rw [Option.isSome_none, Bool.and_false, Bool.or_false]
    exact h
  | some r =>
    obtain ⟨auth, user, caps⟩ := r
    by_cases h2 : a2 = 0
    · simp only [h2, ne_eq, not_true_eq_false, decide_false, Bool.false_and, Bool.or_false, if_true]
      exact ⟨h.contracts, h.length, h.bits⟩
    · simp only [h2, ne_eq, not_false_eq_true, decide_true, Option.isSome_some, Bool.and_self, Bool.or_true, if_false]
      exact h.grant hcs hlen rfl

theorem KernelInv.file {cs : List Contract} {w : World} (h : KernelInv cs w) (m : Machine) (cur : Nat) (env : Env)
    {nr : U64} (hnr : nr.toNat ∈ fsCalls) (a1 a2 a3 a4 : U64) : KernelInv cs
    (apply m w (.file cur env nr a1 a2 a3 a4)) := by
  obtain ⟨nodes, hnodes⟩ := fileCall_state m env cur w.kernel hnr a1 a2 a3 a4
  simp only [apply, hnodes]
  exact ⟨h.contracts, h.length, h.bits⟩

/-- An active contract has this path. -/
def Guarded (cs : List Contract) (path : CStr) : Prop := ∃ c ∈ cs, c.ativo = true ∧ c.caminho = path

theorem KernelInv.consented {cs : List Contract} {w : World} (h : KernelInv cs w) (path : CStr) :
    synallagmaConsented w.kernel.synallagma path = true ↔ (Guarded cs path → w.granted = true) := by
  unfold synallagmaConsented
  rw [h.contracts]
  cases hfind : cs.findIdx? (fun c => c.ativo && decide (c.caminho = path)) with
  | none =>
    simp only [true_iff]
    rintro ⟨c, hc, hactive, hpath⟩
    have := List.findIdx?_eq_none_iff.mp hfind c hc
    simp [hactive, hpath] at this
  | some i =>
    obtain ⟨hi, hmatch, -⟩ := List.findIdx?_eq_some_iff_getElem.mp hfind
    rw [Bool.and_eq_true, decide_eq_true_eq] at hmatch
    have hguarded : Guarded cs path := ⟨_, List.getElem_mem hi, hmatch⟩
    dsimp only
    rw [h.bits i hi]
    simp [hguarded]

/-! ## The service -/

/-- 'synd' reports what it was last asked to note. -/
def SyndInv (w : World) : Prop := ∀ path c, syndGet w.synd path = some c → c.consentido = w.said path

theorem syndGet_some {s : Contracts} {path : CStr} {c : SyndCt} (h : syndGet s path = some c) :
    ∃ i, syndFind s path = some i ∧ s.cts[i]? = some c ∧ c.caminho = path := by
  obtain ⟨i, hi, hc⟩ := Option.bind_eq_some_iff.mp h
  obtain ⟨hlt, hmatch, -⟩ := List.findIdx?_eq_some_iff_getElem.mp hi
  obtain ⟨_, hget⟩ := List.getElem?_eq_some_iff.mp hc
  exact ⟨i, hi, hc, by simpa [hget] using hmatch⟩

theorem syndFind_setConsent (s : Contracts) (i : Nat) (b : Bool) (path : CStr) :
    syndFind (setConsent s i b) path = syndFind s path := by
  unfold syndFind setConsent
  apply findIdx?_modify
  exact fun _ => rfl

theorem SyndInv.note {w : World} (h : SyndInv w) {p : CStr} {i : Nat} (hi : syndFind w.synd p = some i) (b : Bool)
    {s : Contracts} (hs : s.cts = (setConsent w.synd i b).cts) :
    SyndInv { w with synd := s, said := Function.update w.said p b } := by
  intro path c hc
  obtain ⟨j, hj, hget, hpath⟩ := syndGet_some hc
  have hjold : syndFind w.synd path = some j := by
    rw [← syndFind_setConsent w.synd i b, syndFind, ← hs]
    exact hj
  rw [hs, setConsent, List.getElem?_modify] at hget
  obtain ⟨d, hd, hdc⟩ := Option.map_eq_some_iff.mp hget
  by_cases heq : path = p
  · subst heq
    obtain rfl := Option.some.inj (hi.symm.trans hjold)
    simp only [if_true] at hdc
    simp [← hdc]
  · have hne : i ≠ j := by
      rintro rfl
      have hsame : ∀ q, syndFind w.synd q = some i → d.caminho = q := by
        intro q hq
        obtain ⟨k, hk, hdk, hdq⟩ := syndGet_some (show syndGet w.synd q = some d by simp [syndGet, hq, hd])
        exact hdq
      exact heq ((hsame path hjold).symm.trans (hsame p hi))
    simp only [hne, if_false] at hdc
    subst hdc
    simp only [Function.update_of_ne heq]
    exact h path d (by simp [syndGet, hjold, hd])

theorem SyndInv.request {w : World} (h : SyndInv w) (m : Machine) (r : Call Unit) :
    SyndInv (apply m w (.request r)) := by
  have hsame : ∀ s : Contracts, s.cts = w.synd.cts → SyndInv { w with synd := s } := by
    intro s hs path c hc
    unfold syndGet syndFind at hc
    rw [hs] at hc
    exact h path c hc
  have hunknown : ∀ b, syndFind w.synd (svcRequest r.payload) = none →
      SyndInv { w with said := Function.update w.said (svcRequest r.payload) b } := by
    intro b hnone path c hc
    have hne : path ≠ svcRequest r.payload := by
      rintro rfl
      obtain ⟨i, hi, -⟩ := syndGet_some hc
      cases hnone.symm.trans hi
    simp only [Function.update_of_ne hne]
    exact h path c hc
  simp only [apply, answerOf, syndHandler, saying]
  by_cases hconsent : r.type = ipcTypeSynConsent
  · simp only [hconsent, ipcTypeSynConsent, ipcTypePing, ipcTypeSynList, ipcTypeSynRead, Nat.reduceEqDiff, if_false,
      if_true, handleConsent]
    cases hfind : syndFind w.synd (svcRequest r.payload) with
    | none => exact hunknown true hfind
    | some i => exact h.note hfind true rfl
  by_cases hrevoke : r.type = ipcTypeSynRevoke
  · simp only [hrevoke, ipcTypeSynConsent, ipcTypePing, ipcTypeSynList, ipcTypeSynRead, ipcTypeSynRevoke,
      Nat.reduceEqDiff,
      if_false, if_true, handleConsent]
    cases hfind : syndFind w.synd (svcRequest r.payload) with
    | none => exact hunknown false hfind
    | some i => exact h.note hfind false rfl
  simp only [hconsent, hrevoke, if_false]
  split
  · exact h
  split
  · exact hsame _ rfl
  split
  · unfold handleRead
    split
    · exact h
    · exact hsame _ rfl
  split
  · exact h
  · exact h

theorem syndInv_start (nodes : Nodes) (k : Kernel) : SyndInv (start nodes k) := by
  intro path c hc
  obtain ⟨i, -, hget, -⟩ := syndGet_some hc
  obtain ⟨q, -, he⟩ := seedLoop_mem (List.mem_of_getElem? hget)
  obtain ⟨em, -, he⟩ := Option.bind_eq_some_iff.mp he
  obtain ⟨rp, -, he⟩ := Option.bind_eq_some_iff.mp he
  dsimp only at he
  split at he
  · cases he
  · obtain rfl := Option.some.inj he
    rfl

/-! ## Runs -/

theorem inv_run {m : Machine} {nodes : Nodes} {k : Kernel} {events : List Event} {w : World}
    (h : Run (Exec Allowed (apply m)) (start nodes k) events w) :
    KernelInv (synallagmaScanContracts nodes).contracts w ∧ SyndInv w := by
  obtain ⟨hscanned, hlen, -⟩ := synallagmaScanContracts_scanned nodes
  have hactive : ∀ c ∈ (synallagmaScanContracts nodes).contracts, c.ativo = true := fun c hc => (hscanned c hc).ativo
  have hstep : ∀ (v : World) (e : Event) (u : World),
      KernelInv (synallagmaScanContracts nodes).contracts v ∧ SyndInv v → Exec Allowed (apply m) v e u →
      KernelInv (synallagmaScanContracts nodes).contracts u ∧ SyndInv u := by
    rintro v e _ ⟨hkernel, hsynd⟩ ⟨hallowed, rfl⟩
    cases e with
    | login cur env a1 a2 a3 => exact ⟨hkernel.login hactive hlen m cur env a1 a2 a3, hsynd⟩
    | file cur env nr a1 a2 a3 a4 => exact ⟨hkernel.file m cur env hallowed a1 a2 a3 a4, hsynd⟩
    | request r => exact ⟨⟨hkernel.contracts, hkernel.length, hkernel.bits⟩, hsynd.request m r⟩
  exact Run.invariant hstep h ⟨kernelInv_start nodes k, syndInv_start nodes k⟩

/-- The records agree exactly where 'synd' was last told of a consent for the paths that the kernel has one for. -/
theorem consent_agrees_iff {m : Machine} {nodes : Nodes} {k : Kernel} {events : List Event} {w : World}
    (h : Run (Exec Allowed (apply m)) (start nodes k) events w) :
    (Agrees w ↔ ∀ path, (syndFind w.synd path).isSome = true →
      (w.said path = true ↔ (Guarded (synallagmaScanContracts nodes).contracts path → w.granted = true))) ∧
    ∀ (p : Policy) (q : CStr) (c : Contract), p.synallagma = w.kernel.synallagma →
      synallagmaContractFor p.synallagma q = some c →
      synallagmaConsented p.synallagma c.caminho = w.granted ∧
      (w.granted = false → ∀ need, vfsCheckCap p q need = false) := by
  obtain ⟨hkernel, hsynd⟩ := inv_run h
  constructor
  · unfold Agrees
    constructor
    · intro hagrees path hpath
      obtain ⟨i, hi⟩ := Option.isSome_iff_exists.mp hpath
      obtain ⟨hlt, -⟩ := List.findIdx?_eq_some_iff_getElem.mp hi
      have hget : syndGet w.synd path = some w.synd.cts[i] := by simp [syndGet, hi, hlt]
      rw [← hsynd path _ hget, hagrees path _ hget]
      exact hkernel.consented path
    · intro hsaid path c hget
      obtain ⟨i, hi, -⟩ := syndGet_some hget
      have := hsaid path (by rw [hi]; rfl)
      rw [hsynd path c hget, Bool.eq_iff_iff, this]
      exact (hkernel.consented path).symm
  · intro p q c hp hc
    rw [hp] at hc ⊢
    obtain ⟨i, hi⟩ := mostSpecific_iff.mp hc
    have hguarded : Guarded (synallagmaScanContracts nodes).contracts c.caminho := by
      have hguards := hi.guards
      simp only [Contract.guards, Bool.and_eq_true] at hguards
      exact ⟨c, hkernel.contracts ▸ List.mem_of_getElem? hi.slot, hguards.1.1.1, rfl⟩
    have hbit : synallagmaConsented w.kernel.synallagma c.caminho = w.granted := by
      rw [Bool.eq_iff_iff, hkernel.consented]
      simp [hguarded]
    refine ⟨hbit, fun hgranted need => ?_⟩
    rw [← Bool.not_eq_true]
    intro hcheck
    have hconsented := check_consented hcheck c (by rw [hp]; exact hc)
    rw [hp, hbit, hgranted] at hconsented
    cases hconsented

def pactoIdios : Nodes :=
  [⟨ascii "/synallagma", [], 0, .dir, true⟩,
    ⟨ascii "/synallagma/idios.pacto", ascii "caminho = /idios\nleitura = sim\n", 256, .file, true⟩]

def consentFor (type : Nat) : Event := .request ⟨(), 9, type, ascii "/idios"⟩

/-- 'ana' logs in and accepts the contracts, and 'synd' is told of her consent. -/
def accepted : List Event :=
  [.login 0 (callEnv [(nameAddr, Session.Consent.ana)] 0) nameAddr 1 0, consentFor ipcTypeSynConsent]

def afterAccepted : World := accepted.foldl (apply smallMachine) (start pactoIdios Session.Consent.twoUsers)

theorem consent_agrees_iff_accepted :
    (Agrees afterAccepted ↔ ∀ path, (syndFind afterAccepted.synd path).isSome = true →
      (afterAccepted.said path = true ↔
        (Guarded (synallagmaScanContracts pactoIdios).contracts path → afterAccepted.granted = true))) ∧
    ∀ (p : Policy) (q : CStr) (c : Contract), p.synallagma = afterAccepted.kernel.synallagma →
      synallagmaContractFor p.synallagma q = some c →
      synallagmaConsented p.synallagma c.caminho = afterAccepted.granted ∧
      (afterAccepted.granted = false → ∀ need, vfsCheckCap p q need = false) :=
  consent_agrees_iff (Run.of_admits (by decide +kernel))

def revoke : Call Unit := ⟨(), 9, ipcTypeSynRevoke, ascii "/idios"⟩

def afterRevoked : World := apply smallMachine afterAccepted (.request revoke)

/-- The revocation is answered with '1', and the kernel goes on as before. -/
theorem consent_revoked_in_vain :
    (answerOf syndHandler afterAccepted.synd revoke).2.reply (fun _ => 0) = ascii "1" ∧
    (syndGet afterRevoked.synd (ascii "/idios")).map (·.consentido) = some false ∧
    synallagmaConsented afterRevoked.kernel.synallagma (ascii "/idios") = true ∧
    vfsCheckCap ⟨afterRevoked.kernel.auth, afterRevoked.kernel.synallagma, 0⟩ (ascii "/idios/diario") capFsRead =
      true := by
  decide +kernel

end Siathos.Synd.Consent
