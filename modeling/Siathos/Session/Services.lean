import Siathos.Ipc.Lookup
import Siathos.Session.Model
import Siathos.Syscall.Live

/-!
# Services and the processes behind them

Processes come and go while services register and are looked up. A name stands for the last process
that registered it, as long as that process runs.
-/

open Lib Siathos.Nomos Siathos.Ipc Siathos.Syscall

namespace Siathos.Session

/-- The kernel, with the registrations that succeeded, latest first. -/
structure Services where
  kernel : Kernel
  log : List (CStr × Nat)

inductive SvcOp
  | register (cur : Nat) (name : CStr)
  | query (name : CStr)
  | createArgv (name : CStr) (rights : Rights) (stack : Bool)
  | createUser (cur : Nat) (name : CStr) (rights : Rights) (load : Load)
  | wakeup (pid : Nat)
  | exit (cur : Nat) (code : BitVec 32)
  | gc

/-- `proc_create_argv`, where `stack` says whether there is memory for the stack. -/
def procCreateArgv (name : CStr) (rights : Rights) (stack : Bool) (k : Kernel) : Kernel × Option Nat :=
  match findFree k with
  | none => (k, none)
  | some idx =>
    let p : Process :=
      { emptySlot with
        present := stack
        pid := k.nextPid
        name := cut procNameMax name
        rights := rights
        state := .ready }
    ({ k with procs := k.procs.set idx p, nextPid := k.nextPid + 1 },
      if stack then some k.nextPid else none)

namespace Services

/-- `proc_init` and `svc_init`. -/
def start (k : Kernel) : Services :=
  ⟨{ k with procs := List.replicate 64 emptySlot, nextPid := 1, svcTable := svcInit }, []⟩

def apply (s : Services) : SvcOp → Services
  | .register cur name =>
    match svcRegister s.kernel.svcTable name (s.kernel.proc cur).pid with
    | none => s
    | some svcTable =>
      ⟨{ s.kernel with svcTable }, (name, (s.kernel.proc cur).pid) :: s.log⟩
  | .query name =>
    { s with
      kernel := { s.kernel with svcTable := (svcQuery (alive s.kernel) s.kernel.svcTable name).1 } }
  | .createArgv name rights stack =>
    { s with kernel := (procCreateArgv name rights stack s.kernel).1 }
  | .createUser cur name rights load =>
    { s with kernel := (procCreateUserRegions cur name rights load s.kernel).1 }
  | .wakeup pid => { s with kernel := schedWakeup pid s.kernel }
  | .exit cur code => { s with kernel := procExit cur code s.kernel }
  | .gc => { s with kernel := procGcRun s.kernel }

end Services

/-- Services are registered by running processes, under names of 1 to 31 bytes. -/
def SvcAllowed (s : Services) : SvcOp → Prop
  | .register cur name => Live (s.kernel.proc cur) ∧ name ≠ [] ∧ name.length ≤ 31
  | _ => True

instance (s : Services) : (o : SvcOp) → Decidable (SvcAllowed s o)
  | .register _ _ => inferInstanceAs (Decidable ((_ ∧ _) ∧ _ ∧ _))
  | .query _ | .createArgv .. | .createUser .. | .wakeup _ | .exit .. | .gc => isTrue trivial

/-- The process that registered the name last. -/
def lastRegistrant (log : List (CStr × Nat)) (name : CStr) : Option Nat :=
  (log.find? fun r => r.1 = name).map (·.2)

theorem lastRegistrant_cons (log : List (CStr × Nat)) (name m : CStr) (pid : Nat) :
    lastRegistrant ((name, pid) :: log) m = if name = m then some pid else lastRegistrant log m := by
  unfold lastRegistrant
  rw [List.find?_cons]
  by_cases h : name = m <;> simp [h]

/-! ## Process numbers -/

/-- Some process with this number is present and not terminated. -/
def LivePid (k : Kernel) (pid : Nat) : Prop := ∃ i, Live (k.proc i) ∧ (k.proc i).pid = pid

/-- Numbers are given once. -/
structure PidsInv (k : Kernel) : Prop where
  below : ∀ i, (k.proc i).present = true → (k.proc i).pid < k.nextPid
  unique : ∀ i j, (k.proc i).present = true → (k.proc j).present = true →
    (k.proc i).pid = (k.proc j).pid → i = j

theorem proc_mem {k : Kernel} {p : Process} (h : p ∈ k.procs) : ∃ i, k.proc i = p := by
  obtain ⟨i, hi⟩ := List.mem_iff_getElem?.mp h
  exact ⟨i, by simp [Kernel.proc, List.getD_eq_getElem?_getD, hi]⟩

theorem mem_of_present {k : Kernel} {i : Nat} (h : (k.proc i).present = true) : k.proc i ∈ k.procs := by
  revert h
  unfold Kernel.proc
  rw [List.getD_eq_getElem?_getD]
  cases hp : k.procs[i]? with
  | none => simp [emptySlot]
  | some p => exact fun _ => List.mem_of_getElem? hp

/-- `proc_get` finds the one process with the number. -/
theorem alive_iff {k : Kernel} (h : PidsInv k) (pid : Nat) : alive k pid = true ↔ LivePid k pid := by
  unfold alive procGet LivePid
  constructor
  · intro halive
    obtain ⟨p, hp, hstate⟩ := (Option.any_eq_true _ _).mp halive
    have hmatch := List.find?_some hp
    simp only [Bool.and_eq_true, decide_eq_true_eq] at hmatch hstate
    obtain ⟨i, rfl⟩ := proc_mem (List.mem_of_find?_eq_some hp)
    exact ⟨i, ⟨hmatch.1, hstate⟩, hmatch.2⟩
  · rintro ⟨i, ⟨hpresent, hstate⟩, rfl⟩
    have hsome : (k.procs.find? fun p => p.present && decide (p.pid = (k.proc i).pid)).isSome := by
      rw [List.find?_isSome]
      exact ⟨_, mem_of_present hpresent, by simp [hpresent]⟩
    obtain ⟨p, hp⟩ := Option.isSome_iff_exists.mp hsome
    have hmatch := List.find?_some hp
    simp only [Bool.and_eq_true, decide_eq_true_eq] at hmatch
    obtain ⟨j, rfl⟩ := proc_mem (List.mem_of_find?_eq_some hp)
    obtain rfl := h.unique j i hmatch.1 hpresent hmatch.2
    rw [hp]
    simpa using hstate

/-- No process appears, and none that has ended runs again. -/
structure Shrinks (k k' : Kernel) : Prop where
  nextPid : k'.nextPid = k.nextPid
  proc : ∀ i, (k'.proc i).present = true → (k.proc i).present = true ∧
    (k'.proc i).pid = (k.proc i).pid ∧ (Live (k'.proc i) → Live (k.proc i))

theorem Shrinks.inv {k k' : Kernel} (h : Shrinks k k') (hinv : PidsInv k) : PidsInv k' := by
  constructor
  · intro i hi
    obtain ⟨hpresent, hpid, -⟩ := h.proc i hi
    rw [hpid, h.nextPid]
    exact hinv.below i hpresent
  · intro i j hi hj heq
    obtain ⟨hpi, hpidi, -⟩ := h.proc i hi
    obtain ⟨hpj, hpidj, -⟩ := h.proc j hj
    exact hinv.unique i j hpi hpj (by rw [← hpidi, ← hpidj, heq])

theorem Shrinks.livePid {k k' : Kernel} (h : Shrinks k k') {pid : Nat} (hlive : LivePid k' pid) :
    LivePid k pid := by
  obtain ⟨i, hi, rfl⟩ := hlive
  obtain ⟨-, hpid, hback⟩ := h.proc i hi.1
  exact ⟨i, hback hi, hpid.symm⟩

/-- An update that neither adds a process nor brings one back. -/
structure Fades (f : Process → Process) : Prop where
  present : ∀ p, (f p).present = true → p.present = true
  pid : ∀ p, (f p).pid = p.pid
  live : ∀ p, Live (f p) → Live p

theorem Shrinks.of_fades {k k' : Kernel} (hnext : k'.nextPid = k.nextPid)
    (h : ∀ i, ∃ f, Fades f ∧ k'.proc i = f (k.proc i)) : Shrinks k k' := by
  refine ⟨hnext, fun i hi => ?_⟩
  obtain ⟨f, hf, heq⟩ := h i
  rw [heq] at hi ⊢
  exact ⟨hf.present _ hi, hf.pid _, hf.live _⟩

theorem Fades.id : Fades id := ⟨fun _ h => h, fun _ => rfl, fun _ h => h⟩

theorem Fades.comp {f g : Process → Process} (hf : Fades f) (hg : Fades g) : Fades (f ∘ g) where
  present p h := hg.present p (hf.present _ h)
  pid p := (hf.pid _).trans (hg.pid p)
  live p h := hg.live p (hf.live _ h)

theorem fades_updatePid (k : Kernel) (pid : Nat) {f : Process → Process} (hf : Fades f) (i : Nat) :
    ∃ g, Fades g ∧ Kernel.proc { k with procs := updatePid pid f k.procs } i = g (k.proc i) := by
  rcases proc_updatePid k pid f i with h | ⟨-, h⟩
  · exact ⟨_, Fades.id, h⟩
  · exact ⟨f, hf, h⟩

theorem fades_setProc (k : Kernel) (cur : Nat) {f : Process → Process} (hf : Fades f) (i : Nat) :
    ∃ g, Fades g ∧ (k.setProc cur f).proc i = g (k.proc i) := by
  rcases proc_setProc k cur f i with h | ⟨-, h⟩
  · exact ⟨_, Fades.id, h⟩
  · exact ⟨f, hf, h⟩

theorem Shrinks.wakeup (k : Kernel) (pid : Nat) : Shrinks k (schedWakeup pid k) := by
  refine Shrinks.of_fades rfl fun i => ?_
  apply fades_updatePid
  constructor
  · intro p
    split <;> exact id
  · intro p
    split <;> rfl
  · intro p
    split
    · next hblocked => exact fun h => ⟨h.1, by rw [hblocked]; simp⟩
    · exact fun h => h

theorem Shrinks.exit (k : Kernel) (cur : Nat) (code : BitVec 32) : Shrinks k (procExit cur code k) := by
  refine Shrinks.of_fades rfl fun i => ?_
  have htold : Fades fun p =>
      { p with
        waitPid := (k.proc cur).pid
        waitCode := code
        state := if p.state = .blocked then .ready else p.state } := by
    refine ⟨fun p h => h, fun _ => rfl, fun p h => ⟨h.1, ?_⟩⟩
    have hstate := h.2
    simp only at hstate
    split at hstate
    · next hblocked =>
      rw [hblocked]
      simp
    · exact hstate
  have hdone : Fades fun p => { p with exitCode := code, state := .terminated } :=
    ⟨fun p h => h, fun _ => rfl, fun p h => absurd rfl h.2⟩
  obtain ⟨g, hg, heq⟩ := fades_updatePid k (k.proc cur).parent htold i
  obtain ⟨g', hg', heq'⟩ := fades_setProc
    { k with procs := updatePid (k.proc cur).parent _ k.procs } cur hdone i
  exact ⟨g' ∘ g, hg'.comp hg, heq'.trans (congrArg g' heq)⟩

theorem Shrinks.gc (k : Kernel) : Shrinks k (procGcRun k) := by
  refine ⟨rfl, fun i hi => ?_⟩
  revert hi
  unfold procGcRun Kernel.proc
  simp only [List.getD_eq_getElem?_getD, List.getElem?_map]
  cases k.procs[i]? with
  | none => simp [emptySlot]
  | some p =>
    simp only [Option.map_some, Option.getD_some]
    split
    · simp
    · exact fun hi => ⟨hi, rfl, id⟩

/-! ## A new process -/

theorem proc_set (k : Kernel) (idx : Nat) (p : Process) (n i : Nat) :
    Kernel.proc { k with procs := k.procs.set idx p, nextPid := n } i = k.proc i ∨
      i = idx ∧ Kernel.proc { k with procs := k.procs.set idx p, nextPid := n } i = p := by
  unfold Kernel.proc
  simp only [List.getD_eq_getElem?_getD, List.getElem?_set]
  by_cases h : idx = i
  · subst h
    by_cases hlt : idx < k.procs.length
    · simp [hlt]
    · left
      simp [hlt]
  · simp [h]

variable {k : Kernel} {idx : Nat} {p : Process}

theorem PidsInv.set (h : PidsInv k) (hp : p.pid = k.nextPid) :
    PidsInv { k with procs := k.procs.set idx p, nextPid := k.nextPid + 1 } := by
  constructor
  · intro i
    rcases proc_set k idx p (k.nextPid + 1) i with hi | ⟨-, hi⟩
    · rw [hi]
      exact fun hpresent => Nat.lt_succ_of_lt (h.below i hpresent)
    · rw [hi, hp]
      exact fun _ => Nat.lt_succ_self _
  · intro i j
    rcases proc_set k idx p (k.nextPid + 1) i with hi | ⟨rfl, hi⟩
    · rcases proc_set k idx p (k.nextPid + 1) j with hj | ⟨rfl, hj⟩
      · rw [hi, hj]
        exact h.unique i j
      · rw [hi, hj, hp]
        intro hpresent _ heq
        have := h.below i hpresent
        omega
    · rcases proc_set k i p (k.nextPid + 1) j with hj | ⟨rfl, hj⟩
      · rw [hi, hj, hp]
        intro _ hpresent heq
        have := h.below j hpresent
        omega
      · exact fun _ _ _ => rfl

theorem livePid_set (hp : p.pid = k.nextPid) {pid : Nat} (hpid : pid < k.nextPid)
    (hlive : LivePid { k with procs := k.procs.set idx p, nextPid := k.nextPid + 1 } pid) :
    LivePid k pid := by
  obtain ⟨i, hi, heq⟩ := hlive
  rcases proc_set k idx p (k.nextPid + 1) i with hproc | ⟨-, hproc⟩
  · rw [hproc] at hi heq
    exact ⟨i, hi, heq⟩
  · rw [hproc, hp] at heq
    omega

theorem procCreateArgv_cases (name : CStr) (rights : Rights) (stack : Bool) (k : Kernel) :
    (procCreateArgv name rights stack k).1 = k ∨
    ∃ idx p, findFree k = some idx ∧ p.pid = k.nextPid ∧ (procCreateArgv name rights stack k).1 =
      { k with procs := k.procs.set idx p, nextPid := k.nextPid + 1 } := by
  unfold procCreateArgv
  split
  · exact Or.inl rfl
  · next idx hidx =>
    right
    refine ⟨idx, _, hidx, ?_, rfl⟩
    rfl

/-! ## The invariant -/

/-- A name has no holder and its last registrant is gone, or that one is its holder. -/
structure ServicesInv (s : Services) : Prop where
  pids : PidsInv s.kernel
  known : ∀ r ∈ s.log, r.1 ≠ [] ∧ r.2 < s.kernel.nextPid
  holder : ∀ name,
    (holders name s.kernel.svcTable = [] ∧
      ∀ pid, lastRegistrant s.log name = some pid → ¬ LivePid s.kernel pid) ∨
    ∃ pid, holders name s.kernel.svcTable = [pid] ∧ lastRegistrant s.log name = some pid

namespace ServicesInv

variable {s : Services}

theorem one (h : ServicesInv s) (name : CStr) : (holders name s.kernel.svcTable).length ≤ 1 := by
  rcases h.holder name with ⟨hnone, -⟩ | ⟨pid, hone, -⟩
  · simp [hnone]
  · simp [hone]

theorem lastRegistrant_lt (h : ServicesInv s) {name : CStr} {pid : Nat}
    (hlast : lastRegistrant s.log name = some pid) : pid < s.kernel.nextPid := by
  obtain ⟨r, hr, rfl⟩ := Option.map_eq_some_iff.mp hlast
  exact (h.known r (List.mem_of_find?_eq_some hr)).2

theorem procs (h : ServicesInv s) {k : Kernel} (hpids : PidsInv k)
    (hnext : s.kernel.nextPid ≤ k.nextPid) (htable : k.svcTable = s.kernel.svcTable)
    (hback : ∀ pid, pid < s.kernel.nextPid → LivePid k pid → LivePid s.kernel pid) :
    ServicesInv { s with kernel := k } := by
  refine ⟨hpids, fun r hr => ⟨(h.known r hr).1, Nat.lt_of_lt_of_le (h.known r hr).2 hnext⟩, ?_⟩
  intro name
  simp only [htable]
  rcases h.holder name with ⟨hnone, hdead⟩ | hone
  · left
    refine ⟨hnone, fun pid hlast hlive => hdead pid hlast ?_⟩
    exact hback pid (h.lastRegistrant_lt hlast) hlive
  · right
    exact hone

theorem shrink (h : ServicesInv s) {k : Kernel} (hk : Shrinks s.kernel k)
    (htable : k.svcTable = s.kernel.svcTable) : ServicesInv { s with kernel := k } :=
  h.procs (hk.inv h.pids) (Nat.le_of_eq hk.nextPid.symm) htable fun _ _ hlive => hk.livePid hlive

theorem create (h : ServicesInv s) {idx : Nat} {p : Process} (hp : p.pid = s.kernel.nextPid) :
    ServicesInv { s with
      kernel := { s.kernel with procs := s.kernel.procs.set idx p, nextPid := s.kernel.nextPid + 1 } } :=
  h.procs (h.pids.set hp) (Nat.le_succ _) rfl fun _ hpid hlive => livePid_set hp hpid hlive

theorem register (h : ServicesInv s) {cur : Nat} (hlive : Live (s.kernel.proc cur)) {name : CStr}
    (hne : name ≠ []) (hlen : name.length ≤ 31) {t : SvcTable}
    (ht : svcRegister s.kernel.svcTable name (s.kernel.proc cur).pid = some t) :
    ServicesInv ⟨{ s.kernel with svcTable := t }, (name, (s.kernel.proc cur).pid) :: s.log⟩ := by
  obtain ⟨hname, hother⟩ := svcRegister_holders hlen ht (h.one name)
  refine ⟨⟨h.pids.below, h.pids.unique⟩, ?_, ?_⟩
  · intro r hr
    rcases List.mem_cons.mp hr with rfl | hr
    · exact ⟨hne, h.pids.below cur hlive.1⟩
    · exact h.known r hr
  · intro m
    simp only [lastRegistrant_cons]
    by_cases hm : name = m
    · subst hm
      right
      exact ⟨_, hname, by rw [if_pos rfl]⟩
    · simp only [if_neg hm, hother m (Ne.symm hm)]
      exact h.holder m

theorem query (h : ServicesInv s) (name : CStr) :
    ServicesInv { s with
      kernel := { s.kernel with
        svcTable := (svcQuery (alive s.kernel) s.kernel.svcTable name).1 } } := by
  unfold svcQuery
  split
  · exact h
  refine ⟨⟨h.pids.below, h.pids.unique⟩, h.known, fun m => ?_⟩
  obtain ⟨-, hdropped, hother⟩ := svcLookup_holders (alive s.kernel) name s.kernel.svcTable
  by_cases hm : m = name
  · subst hm
    simp only [hdropped]
    rcases h.holder m with ⟨hnone, hdead⟩ | ⟨pid, hone, hlast⟩
    · left
      exact ⟨by rw [hnone]; rfl, hdead⟩
    · rw [hone]
      by_cases hlive : alive s.kernel pid = true
      · right
        exact ⟨pid, by simp [hlive], hlast⟩
      · left
        refine ⟨by simp [hlive], ?_⟩
        intro q hq hlivepid
        rw [hlast, Option.some.injEq] at hq
        subst hq
        exact hlive ((alive_iff h.pids pid).mpr hlivepid)
  · simp only [hother m hm]
    exact h.holder m

theorem start (k : Kernel) : ServicesInv (Services.start k) := by
  have habsent : ∀ i, ((Services.start k).kernel.proc i).present = false := by
    intro i
    unfold Services.start Kernel.proc
    simp only [List.getD_eq_getElem?_getD, List.getElem?_replicate]
    split <;> rfl
  refine ⟨⟨?_, ?_⟩, ?_, ?_⟩
  · intro i hi
    rw [habsent i] at hi
    simp at hi
  · intro i j hi
    rw [habsent i] at hi
    simp at hi
  · intro r hr
    simp [Services.start] at hr
  · intro name
    left
    refine ⟨holders_init name, ?_⟩
    intro pid hpid
    simp [Services.start, lastRegistrant] at hpid

end ServicesInv

theorem servicesInv_apply {s : Services} (h : ServicesInv s) {o : SvcOp} (ho : SvcAllowed s o) :
    ServicesInv (s.apply o) := by
  cases o with
  | register cur name =>
    simp only [Services.apply]
    split
    · exact h
    · next t ht => exact h.register ho.1 ho.2.1 ho.2.2 ht
  | query name => exact h.query name
  | createArgv name rights stack =>
    simp only [Services.apply]
    rcases procCreateArgv_cases name rights stack s.kernel with hk | ⟨idx, p, -, hp, hk⟩
    · rw [hk]
      exact h
    · rw [hk]
      exact h.create hp
  | createUser cur name rights load =>
    simp only [Services.apply]
    rcases procCreateUserRegions_cases cur name rights load s.kernel with
      hk | ⟨idx, p, pid, -, hp, -, -, -, hk⟩
    · rw [hk]
      exact h
    · rw [hk]
      exact h.create hp
  | wakeup pid => exact h.shrink (Shrinks.wakeup _ pid) rfl
  | exit cur code => exact h.shrink (Shrinks.exit _ cur code) rfl
  | gc => exact h.shrink (Shrinks.gc _) rfl

theorem servicesInv_run {k : Kernel} {ops : List SvcOp} {s : Services}
    (h : Run (Exec SvcAllowed Services.apply) (Services.start k) ops s) : ServicesInv s :=
  h.invariant (fun _ _ _ hs ⟨ho, ht⟩ => ht ▸ servicesInv_apply hs ho) (ServicesInv.start k)

/-- A query answers with the last registrant of the name when it still runs, and fails otherwise. -/
theorem svcQuery_last {k : Kernel} {ops : List SvcOp} {s : Services}
    (h : Run (Exec SvcAllowed Services.apply) (Services.start k) ops s) (name : CStr) :
    (∀ pid, (svcQuery (alive s.kernel) s.kernel.svcTable name).2 = some pid ↔
      lastRegistrant s.log name = some pid ∧ LivePid s.kernel pid) ∧
    (s.kernel.svcTable.filter fun e => e.active && decide (e.name = name)).length ≤ 1 := by
  have hinv := servicesInv_run h
  have hone := hinv.one name
  refine ⟨fun pid => ?_, by simpa [holders] using hone⟩
  rw [← alive_iff hinv.pids]
  unfold svcQuery
  split
  · next hempty =>
    -- nobody registers the empty name
    subst hempty
    rcases hinv.holder [] with ⟨-, hdead⟩ | ⟨q, -, hlast⟩
    · simp only [reduceCtorEq, false_iff, not_and]
      intro hlast halive
      exact hdead pid hlast ((alive_iff hinv.pids pid).mp halive)
    · obtain ⟨r, hr, -⟩ := Option.map_eq_some_iff.mp hlast
      have hname : r.1 = [] := by simpa using List.find?_some hr
      exact absurd hname (hinv.known r (List.mem_of_find?_eq_some hr)).1
  rw [(svcLookup_holders (alive s.kernel) name s.kernel.svcTable).1]
  rcases hinv.holder name with ⟨hnone, hdead⟩ | ⟨q, hheld, hlast⟩
  · rw [hnone]
    simp only [List.find?_nil, reduceCtorEq, false_iff, not_and]
    intro hlast halive
    exact hdead pid hlast ((alive_iff hinv.pids pid).mp halive)
  · rw [hheld, hlast]
    simp only [List.find?_singleton, Option.some.injEq]
    split
    · next hlive =>
      simp only [Option.some.injEq]
      exact ⟨fun heq => ⟨heq, heq ▸ hlive⟩, And.left⟩
    · next hdead =>
      simp only [reduceCtorEq, false_iff, not_and]
      rintro rfl
      exact hdead

/-- Two processes serve 'fsd' one after the other, and the first ends. -/
def fsdTwice : List SvcOp :=
  [.createArgv (ascii "a") 0 true, .createArgv (ascii "b") 0 true, .register 0 (ascii "fsd"),
    .register 1 (ascii "fsd"), .exit 0 0, .gc]

theorem svcQuery_last_twice :
    let s := fsdTwice.foldl Services.apply (Services.start (boot [] synallagmaInit).kernel)
    (∀ pid, (svcQuery (alive s.kernel) s.kernel.svcTable (ascii "fsd")).2 = some pid ↔
      lastRegistrant s.log (ascii "fsd") = some pid ∧ LivePid s.kernel pid) ∧
    (s.kernel.svcTable.filter fun e => e.active && decide (e.name = ascii "fsd")).length ≤ 1 := by
  have hadmits : Admits SvcAllowed Services.apply (Services.start (boot [] synallagmaInit).kernel)
      fsdTwice := by decide +kernel
  exact svcQuery_last (Run.of_admits hadmits) (ascii "fsd")

end Siathos.Session
