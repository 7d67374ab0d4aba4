import Siathos.Syscall.Dispatch

/-!
# What the system calls keep

One rule for each call, for any invariant that does not look at mailboxes, names, files or the state
of processes, and any property of accesses that a checked pointer has.
-/

open Lib Lib.Call Siathos.Nomos Siathos.Fs Siathos.Ipc Siathos.Proc

namespace Siathos.Syscall

/-- What a registration or a query makes of the registry. -/
def SvcMove (k : Kernel) (svcTable : SvcTable) : Prop :=
  (∃ name pid, name.length < 32 ∧ svcRegister k.svcTable name pid = some svcTable) ∨
    ∃ name, svcTable = (svcQuery (alive k) k.svcTable name).1

/-- The invariant does not look at mailboxes, files, consent or the state of processes, and holds of
what a registration or a query makes of the registry. -/
structure Tame (cur : Nat) (inv : Kernel → Prop) : Prop where
  mailboxes : ∀ k mailboxes, inv k → inv { k with mailboxes }
  svcTable : ∀ k k' svcTable, inv k → inv k' → SvcMove k' svcTable → inv { k with svcTable }
  nodes : ∀ k nodes, inv k → inv { k with nodes }
  wakeup : ∀ k pid, inv k → inv (schedWakeup pid k)
  gc : ∀ k, inv k → inv (procGcRun k)
  accounts : ∀ k auth, auth.tickets = k.auth.tickets → inv k → inv { k with auth }
  verified : ∀ k verified, inv k → inv { k with verified }
  waited : ∀ k, inv k → inv (k.setProc cur fun p => { p with waitPid := 0 })
  block : ∀ k, inv k → inv (k.setProc cur fun p => { p with state := .blocked })

theorem Tame.and {cur : Nat} {inv inv' : Kernel → Prop} (h : Tame cur inv) (h' : Tame cur inv') :
    Tame cur fun k => inv k ∧ inv' k where
  mailboxes k v := And.imp (h.mailboxes k v) (h'.mailboxes k v)
  svcTable k k' v hk hk' hv := ⟨h.svcTable k k' v hk.1 hk'.1 hv, h'.svcTable k k' v hk.2 hk'.2 hv⟩
  nodes k v := And.imp (h.nodes k v) (h'.nodes k v)
  wakeup k pid := And.imp (h.wakeup k pid) (h'.wakeup k pid)
  gc k := And.imp (h.gc k) (h'.gc k)
  accounts k auth ht := And.imp (h.accounts k auth ht) (h'.accounts k auth ht)
  verified k v := And.imp (h.verified k v) (h'.verified k v)
  waited k := And.imp (h.waited k) (h'.waited k)
  block k := And.imp (h.block k) (h'.block k)

/-- Accesses inside the range are ok. -/
def OkRange (ok : Access → Prop) (addr len : U64) : Prop :=
  ∀ o n w, o + n ≤ len.toNat → ok ⟨addr + BitVec.ofNat 64 o, n, w⟩

theorem OkRange.start {ok : Access → Prop} {addr len : U64} (h : OkRange ok addr len) {n : Nat}
    (hn : n ≤ len.toNat) (w : Bool) : ok ⟨addr, n, w⟩ := by
  have := h 0 n w (by omega)
  rwa [show addr + BitVec.ofNat 64 0 = addr from BitVec.add_zero addr] at this

/-- What `user_ptr_ok` accepts is ok. -/
def Trusts (cur : Nat) (inv : Kernel → Prop) (ok : Access → Prop) : Prop :=
  ∀ k addr len, inv k → userPtrOk (k.proc cur) addr len = true → OkRange ok addr len

variable {m : Machine} {env : Env} {cur : Nat} {inv : Kernel → Prop} {ok : Access → Prop}

/-! ## The process table -/

theorem forall_modify {α : Type} {P : α → Prop} {f : α → α} {l : List α} {i : Nat} (h : ∀ p ∈ l, P p)
    (hf : ∀ p, l[i]? = some p → P p → P (f p)) : ∀ p ∈ l.modify i f, P p := by
  intro q hq
  obtain ⟨j, hj⟩ := List.mem_iff_getElem?.mp hq
  rw [List.getElem?_modify] at hj
  obtain ⟨p, hp, rfl⟩ := Option.map_eq_some_iff.mp hj
  have hP := h p (List.mem_of_getElem? hp)
  split
  · rename_i hij
    exact hf p (hij ▸ hp) hP
  · exact hP

theorem forall_updatePid {P : Process → Prop} {f : Process → Process} {l : List Process} {pid : Nat}
    (h : ∀ p ∈ l, P p) (hf : ∀ p, P p → P (f p)) : ∀ p ∈ updatePid pid f l, P p := by
  induction l with
  | nil => exact h
  | cons p rest ih =>
    obtain ⟨hp, hrest⟩ := List.forall_mem_cons.mp h
    unfold updatePid
    split
    · exact List.forall_mem_cons.mpr ⟨hf p hp, hrest⟩
    · exact List.forall_mem_cons.mpr ⟨hp, ih hrest⟩

theorem updatePid_updatePid {f g : Process → Process} {pid : Nat} {l : List Process}
    (hg : ∀ p, (g p).present = p.present ∧ (g p).pid = p.pid) :
    updatePid pid f (updatePid pid g l) = updatePid pid (f ∘ g) l := by
  induction l with
  | nil => rfl
  | cons p rest ih =>
    by_cases hp : (p.present && decide (p.pid = pid)) = true
    · simp only [updatePid, hp, if_true, (hg p).1, (hg p).2, Function.comp]
    · rw [updatePid, if_neg hp, updatePid, if_neg hp, updatePid, if_neg hp, ih]

/-! ## New processes -/

theorem procCreateUserRegions_cases (cur : Nat) (name : CStr) (rights : Rights) (load : Load) (k : Kernel) :
    procCreateUserRegions cur name rights load k = (k, none) ∨
    ∃ idx p pid, findFree k = some idx ∧ p.pid = k.nextPid ∧ p.rights = rights ∧
      p.login = (k.proc cur).login ∧ (∀ i ∈ pid, i = k.nextPid) ∧
      procCreateUserRegions cur name rights load k =
        ({ k with procs := k.procs.set idx p, nextPid := k.nextPid + 1 }, pid) := by
  unfold procCreateUserRegions
  split
  · exact Or.inl rfl
  rename_i idx hidx
  cases load with
  | rejected => exact Or.inl rfl
  | aborted =>
    refine Or.inr ⟨idx, _, none, hidx, ?_, ?_, ?_, ?_, rfl⟩
    any_goals rfl
    rintro i ⟨⟩
  | loaded umap =>
    refine Or.inr ⟨idx, _, some k.nextPid, hidx, ?_, ?_, ?_, ?_, rfl⟩
    any_goals rfl
    rintro i ⟨⟩
    rfl

/-- The rights of a new process: those of its parent too, once somebody has logged in. -/
def loadRights (k : Kernel) (cur : Nat) : Rights :=
  if (loginResultUser k.auth).isSome then baseRights ||| (k.proc cur).rights else baseRights

theorem execElfCore_cases (cur : Nat) (pname : CStr) (load : Load) (k : Kernel) :
    execElfCore cur pname load k = (k, none) ∨
      execElfCore cur pname load k = procCreateUserRegions cur pname (loadRights k cur) load k := by
  cases load with
  | rejected => exact Or.inl rfl
  | aborted => exact Or.inr rfl
  | loaded umap => exact Or.inr rfl

theorem execEmbeddedArgs_cases (m : Machine) (cur : Nat) (name : CStr) (load : Load) (k : Kernel) :
    execEmbeddedArgs m cur name load k = (k, none) ∨
      execEmbeddedArgs m cur name load k = execElfCore cur name load k := by
  unfold execEmbeddedArgs
  split
  · exact Or.inl rfl
  split
  · exact Or.inr rfl
  · exact Or.inl rfl

theorem execElfCore_new (cur : Nat) (pname : CStr) (load : Load) (k : Kernel) :
    execElfCore cur pname load k = (k, none) ∨
    ∃ idx p pid, findFree k = some idx ∧ p.pid = k.nextPid ∧ p.rights = loadRights k cur ∧
      p.login = (k.proc cur).login ∧ (∀ i ∈ pid, i = k.nextPid) ∧
      execElfCore cur pname load k =
        ({ k with procs := k.procs.set idx p, nextPid := k.nextPid + 1 }, pid) := by
  rcases execElfCore_cases cur pname load k with h | h
  · exact Or.inl h
  · rw [h]
    exact procCreateUserRegions_cases cur pname _ load k

/-- `exec_user_path` runs the loader at most twice. -/
theorem execUserPath_keeps {k : Kernel} {path : CStr} (hk : inv k)
    (hembedded : ∀ k name, inv k → inv (execEmbeddedArgs m cur name env.loadEmbedded k).1)
    (hfile : ∀ k, inv k → inv (execElfCore cur (basename path) env.loadFile k).1) :
    inv (execUserPath m env cur path k).1 := by
  have hfirst : inv (execSysdir m env cur path k).1 := by
    unfold execSysdir
    split
    · exact hembedded k _ hk
    · exact hk
  have hsecond : ∀ k, inv k → inv (execFile env cur path k).1 := by
    intro k hk
    unfold execFile execElfArgs
    repeat' split
    any_goals exact hk
    exact hfile k hk
  unfold execUserPath
  split
  · exact hk
  dsimp only
  split
  · exact hfirst
  · exact hsecond _ hfirst

/-! ## Checks -/

theorem syscallCap_meets {need : Rights} : Meets inv ok (syscallCap cur need) fun _ => True := by
  unfold syscallCap
  exact Meets.read.bind fun k _ => Meets.demand.mono fun _ _ => trivial

/-- The process may make a call that needs this right. -/
def May (p : Process) (need : Rights) : Prop := p.rights = capAll ∨ p.rights &&& need ≠ 0

instance (p : Process) (need : Rights) : Decidable (May p need) := inferInstanceAs (Decidable (_ ∨ _))

theorem syscallCap_run (cur : Nat) (need : Rights) (k : Kernel) :
    syscallCap cur need k = if May (k.proc cur) need then ⟨k, [], .ok ()⟩ else ⟨k, [], .error err⟩ := by
  unfold syscallCap
  rw [read_bind, demand]
  by_cases hmay : May (k.proc cur) need
  · rw [if_pos hmay]
    have hcap : (decide ((k.proc cur).rights = capAll) || decide ((k.proc cur).rights &&& need ≠ 0)) = true := by
      rcases hmay with h | h
      · rw [decide_eq_true h, Bool.true_or]
      · rw [decide_eq_true h, Bool.or_true]
    rw [hcap]
    rfl
  · rw [if_neg hmay]
    obtain ⟨hall, hneed⟩ := not_or.mp hmay
    rw [decide_eq_false hall, decide_eq_false hneed]
    rfl

theorem syscallCap_bind_may {α : Type} {cur : Nat} {need : Rights} {k : Kernel} (h : May (k.proc cur) need)
    (f : Unit → SysM α) : (syscallCap cur need >>= f) k = f () k := by
  have hrun := syscallCap_run cur need k
  rw [if_pos h] at hrun
  rw [bind_of_ok (congrArg Outcome.val hrun), hrun]
  rfl

theorem syscallCap_bind_not {α : Type} {cur : Nat} {need : Rights} {k : Kernel} (h : ¬ May (k.proc cur) need)
    (f : Unit → SysM α) : (syscallCap cur need >>= f) k = ⟨k, [], .error err⟩ := by
  have hrun := syscallCap_run cur need k
  rw [if_neg h] at hrun
  rw [bind_of_error (congrArg Outcome.val hrun), hrun]

theorem checkPtr_meets (ht : Trusts cur inv ok) {addr len : U64} :
    Meets inv ok (checkPtr cur addr len) fun _ => OkRange ok addr len := by
  unfold checkPtr
  exact Meets.read.bind fun k hk => Meets.demand.mono fun _ hok => ht k addr len hk hok

theorem checkPtr_bind_ok {α : Type} {cur : Nat} {k : Kernel} {addr len : U64}
    (h : userPtrOk (k.proc cur) addr len = true) (f : Unit → SysM α) : (checkPtr cur addr len >>= f) k = f () k := by
  have hrun : checkPtr cur addr len k = ⟨k, [], .ok ()⟩ := by
    unfold checkPtr
    rw [read_bind, h]
    rfl
  rw [bind_of_ok (congrArg Outcome.val hrun), hrun]
  rfl

theorem checkPtr_bind_bad {α : Type} {cur : Nat} {k : Kernel} {addr len : U64}
    (h : ¬ userPtrOk (k.proc cur) addr len = true) (f : Unit → SysM α) :
    (checkPtr cur addr len >>= f) k = ⟨k, [], .error err⟩ := by
  have hrun : checkPtr cur addr len k = ⟨k, [], .error err⟩ := by
    unfold checkPtr
    rw [read_bind, Bool.eq_false_iff.mpr h]
    rfl
  rw [bind_of_error (congrArg Outcome.val hrun), hrun]

theorem copyOut_meets (ht : Trusts cur inv ok) {addr : U64} {len : Nat} (hlen : len < 2 ^ 64) :
    Meets inv ok (copyOut cur addr len) fun _ => True := by
  unfold copyOut
  refine (checkPtr_meets ht).bind fun _ hok => Meets.touch ?_
  intro x hx
  rw [List.mem_singleton.mp hx]
  refine hok.start ?_ true
  simp only [BitVec.toNat_ofNat, Nat.mod_eq_of_lt hlen, Nat.le_refl]

theorem storeOpt_meets (ht : Trusts cur inv ok) {addr : U64} {len : Nat} (hlen : len < 2 ^ 64) :
    Meets inv ok (storeOpt cur addr len) fun _ => True := by
  unfold storeOpt
  exact (Meets.when fun _ => copyOut_meets ht hlen).mono fun _ _ => trivial

theorem userStrFrom_ok (ht : Trusts cur inv ok) {k : Kernel} (hk : inv k) (n : Nat) (src : U64) :
    ∀ x ∈ (userStrFrom (k.proc cur) env.mem src n).1, ok x := by
  induction n generalizing src with
  | zero => simp [userStrFrom]
  | succ n ih =>
    unfold userStrFrom
    by_cases hptr : userPtrOk (k.proc cur) src 1 = true
    · have hbyte : ok ⟨src, 1, false⟩ := (ht k src 1 hk hptr).start (by decide) false
      simp only [hptr, Bool.not_true, Bool.false_eq_true, if_false]
      split
      · simpa using hbyte
      split
      · simpa using hbyte
      · intro x hx
        rcases List.mem_cons.mp hx with rfl | hx
        · exact hbyte
        · exact ih (src + 1) x hx
    · simp only [hptr]
      rintro x ⟨⟩

/-- The string that `user_str` reads. -/
def strArg (env : Env) (k : Kernel) (cur : Nat) (src : U64) (dstMax : Nat) : Option CStr :=
  if src = 0 then none else (userStrFrom (k.proc cur) env.mem src dstMax).2

theorem userStrFrom_length (p : Process) (mem : U64 → UInt8) (n : Nat) (src : U64) :
    ∀ s ∈ (userStrFrom p mem src n).2, s.length < n := by
  induction n generalizing src with
  | zero => simp [userStrFrom]
  | succ n ih =>
    unfold userStrFrom
    split
    · simp
    split
    · simp
    split
    · simp
    · intro s hs
      obtain ⟨rest, hrest, rfl⟩ := Option.map_eq_some_iff.mp hs
      exact Nat.succ_lt_succ (ih (src + 1) rest hrest)

theorem strArg_length {k : Kernel} {src : U64} {dstMax : Nat} {s : CStr}
    (h : strArg env k cur src dstMax = some s) : s.length < dstMax := by
  unfold strArg at h
  split at h
  · simp at h
  · exact userStrFrom_length (k.proc cur) env.mem dstMax src s h

theorem userStr_meets (ht : Trusts cur inv ok) {src : U64} {dstMax : Nat} :
    Meets inv ok (userStr env cur src dstMax) fun s => ∃ k, inv k ∧ strArg env k cur src dstMax = some s := by
  unfold userStr
  refine Meets.demand.bind fun _ hsrc => Meets.read.bind fun k hk => ?_
  refine (Meets.touch (userStrFrom_ok ht hk dstMax src)).bind fun _ _ => ?_
  split
  · rename_i s hs
    exact Meets.pure ⟨k, hk, by rw [strArg, if_neg (of_decide_eq_true hsrc), hs]⟩
  · exact Meets.stop

theorem discard_meets {α : Type} {c : SysM α} {post : α → Prop} (h : Meets inv ok c post) :
    Meets inv ok (discard c) fun _ => True := by
  exact h.bind fun _ _ => Meets.pure trivial

/-! ## Console and processes -/

theorem sysWrite_meets (ht : Trusts cur inv ok) (a2 a3 : U64) :
    Meets inv ok (sysWrite cur a2 a3) fun _ => True := by
  unfold sysWrite
  refine (checkPtr_meets ht).bind fun _ hok => ?_
  refine (Meets.touch ?_).bind fun _ _ => Meets.pure trivial
  intro x hx
  rw [List.mem_singleton.mp hx]
  exact hok.start (Nat.le_refl _) false

theorem sysYield_meets (hi : Tame cur inv) : Meets inv ok (sysYield cur) fun _ => True := by
  unfold sysYield
  refine Meets.read.bind fun k _ => ?_
  exact (Meets.when fun _ => Meets.change hi.gc).bind fun _ _ => Meets.pure trivial

theorem sysWaitpid_meets (hi : Tame cur inv) (a1 : U64) :
    Meets inv ok (sysWaitpid cur a1) fun _ => True := by
  unfold sysWaitpid
  refine Meets.demand.bind fun _ _ => Meets.read.bind fun k _ => ?_
  dsimp only
  split
  · exact Meets.stop
  refine Meets.demand.bind fun _ _ => Meets.ite (fun _ => ?_) fun _ => Meets.ite (fun _ => Meets.stop) fun _ => ?_
  · exact (Meets.change hi.waited).bind fun _ _ => Meets.demand.bind fun _ _ => Meets.pure trivial
  · exact (Meets.change hi.block).bind fun _ _ => Meets.pure trivial

/-- The pointers of `argv`, checked as one block. -/
theorem execArgs_meets (ht : Trusts cur inv ok) (a3 : U64) (n i : Nat)
    (hblock : ∀ j, j < i + n → ok ⟨a3 + BitVec.ofNat 64 (8 * j), 8, false⟩) :
    Meets inv ok (execArgs env cur a3 i n) fun _ => True := by
  induction n generalizing i with
  | zero => exact Meets.pure trivial
  | succ n ih =>
    unfold execArgs
    refine (Meets.touch ?_).bind fun _ _ => ?_
    · intro x hx
      rw [List.mem_singleton.mp hx]
      exact hblock i (by omega)
    · refine (Meets.when fun _ => discard_meets (userStr_meets ht)).bind fun _ _ => ?_
      exact ih (i + 1) fun j hj => hblock j (by omega)

theorem sysExit_meets (a1 : U64) (h : ∀ k code, inv k → inv (procExit cur code k)) :
    Meets inv ok (sysExit cur a1) fun _ => True := by
  unfold sysExit
  exact (Meets.change fun k hk => h k _ hk).bind fun _ _ => Meets.pure trivial

theorem execArgc_le (a2 : U64) : execArgc a2 ≤ 16 := by
  unfold execArgc
  omega

theorem sysExec_meets (ht : Trusts cur inv ok) (a1 a2 a3 : U64)
    (h : ∀ k path, inv k → inv (execUserPath m env cur path k).1) :
    Meets inv ok (sysExec m env cur a1 a2 a3) fun _ => True := by
  unfold sysExec
  refine Meets.demand.bind fun _ _ => syscallCap_meets.bind fun _ _ => (userStr_meets ht).bind fun path _ => ?_
  refine (Meets.when fun _ => ?_).bind fun _ (_ : _ → True) => Meets.read.bind fun k _ => ?_
  · refine (checkPtr_meets ht).bind fun _ hok => execArgs_meets ht a3 _ 0 fun j hj => hok _ 8 false ?_
    have hargc := execArgc_le a2
    rw [BitVec.toNat_ofNat, Nat.mod_eq_of_lt (by omega)]
    omega
  · refine (Meets.change fun k hk => h k path hk).bind fun _ _ => ?_
    split
    · exact Meets.pure trivial
    · exact Meets.stop

/-! ## Messages -/

theorem sysSvcRegister_meets (hi : Tame cur inv) (ht : Trusts cur inv ok) (a1 : U64) :
    Meets inv ok (sysSvcRegister env cur a1) fun _ => True := by
  unfold sysSvcRegister
  refine syscallCap_meets.bind fun _ _ => (userStr_meets ht).bind fun name ⟨_, _, hname⟩ => ?_
  refine Meets.read.bind fun k hk => ?_
  split
  · exact Meets.stop
  · next t ht =>
    have hmove : SvcMove k t := Or.inl ⟨name, _, strArg_length hname, ht⟩
    exact (Meets.change fun k' hk' => hi.svcTable k' k t hk' hk hmove).bind fun _ _ => Meets.pure trivial

theorem sysSvcQuery_meets (hi : Tame cur inv) (ht : Trusts cur inv ok) (a1 a2 : U64) :
    Meets inv ok (sysSvcQuery env cur a1 a2) fun _ => True := by
  unfold sysSvcQuery
  refine Meets.demand.bind fun _ _ => (userStr_meets ht).bind fun name _ => ?_
  refine Meets.read.bind fun k hk => ?_
  refine (Meets.change fun k' hk' => hi.svcTable k' k _ hk' hk (Or.inr ⟨name, rfl⟩)).bind fun _ _ => ?_
  split
  · exact Meets.stop
  · exact (storeOpt_meets ht (by decide)).bind fun _ _ => Meets.pure trivial

theorem readKey_meets (hi : Tame cur inv) : Meets inv ok (readKey env cur) fun _ => True := by
  unfold readKey
  refine Meets.read.bind fun k hk => ?_
  refine (Meets.change fun k' hk' => hi.svcTable k' k _ hk' hk (Or.inr ⟨kbdName, rfl⟩)).bind fun _ _ => ?_
  split
  · exact Meets.pure trivial
  refine Meets.read.bind fun k _ => ?_
  split
  · exact Meets.pure trivial
  refine (Meets.change fun k hk => hi.wakeup _ _ (hi.mailboxes k _ hk)).bind fun _ _ => ?_
  refine Meets.read.bind fun k _ => (Meets.change fun k hk => hi.mailboxes k _ hk).bind fun _ _ => ?_
  exact Meets.pure trivial

theorem sysRead_meets (hi : Tame cur inv) (ht : Trusts cur inv ok) (a1 a2 : U64) :
    Meets inv ok (sysRead env cur a1 a2) fun _ => True := by
  unfold sysRead
  refine (readKey_meets hi).bind fun c _ => Meets.ite (fun _ => Meets.pure trivial) fun _ => ?_
  exact (Meets.when fun _ => copyOut_meets ht (by decide)).bind fun _ _ => Meets.pure trivial

theorem minSize_le_self (a : U64) {n : Nat} (hn : n < 2 ^ 64) : (minSize a n).toNat ≤ a.toNat := by
  unfold minSize
  split
  · rw [BitVec.toNat_ofNat, Nat.mod_eq_of_lt hn]
    omega
  · exact Nat.le_refl _

theorem toNat_pos {a : U64} (h : a ≠ 0) : 0 < a.toNat := by
  rcases Nat.eq_zero_or_pos a.toNat with h0 | hpos
  · exact absurd (BitVec.eq_of_toNat_eq h0) h
  · exact hpos

theorem kernelSend_meets (hi : Tame cur inv) {dst type : Nat} {addr size : U64}
    (hok : ∀ n, 0 < n → n ≤ size.toNat → ok ⟨addr, n, false⟩) :
    Meets inv ok (kernelSend env cur dst type addr size) fun _ => True := by
  unfold kernelSend
  refine Meets.read.bind fun k _ => ?_
  dsimp only
  split
  · exact Meets.pure trivial
  refine (Meets.when fun hn => Meets.touch ?_).bind fun _ _ => ?_
  · intro x hx
    rw [List.mem_singleton.mp hx]
    exact hok _ (toNat_pos hn) (minSize_le_self size (by decide))
  · exact (Meets.change fun k hk => hi.wakeup _ _ (hi.mailboxes k _ hk)).bind fun _ _ => Meets.pure trivial

theorem copied_le (msg : Message) (max : U64) :
    (if msg.payload.length > max.toNat then max else BitVec.ofNat 64 msg.payload.length).toNat ≤
      max.toNat := by
  split
  · exact Nat.le_refl _
  · rw [BitVec.toNat_ofNat]
    have := Nat.mod_le msg.payload.length (2 ^ 64)
    omega

theorem kernelReceive_meets (hi : Tame cur inv) {addr max : U64}
    (hok : ∀ n, 0 < n → n ≤ max.toNat → ok ⟨addr, n, true⟩) :
    Meets inv ok (kernelReceive cur addr max) fun _ => True := by
  unfold kernelReceive
  refine Meets.read.bind fun k _ => (Meets.change fun k hk => hi.mailboxes k _ hk).bind fun _ _ => ?_
  split
  · exact Meets.pure trivial
  dsimp only
  refine (Meets.when fun hn => Meets.touch ?_).bind fun _ _ => Meets.pure trivial
  intro x hx
  rw [List.mem_singleton.mp hx]
  exact hok _ (toNat_pos hn) (copied_le _ max)

theorem sysIpcSend_meets (hi : Tame cur inv) (ht : Trusts cur inv ok) (a1 a2 : U64) {a3 a4 : U64}
    (hnull : a3 = 0 → ∀ n, 0 < n → n ≤ a4.toNat → ok ⟨a3, n, false⟩) :
    Meets inv ok (sysIpcSend env cur a1 a2 a3 a4) fun _ => True := by
  unfold sysIpcSend
  refine syscallCap_meets.bind fun _ _ => (Meets.when fun _ => checkPtr_meets ht).bind fun _ hok => ?_
  refine kernelSend_meets hi fun n hpos hn => ?_
  by_cases h3 : a3 = 0
  · exact hnull h3 n hpos hn
  · refine (hok ⟨h3, ?_⟩).start hn false
    rintro rfl
    exact absurd hn (Nat.not_le.mpr hpos)

theorem sysIpcRecv_meets (hi : Tame cur inv) (ht : Trusts cur inv ok) (a3 a4 : U64) {a1 a2 : U64}
    (hnull : a1 = 0 → ∀ n, 0 < n → n ≤ a2.toNat → ok ⟨a1, n, true⟩) :
    Meets inv ok (sysIpcRecv cur a1 a2 a3 a4) fun _ => True := by
  unfold sysIpcRecv
  refine syscallCap_meets.bind fun _ _ => (Meets.when fun _ => checkPtr_meets ht).bind fun _ hok => ?_
  refine (kernelReceive_meets hi fun n hpos hn => ?_).bind fun got _ => ?_
  · by_cases h1 : a1 = 0
    · exact hnull h1 n hpos hn
    · exact (hok h1).start hn true
  · refine (storeOpt_meets ht (by decide)).bind fun _ _ => (storeOpt_meets ht (by decide)).bind fun _ _ => ?_
    split
    · exact Meets.pure trivial
    · exact Meets.stop

/-! ## Files -/

theorem sysFsWrite_meets (hi : Tame cur inv) (ht : Trusts cur inv ok) (a1 a2 a3 : U64) :
    Meets inv ok (sysFsWrite env cur a1 a2 a3) fun _ => True := by
  unfold sysFsWrite
  refine syscallCap_meets.bind fun _ _ => (userStr_meets ht).bind fun path _ => ?_
  refine (checkPtr_meets ht).bind fun _ hok => Meets.read.bind fun k _ => ?_
  refine (Meets.when fun _ => Meets.touch ?_).bind fun _ _ => ?_
  · intro x hx
    rw [List.mem_singleton.mp hx]
    exact hok.start (Nat.le_refl _) false
  · exact (Meets.change fun k hk => hi.nodes k _ hk).bind fun _ _ =>
      Meets.demand.bind fun _ _ => Meets.pure trivial

theorem sysFsList_meets (ht : Trusts cur inv ok) (a1 a2 a3 : U64) :
    Meets inv ok (sysFsList env cur a1 a2 a3) fun _ => True := by
  unfold sysFsList
  refine syscallCap_meets.bind fun _ _ => (userStr_meets ht).bind fun path _ => ?_
  refine Meets.read.bind fun k _ => Meets.demand.bind fun _ _ => ?_
  refine (Meets.when fun _ => copyOut_meets ht ?_).bind fun _ _ => Meets.pure trivial
  exact BitVec.isLt _

theorem sysFsCreate_meets (hi : Tame cur inv) (ht : Trusts cur inv ok) (a1 a2 : U64) :
    Meets inv ok (sysFsCreate env cur a1 a2) fun _ => True := by
  unfold sysFsCreate
  refine syscallCap_meets.bind fun _ _ => (userStr_meets ht).bind fun path _ => ?_
  refine Meets.read.bind fun k _ => ?_
  split
  · exact Meets.stop
  · exact (Meets.change fun k hk => hi.nodes k _ hk).bind fun _ _ => Meets.pure trivial

theorem sysFsRemove_meets (hi : Tame cur inv) (ht : Trusts cur inv ok) (a1 : U64) :
    Meets inv ok (sysFsRemove env cur a1) fun _ => True := by
  unfold sysFsRemove
  refine syscallCap_meets.bind fun _ _ => (userStr_meets ht).bind fun path _ => ?_
  refine Meets.read.bind fun k _ => ?_
  split
  · exact Meets.stop
  · exact (Meets.change fun k hk => hi.nodes k _ hk).bind fun _ _ => Meets.pure trivial

theorem appendSpans_le {max used : Nat} {l : List CStr} :
    ∀ x ∈ appendSpans max used l, x.1 + x.2 ≤ max := by
  induction l generalizing used with
  | nil => simp [appendSpans]
  | cons s rest ih =>
    unfold appendSpans
    split
    · rename_i hfit
      intro x hx
      rcases List.mem_cons.mp hx with rfl | hx
      · exact Nat.le_of_lt hfit
      · exact ih x hx
    · exact ih

theorem kernelRead_meets (path : CStr) {addr max : U64} (hbuf : OkRange ok addr max)
    (hnul : ∀ k norm, inv k → vfsPath (policy cur k) root path capFsRead = some norm → vfsIsPseudo norm = true →
      ok ⟨addr, 1, true⟩) :
    Meets inv ok (kernelRead env cur path addr max) fun _ => True := by
  unfold kernelRead
  refine Meets.read.bind fun k hk => ?_
  split
  · exact Meets.stop
  rename_i norm hpath
  refine Meets.ite (fun hpseudo => ?_) fun _ => ?_
  · refine (Meets.touch ?_).bind fun _ _ => Meets.demand.bind fun _ _ => Meets.pure trivial
    intro x hx
    obtain ⟨s, hs, rfl⟩ := List.mem_map.mp hx
    have hzero : ok ⟨addr + BitVec.ofNat 64 0, 1, true⟩ := by
      rw [show addr + BitVec.ofNat 64 0 = addr from BitVec.add_zero addr]
      exact hnul k norm hk hpath hpseudo
    unfold vfsPseudoRead at hs
    split at hs
    · rcases List.mem_cons.mp hs with rfl | hs
      · exact hzero
      · exact hbuf _ _ true (appendSpans_le s hs)
    · have hs' : s = (0, 1) := by simpa using hs
      rw [hs']
      exact hzero
  · split
    · exact Meets.stop
    rename_i data hdata
    refine (Meets.when fun _ => Meets.touch ?_).bind fun _ _ => Meets.pure trivial
    intro x hx
    rw [List.mem_singleton.mp hx]
    have hlen : data.length ≤ max.toNat := by
      unfold fsRead at hdata
      split at hdata
      · cases hdata
      split at hdata
      · cases hdata
      · rw [← Option.some.inj hdata, List.length_take]
        exact Nat.min_le_left _ _
    exact hbuf.start hlen true

theorem sysFsRead_meets (ht : Trusts cur inv ok) (a1 a2 a3 : U64)
    (hnul : a3 = 0 → ∀ k k' path norm, inv k → inv k' → strArg env k cur a1 fsNameMax = some path →
      vfsPath (policy cur k') root path capFsRead = some norm → vfsIsPseudo norm = true → ok ⟨a2, 1, true⟩) :
    Meets inv ok (sysFsRead env cur a1 a2 a3) fun _ => True := by
  unfold sysFsRead
  refine syscallCap_meets.bind fun _ _ => (userStr_meets ht).bind fun path ⟨k, hk, hpath⟩ => ?_
  refine (checkPtr_meets ht).bind fun _ hok => kernelRead_meets path hok fun k' norm hk' hnorm hpseudo => ?_
  by_cases h3 : a3 = 0
  · exact hnul h3 k k' path norm hk hk' hpath hnorm hpseudo
  · exact hok.start (toNat_pos h3) true

/-! ## Information -/

theorem sysSysinfo_meets (ht : Trusts cur inv ok) (a1 : U64) :
    Meets inv ok (sysSysinfo cur a1) fun _ => True := by
  unfold sysSysinfo
  exact Meets.demand.bind fun _ _ => (copyOut_meets ht (by decide)).bind fun _ _ => Meets.pure trivial

theorem procListMax_le (a2 : U64) : procListMax a2 ≤ 64 := by
  unfold procListMax
  simp only
  split
  · exact Nat.le_refl _
  · omega

theorem sysProcList_meets (ht : Trusts cur inv ok) (a1 a2 : U64) :
    Meets inv ok (sysProcList cur a1 a2) fun _ => True := by
  unfold sysProcList
  refine Meets.read.bind fun k _ => (copyOut_meets ht ?_).bind fun _ _ => Meets.pure trivial
  have hmax := procListMax_le a2
  have hlen := List.length_take_le (procListMax a2) (k.procs.filter (·.present))
  unfold sizeofProcInfo
  omega

theorem sysAuthList_meets (ht : Trusts cur inv ok) (a1 a2 : U64) :
    Meets inv ok (sysAuthList cur a1 a2) fun _ => True := by
  unfold sysAuthList
  refine Meets.demand.bind fun _ _ => Meets.read.bind fun k _ => ?_
  refine (copyOut_meets ht ?_).bind fun _ _ => Meets.pure trivial
  have := (minSize a2 4096).isLt
  omega

theorem sysContractList_meets (ht : Trusts cur inv ok) (a1 a2 : U64) :
    Meets inv ok (sysContractList cur a1 a2) fun _ => True := by
  unfold sysContractList
  refine Meets.demand.bind fun _ _ => Meets.read.bind fun k _ => ?_
  refine (copyOut_meets ht ?_).bind fun _ _ => Meets.pure trivial
  have := (minSize a2 4096).isLt
  omega

theorem sysAuthHash_meets (ht : Trusts cur inv ok) (a1 a2 a3 : U64) :
    Meets inv ok (sysAuthHash env cur a1 a2 a3) fun _ => True := by
  unfold sysAuthHash
  refine syscallCap_meets.bind fun _ _ => (userStr_meets ht).bind fun _ _ => ?_
  refine (userStr_meets ht).bind fun _ _ => Meets.demand.bind fun _ _ => ?_
  exact (copyOut_meets ht (by decide)).bind fun _ _ => Meets.pure trivial

/-! ## Accounts -/

/-- The operation leaves the tickets alone. -/
def KeepsTickets (r : Auth → Option Auth) : Prop := ∀ a a', r a = some a' → a'.tickets = a.tickets

theorem authResult_meets (hi : Tame cur inv) {r : Auth → Option Auth} (hr : KeepsTickets r) :
    Meets inv ok (authResult r) fun _ => True := by
  intro k hk
  unfold authResult
  rw [bind_of_ok rfl]
  cases hauth : r k.auth with
  | none => exact ⟨by rintro x ⟨⟩, hk, fun _ _ => trivial⟩
  | some auth => exact ⟨by rintro x ⟨⟩, hi.accounts k auth (hr _ _ hauth) hk, fun _ _ => trivial⟩

theorem authCreateUser_tickets (pbkdf2 : List UInt8 → List UInt8 → List UInt8) (name pass salt : CStr)
    (caps : Rights) (admin : Bool) : KeepsTickets (authCreateUser pbkdf2 · name pass caps admin salt) := by
  intro a a' h
  simp only [authCreateUser] at h
  split at h
  · cases h
  split at h
  · cases h
  · rw [← Option.some.inj h]

theorem authUserDelete_tickets (name : CStr) : KeepsTickets (authUserDelete · name) := by
  intro a a' h
  obtain ⟨i, -, rfl⟩ := Option.map_eq_some_iff.mp h
  rfl

theorem authChangePassword_tickets (pbkdf2 : List UInt8 → List UInt8 → List UInt8)
    (name oldp newp salt : CStr) : KeepsTickets (authChangePassword pbkdf2 · name oldp newp salt) := by
  intro a a' h
  simp only [authChangePassword] at h
  split at h
  · cases h
  split at h
  · rw [← Option.some.inj h]
    rfl
  · cases h

theorem authChangePasswordAdmin_tickets (pbkdf2 : List UInt8 → List UInt8 → List UInt8)
    (name newp salt : CStr) : KeepsTickets (authChangePasswordAdmin pbkdf2 · name newp salt) := by
  intro a a' h
  obtain ⟨i, -, rfl⟩ := Option.map_eq_some_iff.mp h
  rfl

theorem sysAuthCreate_meets (hi : Tame cur inv) (ht : Trusts cur inv ok) (a1 a2 : U64) :
    Meets inv ok (sysAuthCreate m env cur a1 a2) fun _ => True := by
  unfold sysAuthCreate
  refine Meets.read.bind fun k _ => Meets.demand.bind fun _ _ => (userStr_meets ht).bind fun name _ => ?_
  refine (userStr_meets ht).bind fun pass _ => Meets.demand.bind fun _ _ => ?_
  exact authResult_meets hi (authCreateUser_tickets _ _ _ _ _ _)

theorem sysAuthVerify_meets (hi : Tame cur inv) (ht : Trusts cur inv ok) (a1 a2 : U64) :
    Meets inv ok (sysAuthVerify m env cur a1 a2) fun _ => True := by
  unfold sysAuthVerify
  refine (userStr_meets ht).bind fun name _ => (userStr_meets ht).bind fun pass _ => ?_
  refine Meets.read.bind fun k _ => Meets.ite (fun _ => ?_) fun _ => Meets.pure trivial
  exact (Meets.change fun k hk => hi.verified k _ hk).bind fun _ _ => Meets.pure trivial

theorem sysAuthDelete_meets (hi : Tame cur inv) (ht : Trusts cur inv ok) (a1 : U64) :
    Meets inv ok (sysAuthDelete env cur a1) fun _ => True := by
  unfold sysAuthDelete
  refine syscallCap_meets.bind fun _ _ => (userStr_meets ht).bind fun name _ => Meets.read.bind fun k _ => ?_
  split
  · exact Meets.pure trivial
  · refine Meets.demand.bind fun _ _ => Meets.demand.bind fun _ _ => ?_
    exact authResult_meets hi (authUserDelete_tickets _)

theorem sysAuthChangepw_meets (hi : Tame cur inv) (ht : Trusts cur inv ok) (a1 a2 a3 : U64) :
    Meets inv ok (sysAuthChangepw m env cur a1 a2 a3) fun _ => True := by
  unfold sysAuthChangepw
  refine (userStr_meets ht).bind fun name _ => (userStr_meets ht).bind fun oldp _ => ?_
  refine (userStr_meets ht).bind fun newp _ => Meets.demand.bind fun _ _ => Meets.read.bind fun k _ => ?_
  split
  · exact Meets.pure trivial
  refine Meets.ite (fun _ => ?_) fun _ => Meets.demand.bind fun _ _ => ?_
  · exact authResult_meets hi (authChangePassword_tickets _ _ _ _ _)
  · exact authResult_meets hi (authChangePasswordAdmin_tickets _ _ _ _)

theorem sysAuthCreateUser_meets (hi : Tame cur inv) (ht : Trusts cur inv ok) (a1 a2 : U64) :
    Meets inv ok (sysAuthCreateUser m env cur a1 a2) fun _ => True := by
  unfold sysAuthCreateUser
  refine syscallCap_meets.bind fun _ _ => (userStr_meets ht).bind fun name _ => ?_
  refine (userStr_meets ht).bind fun pass _ => Meets.demand.bind fun _ _ => Meets.read.bind fun k _ => ?_
  exact Meets.demand.bind fun _ _ => authResult_meets hi (authCreateUser_tickets _ _ _ _ _ _)

theorem userStr_run_none {k : Kernel} {src : U64} {dstMax : Nat} (h : strArg env k cur src dstMax = none) :
    (userStr env cur src dstMax k).state = k ∧ (userStr env cur src dstMax k).val = .error err := by
  unfold strArg at h
  unfold userStr
  by_cases h0 : src = 0
  · rw [demand_bind_false (decide_eq_false (not_not_intro h0))]
    exact ⟨rfl, rfl⟩
  · rw [if_neg h0] at h
    rw [demand_bind_true (decide_eq_true h0), read_bind, touch_bind, h]
    exact ⟨rfl, rfl⟩

theorem userStr_run_some {k : Kernel} {src : U64} {dstMax : Nat} {s : CStr}
    (h : strArg env k cur src dstMax = some s) :
    (userStr env cur src dstMax k).state = k ∧ (userStr env cur src dstMax k).val = .ok s := by
  unfold strArg at h
  unfold userStr
  by_cases h0 : src = 0
  · simp [h0] at h
  · rw [if_neg h0] at h
    rw [demand_bind_true (decide_eq_true h0), read_bind, touch_bind, h]
    exact ⟨rfl, rfl⟩

theorem userStrFrom_reads (p : Process) (mem : U64 → UInt8) (n : Nat) (src : U64) :
    ∀ x ∈ (userStrFrom p mem src n).1, x.write = false := by
  induction n generalizing src with
  | zero => simp [userStrFrom]
  | succ n ih =>
    unfold userStrFrom
    split
    · simp
    split
    · simp
    split
    · simp
    · simpa using ih (src + 1)

theorem userStr_reads (env : Env) (cur : Nat) (src : U64) (dstMax : Nat) (k : Kernel) :
    ∀ x ∈ (userStr env cur src dstMax k).trace, x.write = false := by
  unfold userStr
  by_cases h0 : src = 0
  · rw [demand_bind_false (decide_eq_false (not_not_intro h0))]
    simp
  · rw [demand_bind_true (decide_eq_true h0), read_bind, touch_bind]
    have hreads := userStrFrom_reads (k.proc cur) env.mem dstMax src
    cases (userStrFrom (k.proc cur) env.mem src dstMax).2 with
    | none => simpa [Call.stop] using hreads
    | some s => simpa [pure_apply] using hreads

theorem userStr_bind_none {α : Type} {k : Kernel} {src : U64} {dstMax : Nat}
    (h : strArg env k cur src dstMax = none) (f : CStr → SysM α) :
    ((userStr env cur src dstMax >>= f) k).state = k ∧ ((userStr env cur src dstMax >>= f) k).val = .error err := by
  have hrun := userStr_run_none h
  rw [bind_of_error hrun.2]
  exact ⟨hrun.1, rfl⟩

theorem userStr_bind_some {α : Type} {k : Kernel} {src : U64} {dstMax : Nat} {s : CStr}
    (h : strArg env k cur src dstMax = some s) (f : CStr → SysM α) :
    ((userStr env cur src dstMax >>= f) k).state = (f s k).state ∧
      ((userStr env cur src dstMax >>= f) k).val = (f s k).val ∧
      ∀ t ∈ (f s k).trace, t ∈ ((userStr env cur src dstMax >>= f) k).trace := by
  have hrun := userStr_run_some h
  rw [bind_of_ok hrun.2, hrun.1]
  exact ⟨rfl, rfl, fun t ht => List.mem_append_right _ ht⟩

/-- The login of a process that has the account's capabilities. -/
def logIn (cur : Nat) (auth : Auth) (user : UserRef) (caps : Rights) (k : Kernel) : Kernel :=
  Kernel.setProc { k with synallagma := consentAll k.synallagma, auth := loginSetUser auth (some user) }
    cur fun p => { p with rights := p.rights ||| caps, login := some caps }

theorem sysSessionLogin_state (env : Env) (cur : Nat) (a1 a2 a3 : U64) (k : Kernel) :
    (sysSessionLogin env cur a1 a2 a3 k).state =
      match (strArg env k cur a1 authNameMax).bind (loginAccount · a3 k.auth) with
      | none => k
      | some (auth, user, caps) => if a2 = 0 then { k with auth } else logIn cur auth user caps k := by
  unfold sysSessionLogin
  cases hname : strArg env k cur a1 authNameMax with
  | none => exact (userStr_bind_none hname _).1
  | some name =>
    rw [(userStr_bind_some hname _).1, read_bind, Option.bind_some]
    cases hacc : loginAccount name a3 k.auth with
    | none => rfl
    | some r =>
      obtain ⟨auth, user, caps⟩ := r
      simp only [change_bind]
      by_cases h2 : a2 = 0
      · rw [demand_bind_false (decide_eq_false (not_not_intro h2)), if_pos h2]
      · rw [demand_bind_true (decide_eq_true h2), if_neg h2]
        rfl

theorem sysSessionLogin_cases (env : Env) (cur : Nat) (a1 a2 a3 : U64) (k : Kernel) :
    (sysSessionLogin env cur a1 a2 a3 k).state = k ∨
    ∃ name auth user caps, strArg env k cur a1 authNameMax = some name ∧
      loginAccount name a3 k.auth = some (auth, user, caps) ∧
      ((a2 = 0 ∧ (sysSessionLogin env cur a1 a2 a3 k).state = { k with auth }) ∨
        (a2 ≠ 0 ∧ (sysSessionLogin env cur a1 a2 a3 k).state = logIn cur auth user caps k)) := by
  rw [sysSessionLogin_state]
  cases hname : strArg env k cur a1 authNameMax with
  | none => exact Or.inl rfl
  | some name =>
    rw [Option.bind_some]
    cases hacc : loginAccount name a3 k.auth with
    | none => exact Or.inl rfl
    | some r =>
      obtain ⟨auth, user, caps⟩ := r
      refine Or.inr ⟨name, auth, user, caps, rfl, hacc, ?_⟩
      by_cases h2 : a2 = 0
      · exact Or.inl ⟨h2, if_pos h2⟩
      · exact Or.inr ⟨h2, if_neg h2⟩

theorem sysAuthTicketIssue_cases (env : Env) (cur : Nat) (a1 a2 a3 : U64) (k : Kernel) :
    (sysAuthTicketIssue env cur a1 a2 a3 k).state = k ∨
    ∃ name auth, (k.proc cur).rights &&& capUserAdmin ≠ 0 ∧
      authTicketIssue k.auth name a2 env.tok (k.proc cur).rights = some auth ∧
      (sysAuthTicketIssue env cur a1 a2 a3 k).state = { k with auth } := by
  unfold sysAuthTicketIssue
  by_cases hcap : May (k.proc cur) capUserAdmin
  case neg =>
    rw [syscallCap_bind_not hcap]
    exact Or.inl rfl
  rw [syscallCap_bind_may hcap]
  cases hname : strArg env k cur a1 authNameMax with
  | none => exact Or.inl (userStr_bind_none hname _).1
  | some name =>
    rw [(userStr_bind_some hname _).1, read_bind]
    cases hissue : authTicketIssue k.auth name a2 env.tok (k.proc cur).rights with
    | none => exact Or.inl rfl
    | some auth =>
      refine Or.inr ⟨name, auth, ?_, hissue, ?_⟩
      · rcases hcap with hcap | hcap
        · rw [hcap]
          decide
        · exact hcap
      · have ht : Trusts cur (· = { k with auth }) fun _ => True := fun _ _ _ _ _ _ _ _ _ => trivial
        have hmeets : Meets (· = { k with auth }) (fun _ => True)
            (storeOpt cur a3 8 >>= fun _ => (pure 0 : SysM U64)) fun _ => True :=
          (storeOpt_meets ht (by decide)).bind fun _ _ => Meets.pure trivial
        exact (hmeets _ rfl).2.1

theorem sysAuthTicketIssue_meets (ht : Trusts cur inv ok) (a1 a2 a3 : U64)
    (h : ∀ k auth, inv k → inv { k with auth }) :
    Meets inv ok (sysAuthTicketIssue env cur a1 a2 a3) fun _ => True := by
  unfold sysAuthTicketIssue
  refine syscallCap_meets.bind fun _ _ => (userStr_meets ht).bind fun name _ => Meets.read.bind fun k _ => ?_
  split
  · exact Meets.stop
  · refine (Meets.change fun k hk => h k _ hk).bind fun _ _ => ?_
    exact (storeOpt_meets ht (by decide)).bind fun _ _ => Meets.pure trivial

theorem sysSessionLogin_meets (ht : Trusts cur inv ok) (a1 a2 a3 : U64)
    (h : ∀ k auth, inv k → inv { k with auth })
    (hlogin : ∀ k synallagma user, inv k → inv { k with synallagma, auth := loginSetUser k.auth user })
    (hproc : ∀ k caps, inv k →
      inv (k.setProc cur fun p => { p with rights := p.rights ||| caps, login := some caps })) :
    Meets inv ok (sysSessionLogin env cur a1 a2 a3) fun _ => True := by
  unfold sysSessionLogin
  refine (userStr_meets ht).bind fun name _ => Meets.read.bind fun k _ => ?_
  split
  · exact Meets.pure trivial
  · refine (Meets.change fun k hk => h k _ hk).bind fun _ _ => Meets.demand.bind fun _ _ => ?_
    refine (Meets.change fun k hk => hlogin k _ _ hk).bind fun _ _ => ?_
    exact (Meets.change fun k hk => hproc k _ hk).bind fun _ _ => Meets.pure trivial

/-! ## Devices -/

theorem sysFbDraw_meets (ht : Trusts cur inv ok) (a1 : U64) :
    Meets inv ok (sysFbDraw env cur a1) fun _ => True := by
  unfold sysFbDraw
  refine syscallCap_meets.bind fun _ _ => Meets.demand.bind fun _ _ => ?_
  refine (checkPtr_meets ht).bind fun _ hok => (Meets.touch ?_).bind fun _ _ => ?_
  · intro x hx
    rw [List.mem_singleton.mp hx]
    exact hok.start (by decide) false
  · refine Meets.demand.bind fun _ _ => ?_
    refine (Meets.when fun _ => discard_meets (userStr_meets ht)).bind fun _ _ => ?_
    exact Meets.demand.bind fun _ _ => Meets.pure trivial

theorem sysIoPort_meets (a1 a2 : U64) : Meets inv ok (sysIoPort env cur a1 a2) fun _ => True := by
  unfold sysIoPort
  refine syscallCap_meets.bind fun _ _ => Meets.demand.bind fun _ _ => ?_
  repeat' apply Meets.ite <;> intro _
  all_goals exact Meets.pure trivial

theorem sysMmap_meets (a1 : U64) (h : ∀ k (u : Process → List Region) (heap : Process → Option Nat), inv k →
      inv (k.setProc cur fun p => { p with umap := u p, umapHeap := heap p })) :
    Meets inv ok (sysMmap env cur a1) fun _ => True := by
  unfold sysMmap
  refine Meets.read.bind fun k _ => ?_
  refine Meets.demand.bind fun _ _ => Meets.demand.bind fun _ _ => ?_
  split
  · refine Meets.demand.bind fun _ _ => Meets.demand.bind fun _ _ => ?_
    exact (Meets.change fun k hk => h k _ _ hk).bind fun _ _ => Meets.pure trivial
  · refine Meets.demand.bind fun _ _ => ?_
    exact (Meets.change fun k hk => h k _ (·.umapHeap) hk).bind fun _ _ => Meets.pure trivial

theorem sysDevMap_meets (a1 a2 : U64) (h : ∀ k (b u : Process → U64), inv k →
      inv (k.setProc cur fun p => { p with devioBase := b p, devioUsed := u p })) :
    Meets inv ok (sysDevMap env cur a1 a2) fun _ => True := by
  unfold sysDevMap
  refine Meets.read.bind fun k _ => Meets.demand.bind fun _ _ => syscallCap_meets.bind fun _ _ => ?_
  refine Meets.demand.bind fun _ _ => ?_
  refine (Meets.change fun k hk => h k _ (·.devioUsed) hk).bind fun _ _ => Meets.read.bind fun k _ => ?_
  refine Meets.demand.bind fun _ _ => ?_
  exact (Meets.change fun k hk => h k (·.devioBase) _ hk).bind fun _ _ => Meets.pure trivial

theorem sysV2p_meets : Meets inv ok (sysV2p env cur) fun _ => True := by
  unfold sysV2p
  refine Meets.read.bind fun k _ => Meets.demand.bind fun _ _ => syscallCap_meets.bind fun _ _ => ?_
  exact Meets.demand.bind fun _ _ => Meets.pure trivial

/-! ## Dispatch -/

/-- The calls that have no rule for every invariant and every pointer. -/
def special : List Nat := [0, 3, 4, 5, 7, 11, 21, 33, 34, 36]

theorem dispatchNr_meets (hi : Tame cur inv) (ht : Trusts cur inv ok) (nr a1 a2 a3 a4 : U64)
    (h : nr.toNat ∈ special → Meets inv ok (dispatchNr m env cur nr a1 a2 a3 a4) fun _ => True) :
    Meets inv ok (dispatchNr m env cur nr a1 a2 a3 a4) fun _ => True := by
  by_cases hs : nr.toNat ∈ special
  · exact h hs
  simp only [special, List.mem_cons, List.not_mem_nil, or_false, not_or] at hs
  unfold dispatchNr
  split
  · omega
  · exact sysWrite_meets ht a2 a3
  · exact sysRead_meets hi ht a1 a2
  · omega
  · omega
  · omega
  · exact sysYield_meets hi
  · omega
  · exact sysFsWrite_meets hi ht a1 a2 a3
  · exact sysFsList_meets ht a1 a2 a3
  · exact Meets.read.bind fun _ _ => Meets.pure trivial
  · omega
  · exact sysSysinfo_meets ht a1
  · exact Meets.pure trivial
  · exact Meets.read.bind fun _ _ => Meets.pure trivial
  · exact sysProcList_meets ht a1 a2
  · exact sysFsCreate_meets hi ht a1 a2
  · exact Meets.read.bind fun _ _ => Meets.pure trivial
  · exact sysAuthCreate_meets hi ht a1 a2
  · exact sysAuthVerify_meets hi ht a1 a2
  · exact sysContractList_meets ht a1 a2
  · omega
  · exact Meets.pure trivial
  · exact sysFsRemove_meets hi ht a1
  · exact sysWaitpid_meets hi a1
  · exact sysSvcRegister_meets hi ht a1
  · exact sysSvcQuery_meets hi ht a1 a2
  · exact sysAuthList_meets ht a1 a2
  · exact sysAuthDelete_meets hi ht a1
  · exact sysAuthChangepw_meets hi ht a1 a2 a3
  · exact sysAuthCreateUser_meets hi ht a1 a2
  · exact sysFbDraw_meets ht a1
  · exact sysIoPort_meets a1 a2
  · omega
  · omega
  · exact sysV2p_meets
  · omega
  · exact sysAuthHash_meets ht a1 a2 a3
  · exact Meets.pure trivial

theorem syscallDispatch_cases (m : Machine) (env : Env) (cur : Nat) (nr a1 a2 a3 a4 : U64) (k : Kernel) :
    (syscallDispatch m env cur nr a1 a2 a3 a4 k).state = k ∨
      (syscallDispatch m env cur nr a1 a2 a3 a4 k).state = (dispatchNr m env cur nr a1 a2 a3 a4 k).state := by
  unfold syscallDispatch
  by_cases hmay : May (k.proc cur) capSyscall
  · rw [syscallCap_bind_may hmay]
    exact Or.inr rfl
  · rw [syscallCap_bind_not hmay]
    exact Or.inl rfl

end Siathos.Syscall
