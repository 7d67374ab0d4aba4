import Siathos.Fsd.Service
import Siathos.Session.Lasting

/-!
# The file service and the policy

Clients reach files through 'fsd', which should serve nobody what `vfs_check_cap` refuses. It looks at no
contract for what it owns, and asks the kernel about the first 63 bytes of a path only.
-/

open Lib Lib.Call Siathos.Nomos Siathos.Fs Siathos.Syscall Siathos.Session

namespace Siathos.Fsd

variable {m : Machine} {env : Env} {k : Kernel} {cur : Nat}

/-! ## Its calls are system calls -/

theorem sysPath_eq (k : Kernel) (cur : Nat) (need : Rights) (path : CStr) :
    sysPath k cur need path =
      if May (k.proc cur) capSyscall ∧ May (k.proc cur) need ∧ path.length < fsNameMax then some path
      else none := by
  unfold sysPath May
  simp [and_assoc]

theorem sysPath_some {need : Rights} {path p : CStr} (h : sysPath k cur need path = some p) :
    p = path ∧ path.length < fsNameMax := by
  rw [sysPath_eq] at h
  split at h
  · next hmay => exact ⟨(Option.some.inj h).symm, hmay.2.2⟩
  · simp at h

section

variable {need : Rights} {a1 : U64} {path : CStr}

/-- A `SYS_FS_*` call begins with the rights and the path that `sysPath` looks at. -/
theorem fileCall_none (hpath : strArg env k cur a1 fsNameMax = some path) (hsys : sysPath k cur need path = none)
    (f : CStr → SysM U64) :
    let c := syscallCap cur capSyscall >>= fun _ => syscallCap cur need >>= fun _ =>
      userStr env cur a1 fsNameMax >>= f
    (c k).state = k ∧ (c k).val = .error err := by
  intro c
  unfold c
  rw [sysPath_eq] at hsys
  by_cases hmay : May (k.proc cur) capSyscall
  case neg =>
    rw [syscallCap_bind_not hmay]
    exact ⟨rfl, rfl⟩
  rw [syscallCap_bind_may hmay]
  by_cases hneed : May (k.proc cur) need
  case neg =>
    rw [syscallCap_bind_not hneed]
    exact ⟨rfl, rfl⟩
  rw [if_pos ⟨hmay, hneed, strArg_length hpath⟩] at hsys
  simp at hsys

theorem fileCall_some (hpath : strArg env k cur a1 fsNameMax = some path) {p : CStr}
    (hsys : sysPath k cur need path = some p) (f : CStr → SysM U64) :
    let c := syscallCap cur capSyscall >>= fun _ => syscallCap cur need >>= fun _ =>
      userStr env cur a1 fsNameMax >>= f
    (c k).state = (f p k).state ∧ (c k).val = (f p k).val := by
  intro c
  unfold c
  rw [sysPath_eq] at hsys
  split at hsys
  · next hmay =>
    obtain rfl := Option.some.inj hsys
    rw [syscallCap_bind_may hmay.1, syscallCap_bind_may hmay.2.1]
    exact ⟨(userStr_bind_some hpath f).1, (userStr_bind_some hpath f).2.1⟩
  · simp at hsys

end

/-- The answer of a call that changes files. -/
def IsAnswer (k : Kernel) (o : Outcome Kernel Access U64 U64) (r : Nodes × Bool) : Prop :=
  o.state = { k with nodes := r.1 } ∧ Outcome.result o = if r.2 then 0 else err

theorem isAnswer_of_val {o : Outcome Kernel Access U64 U64} {r : Nodes × Bool}
    (hstate : o.state = { k with nodes := r.1 }) (hval : o.val = if r.2 then .ok 0 else .error err) :
    IsAnswer k o r := by
  refine ⟨hstate, ?_⟩
  unfold Outcome.result
  rw [hval]
  cases r.2 <;> rfl

section

variable (m : Machine) {a1 : U64} (a2 a3 a4 : U64) {path : CStr}

theorem callCreate_syscall (hpath : strArg env k cur a1 fsNameMax = some path) :
    IsAnswer k (syscallDispatch m env cur 16 a1 a2 a3 a4 k)
      (callCreate k cur (if a2 = 1 then .dir else .file) path) := by
  change IsAnswer k ((syscallCap cur capSyscall >>= fun _ => sysFsCreate env cur a1 a2) k) _
  unfold sysFsCreate callCreate
  cases hsys : sysPath k cur capFsWrite path with
  | none =>
    have hrun := fileCall_none hpath hsys
    exact isAnswer_of_val (hrun _).1 (hrun _).2
  | some p =>
    have hrun := fileCall_some hpath hsys
    rw [Option.bind_some]
    cases hcreate : vfsCreate (policy cur k) k.nodes root p (if a2 = 1 then .dir else .file) with
    | none =>
      refine isAnswer_of_val ((hrun _).1.trans ?_) ((hrun _).2.trans ?_)
      all_goals
        rw [read_bind, hcreate]
        rfl
    | some nodes =>
      refine isAnswer_of_val ((hrun _).1.trans ?_) ((hrun _).2.trans ?_)
      all_goals
        rw [read_bind, hcreate]
        rfl

theorem callRemove_syscall (hpath : strArg env k cur a1 fsNameMax = some path) :
    IsAnswer k (syscallDispatch m env cur 23 a1 a2 a3 a4 k) (callRemove k cur path) := by
  change IsAnswer k ((syscallCap cur capSyscall >>= fun _ => sysFsRemove env cur a1) k) _
  unfold sysFsRemove callRemove
  cases hsys : sysPath k cur capFsWrite path with
  | none =>
    have hrun := fileCall_none hpath hsys
    exact isAnswer_of_val (hrun _).1 (hrun _).2
  | some p =>
    have hrun := fileCall_some hpath hsys
    rw [Option.bind_some]
    cases hremove : vfsRemove (policy cur k) k.nodes root p with
    | none =>
      refine isAnswer_of_val ((hrun _).1.trans ?_) ((hrun _).2.trans ?_)
      all_goals
        rw [read_bind, hremove]
        rfl
    | some nodes =>
      refine isAnswer_of_val ((hrun _).1.trans ?_) ((hrun _).2.trans ?_)
      all_goals
        rw [read_bind, hremove]
        rfl

/-- The data is what the caller has at `a2`. -/
theorem callWrite_syscall (hpath : strArg env k cur a1 fsNameMax = some path)
    (hptr : userPtrOk (k.proc cur) a2 a3 = true) :
    IsAnswer k (syscallDispatch m env cur 8 a1 a2 a3 a4 k)
      (callWrite env k cur path (bytesAt env.mem a2 a3.toNat)) := by
  change IsAnswer k ((syscallCap cur capSyscall >>= fun _ => sysFsWrite env cur a1 a2 a3) k) _
  unfold sysFsWrite callWrite
  cases hsys : sysPath k cur capFsWrite path with
  | none =>
    have hrun := fileCall_none hpath hsys
    exact isAnswer_of_val (hrun _).1 (hrun _).2
  | some p =>
    have hrun := fileCall_some hpath hsys
    dsimp only
    generalize hwrite : vfsWrite env.kmallocOk (policy cur k) k.nodes root p (bytesAt env.mem a2 a3.toNat) = r
    obtain ⟨nodes, ok⟩ := r
    refine isAnswer_of_val ((hrun _).1.trans ?_) ((hrun _).2.trans ?_)
    all_goals
      rw [checkPtr_bind_ok hptr, read_bind]
      dsimp only
      rw [hwrite]
      by_cases htouch : ok = true ∧ a3 ≠ 0
      · rw [when_bind_true htouch, touch_bind]
        cases ok <;> rfl
      · rw [when_bind_false htouch]
        cases ok <;> rfl

theorem length_appendLines (max : Nat) (l : List CStr) (used : CStr) :
    (appendLines max used l).length = (appendSpans max used.length l).foldl (fun n s => n + s.2) used.length := by
  induction l generalizing used with
  | nil => rfl
  | cons x l ih =>
    unfold appendLines appendSpans
    rw [ih]
    split
    · rw [List.length_append, List.foldl_cons]
    · rfl

theorem length_pseudoText (i : SysInfo) (norm : CStr) (max : Nat) :
    (pseudoText i norm max).length = pseudoSize i norm max := length_appendLines max _ []

theorem callRead_syscall (hpath : strArg env k cur a1 fsNameMax = some path)
    (hptr : userPtrOk (k.proc cur) a2 a3 = true) :
    let o := syscallDispatch m env cur 7 a1 a2 a3 a4 k
    o.state = k ∧ Outcome.result o =
      ((callRead env k cur path a3.toNat).map fun data => BitVec.ofNat 64 data.length).getD err := by
  change (((syscallCap cur capSyscall >>= fun _ => sysFsRead env cur a1 a2 a3) k).state = k ∧
    Outcome.result ((syscallCap cur capSyscall >>= fun _ => sysFsRead env cur a1 a2 a3) k) = _)
  unfold sysFsRead callRead Outcome.result
  cases hsys : sysPath k cur capFsRead path with
  | none =>
    have hrun := fileCall_none hpath hsys
    rw [(hrun _).1, (hrun _).2]
    exact ⟨rfl, rfl⟩
  | some p =>
    have hrun := fileCall_some hpath hsys
    rw [(hrun _).1, (hrun _).2, checkPtr_bind_ok hptr, Option.bind_some]
    unfold kernelRead vfsRead
    rw [read_bind]
    cases hnorm : vfsPath (policy cur k) root p capFsRead with
    | none => exact ⟨rfl, rfl⟩
    | some norm =>
      rw [Option.bind_some]
      dsimp only
      by_cases hpseudo : vfsIsPseudo norm = true
      · rw [if_pos hpseudo, if_pos hpseudo, touch_bind, length_pseudoText]
        by_cases hn : pseudoSize (sysinfo env k) norm a3.toNat > 0
        · rw [demand_bind_true (decide_eq_true hn), if_pos hn, Option.map_some, length_pseudoText]
          exact ⟨rfl, rfl⟩
        · rw [demand_bind_false (decide_eq_false hn), if_neg hn]
          exact ⟨rfl, rfl⟩
      · rw [if_neg hpseudo, if_neg hpseudo]
        cases hdata : fsRead k.nodes norm a3.toNat with
        | none => exact ⟨rfl, rfl⟩
        | some data =>
          dsimp only
          by_cases htouch : data.length > 0 ∧ a2 ≠ 0
          · rw [when_bind_true htouch, touch_bind]
            exact ⟨rfl, rfl⟩
          · rw [when_bind_false htouch]
            exact ⟨rfl, rfl⟩

theorem callList_syscall (hpath : strArg env k cur a1 fsNameMax = some path)
    (hptr : userPtrOk (k.proc cur) a2 (minSize (if a3 = 0 then 4096 else a3) 4096) = true) :
    let o := syscallDispatch m env cur 9 a1 a2 a3 a4 k
    o.state = k ∧ Outcome.result o = if (callList k cur path).isSome then 0 else err := by
  change (((syscallCap cur capSyscall >>= fun _ => sysFsList env cur a1 a2 a3) k).state = k ∧
    Outcome.result ((syscallCap cur capSyscall >>= fun _ => sysFsList env cur a1 a2 a3) k) = _)
  unfold sysFsList callList Outcome.result
  cases hsys : sysPath k cur capFsRead path with
  | none =>
    have hrun := fileCall_none hpath hsys
    rw [(hrun _).1, (hrun _).2]
    exact ⟨rfl, rfl⟩
  | some p =>
    have hrun := fileCall_some hpath hsys
    rw [(hrun _).1, (hrun _).2, Option.bind_some, read_bind]
    cases hlist : vfsList (policy cur k) k.nodes root p 4096 with
    | none => exact ⟨rfl, rfl⟩
    | some text =>
      rw [demand_bind_true (c := (some text).isSome) rfl]
      generalize minSize (if a3 = 0 then 4096 else a3) 4096 = bsz at hptr
      by_cases hcopy : a2 ≠ 0 ∧ bsz ≠ 0
      · unfold copyOut
        rw [when_bind_true hcopy]
        have hrun : (checkPtr cur a2 (BitVec.ofNat 64 bsz.toNat) >>= fun _ =>
            Call.touch [(⟨a2, bsz.toNat, true⟩ : Access)]) k = ⟨k, [⟨a2, bsz.toNat, true⟩], .ok ()⟩ := by
          rw [BitVec.ofNat_toNat, BitVec.setWidth_eq]
          exact checkPtr_bind_ok hptr _
        rw [bind_of_ok (congrArg Outcome.val hrun), hrun]
        exact ⟨rfl, rfl⟩
      · rw [when_bind_false hcopy]
        exact ⟨rfl, rfl⟩

end

/-! ## The system with its file service -/

/-- `fsd` is none until `main` has its seed. -/
structure World where
  sys : System
  fsd : Option Service

inductive WorldOp
  | kernel (o : Op)
  | start (env : Env) (cur : Nat)
  | request (env : Env) (cur client type : Nat) (payload : List UInt8)

/-- A request that a process sends to the service. -/
def handle (env : Env) (k : Kernel) (cur client : Nat) (s : Service) (type : Nat) (req : CStr) : Handled :=
  fsdHandler env k cur s (k.proc client).pid type req

namespace World

def boot (nodes : Nodes) (synallagma : Synallagma) : World := ⟨Session.boot nodes synallagma, none⟩

def apply (m : Machine) (w : World) : WorldOp → World
  | .kernel o => { w with sys := Session.apply m w.sys o }
  | .start env cur => { w with fsd := some ⟨fsdStSeed env w.sys.kernel cur, []⟩ }
  | .request env cur client type payload =>
    match w.fsd with
    | none => w
    | some s =>
      let r := handle env w.sys.kernel cur client s type (request payload)
      ⟨{ w.sys with kernel := { w.sys.kernel with nodes := r.2.1 } }, some r.1⟩

def Allowed (w : World) : WorldOp → Prop
  | .kernel o => Session.Allowed w.sys o
  | .start _ cur => Runs (w.sys.kernel.proc cur)
  | .request _ cur client _ _ => Runs (w.sys.kernel.proc cur) ∧ Runs (w.sys.kernel.proc client)

instance (w : World) (o : WorldOp) : Decidable (Allowed w o) := by
  cases o <;> dsimp only [Allowed] <;> infer_instance

abbrev Step (m : Machine) := Exec Allowed (apply m)

end World

/-! ## Rights -/

/-- A ring-3 process has at least the rights that it was made with. -/
def Equipped (p : Process) : Prop := p.isUser = true → Within baseRights p.rights

theorem lasting_equipped : Lasting Equipped where
  fresh _ h _ := h.rights
  absent _ h := h
  sched _ _ _ _ _ h := h
  memory _ _ _ _ _ h := h
  grown p r _ _ h huser := by
    apply (within_iff _ _).mpr
    intro i hi
    rw [BitVec.getLsbD_or, (within_iff _ _).mp (h huser) i hi, Bool.true_or]

theorem equipped_run {m : Machine} {nodes : Nodes} {synallagma : Synallagma} {ops : List WorldOp} {w : World}
    (h : Run (World.Step m) (World.boot nodes synallagma) ops w) : Steady Equipped w.sys.kernel := by
  have hinv : ∀ (w : World) (o : WorldOp) (w' : World),
      Steady Equipped w.sys.kernel → World.Step m w o w' → Steady Equipped w'.sys.kernel := by
    rintro w o w' hw ⟨hallowed, rfl⟩
    cases o with
    | kernel o => exact lasting_equipped.step hw ⟨hallowed, rfl⟩
    | start env cur => exact hw
    | request env cur client type payload =>
      simp only [World.apply]
      split
      · exact hw
      · exact hw
  refine Run.invariant hinv h (steady_boot nodes synallagma ?_ ?_)
  · exact fun huser => absurd huser (by decide)
  · exact fun huser => absurd huser (by decide)

theorem and_ne_zero {r s : Rights} (h : Within r s) (hne : r ≠ 0) : s &&& r ≠ 0 := by
  intro hzero
  refine hne (BitVec.eq_of_getLsbD_eq fun i _ => ?_)
  cases hr : r.getLsbD i with
  | false => simp
  | true =>
    have hbit := congrArg (fun x => x.getLsbD i) hzero
    simp [hr, (within_iff _ _).mp h i hr] at hbit

theorem vfsCheckCap_rights {auth : Auth} {synallagma : Synallagma} {r r' need : Rights} (q : CStr)
    (h : r &&& need ≠ 0) (h' : r' &&& need ≠ 0) :
    vfsCheckCap ⟨auth, synallagma, r⟩ q need = vfsCheckCap ⟨auth, synallagma, r'⟩ q need := by
  unfold vfsCheckCap
  dsimp only
  rw [decide_eq_true h, decide_eq_true h']

/-! ## What the policy lets through -/

/-- The right that the kernel's own call checks. -/
def need (type : Nat) : Rights :=
  if type = ipcTypeRead ∨ type = ipcTypeList then capFsRead else capFsWrite

/-- The path that the client asks for. -/
def requestPath (type : Nat) (req : CStr) : CStr := if type = ipcTypeFsWrite then writePath req else req

/-- The path that the service goes by. -/
def keptPath (type : Nat) (req : CStr) : CStr :=
  if type = ipcTypeRead ∨ type = ipcTypeList then req else shortPath (requestPath type req)

/-- The process's own `SYS_FS_*` call would pass `vfs_check_cap`. -/
def Permitted (k : Kernel) (cur : Nat) (need : Rights) (path : CStr) : Prop :=
  path.length < fsNameMax ∧ (vfsPath (policy cur k) root path need).isSome

instance (k : Kernel) (cur : Nat) (need : Rights) (path : CStr) : Decidable (Permitted k cur need path) :=
  inferInstanceAs (Decidable (_ ∧ _))

def fileTypes : List Nat :=
  [ipcTypeRead, ipcTypeList, ipcTypeFsCreate, ipcTypeFsWrite, ipcTypeFsRemove, ipcTypeFsMkdir]

/-- The client gets data, or is told that it was done. -/
def Reply.granted : Reply → Bool
  | .data _ => true
  | .flag ok => ok
  | .refused _ => false
  | .text _ => false

/-- A client gets from the service only what it may do itself. -/
def Mediated (env : Env) (k : Kernel) (cur client : Nat) (s : Service) (type : Nat) (req : CStr) : Prop :=
  type ∈ fileTypes → (handle env k cur client s type req).2.2.granted = true →
    Permitted k client (need type) (requestPath type req)

/-- The store has the file or folder, or room for it. A listing it always has. -/
def StoreServes (st : Store) (type : Nat) (path : CStr) : Prop :=
  match type with
  | 2 => (fsdStFind st path).isSome
  | 3 => True
  | 11 | 12 => (fsdStFind st path).isSome ∨ st.files.length < stMax
  | 13 => (fsdStFind st path).isSome ∨ (path ≠ paradosis ∧ path ≠ nomos) ∧ (fsdStDirFind st path).isSome
  | 15 => (fsdStDirFind st path).isSome ∨ st.dirs.length < stDirs
  | _ => False

/-- The kernel does for the service what is asked of it. -/
def KernelServes (env : Env) (k : Kernel) (cur type : Nat) (req path : CStr) : Prop :=
  match type with
  | 2 => req ≠ [] ∧ (callRead env k cur path (respMax - 1)).isSome
  | 3 => req ≠ [] ∧ (callList k cur path).isSome
  | 11 => (callCreate k cur .file path).2
  | 12 => req ≠ [] ∧ (callWrite env k cur path (writeData req)).2
  | 13 => (callRemove k cur path).2
  | 15 => (callCreate k cur .dir path).2
  | _ => False

/-- The client may not, and is served all the same: from the store, or because the kernel was asked about
less than the whole path. -/
def Evades (env : Env) (k : Kernel) (cur client : Nat) (s : Service) (type : Nat) (req : CStr) : Prop :=
  type ∈ fileTypes ∧ ¬ Permitted k client (need type) (requestPath type req) ∧
    if fsdStOwns (keptPath type req) then StoreServes s.store type (keptPath type req)
    else keptPath type req ≠ requestPath type req ∧ KernelServes env k cur type req (keptPath type req)

/-! ## What the service grants -/

theorem fsdStOwns_ne_nil {path : CStr} (h : fsdStOwns path = true) : path ≠ [] := by
  rintro rfl
  revert h
  decide

theorem fsdStSet_isSome (st : Store) (path : CStr) (data : List UInt8) :
    (fsdStSet st path data).isSome = true ↔ (fsdStFind st path).isSome ∨ st.files.length < stMax := by
  unfold fsdStSet
  cases fsdStFind st path with
  | some i => simp
  | none =>
    by_cases h : st.files.length < stMax
    · simp [h]
    · simp [h]

theorem fsdStMkdir_isSome (st : Store) {path : CStr} (hne : path ≠ []) :
    (fsdStMkdir st path).isSome = true ↔ (fsdStDirFind st path).isSome ∨ st.dirs.length < stDirs := by
  unfold fsdStMkdir
  rw [if_neg hne]
  by_cases hfind : (fsdStDirFind st path).isSome = true
  · simp [hfind]
  · by_cases h : st.dirs.length < stDirs
    · simp [hfind, h]
    · simp [hfind, h]

theorem fsdStRemove_isSome (st : Store) (path : CStr) :
    ((fsdStRemove st path).or (fsdStRmdir st path)).isSome = true ↔
      (fsdStFind st path).isSome ∨ (path ≠ paradosis ∧ path ≠ nomos) ∧ (fsdStDirFind st path).isSome := by
  unfold fsdStRemove fsdStRmdir
  rw [Option.isSome_or, Option.isSome_map, Bool.or_eq_true]
  refine or_congr_right ?_
  by_cases h : path = paradosis ∨ path = nomos
  · rw [if_pos h, ← not_or]
    simp [h]
  · rw [if_neg h, ← not_or, Option.isSome_map]
    simp [h]

theorem answer_granted (k : Kernel) (s : Service) (path : CStr) (own : Option Store) (kernel : Nodes × Bool) :
    (if fsdStOwns path then ownAnswer k s own else kernelAnswer s kernel).2.2.granted = true ↔
      if fsdStOwns path then own.isSome = true else kernel.2 = true := by
  split
  · cases own <;> simp [ownAnswer, Reply.granted]
  · rfl

section

variable (env : Env) (k : Kernel) (cur : Nat) (s : Service) (sender : Nat) (req : CStr)

theorem handleRead_granted : (handleRead env k cur s sender req).2.2.granted = true ↔
    if fsdStOwns req then StoreServes s.store 2 req else KernelServes env k cur 2 req req := by
  unfold handleRead
  by_cases hreq : req = []
  · subst hreq
    rw [if_pos rfl, if_neg (by decide)]
    exact iff_of_false Bool.false_ne_true fun h => h.1 rfl
  rw [if_neg hreq]
  dsimp only
  split
  · change _ ↔ (fsdStFind s.store req).isSome
    have hstore : (audited s 'r' sender req).store = s.store := rfl
    rw [hstore]
    cases fsdStFind s.store req <;> simp [Reply.granted]
  · unfold KernelServes
    cases callRead env k cur req (respMax - 1) <;> simp [Reply.granted, hreq]

theorem handleList_granted : (handleList k cur s sender req).2.2.granted = true ↔
    if fsdStOwns req then StoreServes s.store 3 req else KernelServes env k cur 3 req req := by
  unfold handleList
  by_cases hreq : req = []
  · subst hreq
    rw [if_pos rfl, if_neg (by decide)]
    exact iff_of_false Bool.false_ne_true fun h => h.1 rfl
  rw [if_neg hreq]
  dsimp only
  split
  · exact iff_of_true rfl trivial
  · unfold KernelServes
    cases callList k cur req <;> simp [Reply.granted, hreq]

theorem handleCreate_granted : (handleCreate k cur s sender req).2.2.granted = true ↔
    if fsdStOwns (shortPath req) then StoreServes s.store 11 (shortPath req)
    else KernelServes env k cur 11 req (shortPath req) := by
  unfold handleCreate
  dsimp only
  rw [answer_granted, fsdStSet_isSome]
  rfl

theorem handleWrite_granted : (handleWrite env k cur s sender req).2.2.granted = true ↔
    if fsdStOwns (shortPath (writePath req)) then StoreServes s.store 12 (shortPath (writePath req))
    else KernelServes env k cur 12 req (shortPath (writePath req)) := by
  unfold handleWrite
  by_cases hreq : req = []
  · subst hreq
    rw [if_pos rfl, if_neg (by decide)]
    exact iff_of_false Bool.false_ne_true fun h => h.1 rfl
  rw [if_neg hreq]
  dsimp only
  have hserves : KernelServes env k cur 12 req (shortPath (writePath req)) ↔
      (callWrite env k cur (shortPath (writePath req)) (writeData req)).2 = true := and_iff_right hreq
  rw [answer_granted, fsdStSet_isSome, hserves]
  rfl

theorem handleRemove_granted : (handleRemove k cur s sender req).2.2.granted = true ↔
    if fsdStOwns (shortPath req) then StoreServes s.store 13 (shortPath req)
    else KernelServes env k cur 13 req (shortPath req) := by
  unfold handleRemove
  dsimp only
  rw [answer_granted, fsdStRemove_isSome]
  rfl

theorem handleMkdir_granted : (handleMkdir k cur s sender req).2.2.granted = true ↔
    if fsdStOwns (shortPath req) then StoreServes s.store 15 (shortPath req)
    else KernelServes env k cur 15 req (shortPath req) := by
  unfold handleMkdir
  dsimp only
  rw [answer_granted]
  by_cases howns : fsdStOwns (shortPath req) = true
  · rw [if_pos howns, if_pos howns, fsdStMkdir_isSome _ (fsdStOwns_ne_nil howns)]
    rfl
  · rw [if_neg howns, if_neg howns]
    rfl

end

theorem handle_granted (env : Env) (k : Kernel) (cur client : Nat) (s : Service) {type : Nat} (req : CStr)
    (htype : type ∈ fileTypes) : (handle env k cur client s type req).2.2.granted = true ↔
      if fsdStOwns (keptPath type req) then StoreServes s.store type (keptPath type req)
        else KernelServes env k cur type req (keptPath type req) := by
  simp only [fileTypes, List.mem_cons, List.not_mem_nil, or_false] at htype
  rcases htype with rfl | rfl | rfl | rfl | rfl | rfl
  · exact handleRead_granted env k cur s (k.proc client).pid req
  · exact handleList_granted env k cur s (k.proc client).pid req
  · exact handleCreate_granted env k cur s (k.proc client).pid req
  · exact handleWrite_granted env k cur s (k.proc client).pid req
  · exact handleRemove_granted env k cur s (k.proc client).pid req
  · exact handleMkdir_granted env k cur s (k.proc client).pid req

/-! ## Mediation -/

section

variable {path : CStr} {right : Rights}

theorem permitted_of_call {α : Type} {g : CStr → Option α}
    (h : ((sysPath k cur right path).bind g).isSome = true)
    (hg : ∀ p, (g p).isSome = true → (vfsPath (policy cur k) root p right).isSome = true) :
    Permitted k cur right path := by
  cases hsys : sysPath k cur right path with
  | none =>
    rw [hsys] at h
    simp at h
  | some p =>
    obtain ⟨rfl, hlen⟩ := sysPath_some hsys
    rw [hsys] at h
    exact ⟨hlen, hg p h⟩

theorem permitted_of_create {t : FsType} (h : (callCreate k cur t path).2 = true) :
    Permitted k cur capFsWrite path := by
  unfold callCreate at h
  split at h
  · next nodes hnodes =>
    refine permitted_of_call (Option.isSome_iff_exists.mpr ⟨nodes, hnodes⟩) fun p hp => ?_
    exact Option.isSome_of_isSome_bind hp
  · simp at h

theorem permitted_of_remove (h : (callRemove k cur path).2 = true) : Permitted k cur capFsWrite path := by
  unfold callRemove at h
  split at h
  · next nodes hnodes =>
    refine permitted_of_call (Option.isSome_iff_exists.mpr ⟨nodes, hnodes⟩) fun p hp => ?_
    exact Option.isSome_of_isSome_bind hp
  · simp at h

theorem permitted_of_write {data : List UInt8} (h : (callWrite env k cur path data).2 = true) :
    Permitted k cur capFsWrite path := by
  unfold callWrite at h
  split at h
  · next p hsys =>
    obtain ⟨rfl, hlen⟩ := sysPath_some hsys
    refine ⟨hlen, ?_⟩
    unfold vfsWrite at h
    split at h
    · simp at h
    · next norm hnorm => exact Option.isSome_iff_exists.mpr ⟨norm, hnorm⟩
  · simp at h

theorem permitted_of_serves {type : Nat} {req : CStr} (htype : type ∈ fileTypes)
    (h : KernelServes env k cur type req path) : Permitted k cur (need type) path := by
  simp only [fileTypes, List.mem_cons, List.not_mem_nil, or_false] at htype
  rcases htype with rfl | rfl | rfl | rfl | rfl | rfl
  · exact permitted_of_call h.2 fun p hp => Option.isSome_of_isSome_bind hp
  · refine permitted_of_call h.2 fun p hp => ?_
    unfold vfsList at hp
    rwa [Option.isSome_map] at hp
  · exact permitted_of_create h
  · exact permitted_of_write h.2
  · exact permitted_of_remove h
  · exact permitted_of_create h

end

theorem permitted_same {cur' : Nat} (h : Steady Equipped k) (hcur : Runs (k.proc cur)) (hcur' : Runs (k.proc cur'))
    (type : Nat) (path : CStr) : Permitted k cur (need type) path ↔ Permitted k cur' (need type) path := by
  have hbits : ∀ i, Runs (k.proc i) → (k.proc i).rights &&& need type ≠ 0 := by
    intro i hi hzero
    have hbase := h.proc (fun huser => absurd huser (by decide)) i hi.2.1
    have hneed : Within (need type) baseRights := by
      unfold need
      split <;> decide
    have hwithin : Within (need type) (k.proc i).rights :=
      (within_iff _ _).mpr fun j hj => (within_iff _ _).mp hbase j ((within_iff _ _).mp hneed j hj)
    refine and_ne_zero hwithin ?_ hzero
    unfold need
    split <;> decide
  have hpath : vfsPath (policy cur k) root path (need type) = vfsPath (policy cur' k) root path (need type) := by
    unfold vfsPath
    congr 1
    funext q
    exact vfsCheckCap_rights q (hbits cur hcur) (hbits cur' hcur')
  unfold Permitted
  rw [hpath]

/-- Served is who may do it himself, unless the store holds the file or the kernel is asked about a part of the path. -/
theorem fsd_mediates_iff (m : Machine) (nodes : Nodes) (synallagma : Synallagma) {ops : List WorldOp} {w : World}
    (h : Run (World.Step m) (World.boot nodes synallagma) ops w) (s : Service) (env : Env) (cur client type : Nat)
    (req : CStr) (hcur : Runs (w.sys.kernel.proc cur)) (hclient : Runs (w.sys.kernel.proc client)) :
    Mediated env w.sys.kernel cur client s type req ↔ ¬ Evades env w.sys.kernel cur client s type req := by
  unfold Mediated Evades
  by_cases htype : type ∈ fileTypes
  case neg => exact iff_of_true (fun h => absurd h htype) fun h => htype h.1
  rw [handle_granted env w.sys.kernel cur client s req htype]
  have hsame := permitted_same (equipped_run h) hcur hclient type
  constructor
  · rintro hmediated ⟨-, hnot, hserved⟩
    refine hnot (hmediated htype ?_)
    split at hserved
    · next howns =>
      rw [if_pos howns]
      exact hserved
    · next howns =>
      rw [if_neg howns]
      exact hserved.2
  · intro hno _ hserved
    by_contra hnot
    refine hno ⟨htype, hnot, ?_⟩
    split at hserved
    · next howns =>
      rw [if_pos howns]
      exact hserved
    · next howns =>
      rw [if_neg howns]
      refine ⟨fun hkept => hnot ?_, hserved⟩
      -- asked about the whole path, the kernel answers the service as it answers the client
      rw [hkept] at hserved
      exact (hsame _).mp (permitted_of_serves htype hserved)

def fsdMachine : Machine := ⟨fun pw salt => pw ++ salt, [(ascii "fsd", true), (spoudazo, false)]⟩

/-- A law that may be read and not written. -/
def law : Contract := ⟨ascii "lei", nomos, true, false, false, true, true, true, 0⟩

def lawful : Synallagma := ⟨[law], [true]⟩

/-- 'fsd' and 'spoudazo' run, and the service has its seed. -/
def served : List WorldOp :=
  [.kernel (.init (.loaded [region])), .kernel (.init (.loaded [region])), .kernel (.init .rejected),
    .kernel (.init (.loaded [region])), .start (callEnv [] 0) 1]

def servedWorld : World := served.foldl (World.apply fsdMachine) (World.boot [] lawful)

def seeded : Service := ⟨fsdStSeed (callEnv [] 0) servedWorld.sys.kernel 1, []⟩

/-- A file that the service does not have is not served. -/
theorem fsd_mediates_missing :
    Mediated (callEnv [] 0) servedWorld.sys.kernel 1 2 seeded ipcTypeRead (ascii "/nomos/lei") ↔
      ¬ Evades (callEnv [] 0) servedWorld.sys.kernel 1 2 seeded ipcTypeRead (ascii "/nomos/lei") := by
  have hrun : Run (World.Step fsdMachine) (World.boot [] lawful) served servedWorld :=
    Run.of_admits (by decide +kernel)
  exact fsd_mediates_iff fsdMachine [] lawful hrun seeded (callEnv [] 0) 1 2 ipcTypeRead (ascii "/nomos/lei")
    (by decide +kernel) (by decide +kernel)

/-- The law is written, through the service. -/
theorem fsd_writes_law :
    ¬ ∀ (m : Machine) (nodes : Nodes) (synallagma : Synallagma) (ops : List WorldOp) (w : World),
      Run (World.Step m) (World.boot nodes synallagma) ops w →
        ∀ s, w.fsd = some s → ∀ (env : Env) (cur client type : Nat) (req : CStr),
          Runs (w.sys.kernel.proc cur) → Runs (w.sys.kernel.proc client) →
            Mediated env w.sys.kernel cur client s type req := by
  intro h
  have hmediated := h fsdMachine [] lawful served servedWorld (Run.of_admits (by decide +kernel)) seeded rfl
    (callEnv [] 0) 1 2 ipcTypeFsCreate (ascii "/nomos/lei") (by decide +kernel) (by decide +kernel)
  exact absurd (hmediated (by decide) (by decide +kernel)) (by decide +kernel)

end Siathos.Fsd
