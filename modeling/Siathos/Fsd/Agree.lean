import Siathos.Fsd.Listing
import Siathos.Fsd.RoundTrip

/-!
# The service and the kernel side by side

A system with 'fsd' and one without it get the same requests for files below `/nomos` and `/paradosis`. The
first answers from its store, and the second from the file system that the store was copied from.
-/

open Lib Siathos.Nomos Siathos.Fs Siathos.Syscall Siathos.Session

namespace Siathos.Fsd

/-! ## Requests -/

inductive FileRequest
  | create (path : CStr)
  | write (path : CStr) (data : List UInt8)
  | read (path : CStr)
  | list (path : CStr)
  | mkdir (path : CStr)
  | remove (path : CStr)
  deriving DecidableEq, Repr

namespace FileRequest

def path : FileRequest → CStr
  | .create path | .write path _ | .read path | .list path | .mkdir path | .remove path => path

def data : FileRequest → List UInt8
  | .write _ data => data
  | _ => []

def type : FileRequest → Nat
  | .create _ => ipcTypeFsCreate
  | .write _ _ => ipcTypeFsWrite
  | .read _ => ipcTypeRead
  | .list _ => ipcTypeList
  | .mkdir _ => ipcTypeFsMkdir
  | .remove _ => ipcTypeFsRemove

/-- The C string that `fsd_handler` gets. -/
def text : FileRequest → CStr
  | .write path data => (path ++ 0x0A :: data).takeWhile (· != 0)
  | r => r.path

end FileRequest

/-- What a client learns: nothing where the request failed, else the text of a file or of a listing. -/
def Reply.outcome : Reply → Option CStr
  | .data bytes => some bytes
  | .refused _ => none
  | .flag ok => if ok then some [] else none
  | .text bytes => some bytes

def flagged (r : Nodes × Bool) : Nodes × Option CStr := (r.1, if r.2 then some [] else none)

/-- The `SYS_FS_*` call for a request. -/
def kernelCall (env : Env) (k : Kernel) (client : Nat) : FileRequest → Nodes × Option CStr
  | .create path => flagged (callCreate k client .file path)
  | .write path data => flagged (callWrite env k client path data)
  | .read path => (k.nodes, callRead env k client path (respMax - 1))
  | .list path => (k.nodes, callList k client path)
  | .mkdir path => flagged (callCreate k client .dir path)
  | .remove path => flagged (callRemove k client path)

/-- The system with 'fsd', and the kernel of the one without. -/
structure Twins where
  service : Service
  kernel : Kernel
  alone : Kernel

structure Asked where
  env : Env
  client : Nat
  request : FileRequest

namespace Twins

/-- Both start from one kernel, with the store right after `fsd_st_seed`. -/
def seed (env : Env) (k : Kernel) (cur : Nat) : Twins := ⟨⟨fsdStSeed env k cur, []⟩, k, k⟩

def answer (cur : Nat) (t : Twins) (a : Asked) : Handled :=
  handle a.env t.kernel cur a.client t.service a.request.type a.request.text

def call (t : Twins) (a : Asked) : Nodes × Option CStr := kernelCall a.env t.alone a.client a.request

def apply (cur : Nat) (t : Twins) (a : Asked) : Twins :=
  ⟨(t.answer cur a).1, { t.kernel with nodes := (t.answer cur a).2.1 }, { t.alone with nodes := (t.call a).1 }⟩

end Twins

/-- Both fail, or both have success and give the same text. A listing may be in another order. -/
def SameOutcome (r : FileRequest) : Option CStr → Option CStr → Prop
  | none, none => True
  | some text, some text' =>
    match r with
    | .list _ => SameEntries text text'
    | _ => text = text'
  | _, _ => False

def Agrees (cur : Nat) (t : Twins) (a : Asked) : Prop :=
  SameOutcome a.request (t.answer cur a).2.2.outcome (t.call a).2

/-! ## The requests in question -/

/-- Strictly below `/paradosis` or `/nomos`. -/
def inside (path : CStr) : Bool := (paradosis ++ [slash]).isPrefixOf path || (nomos ++ [slash]).isPrefixOf path

/-- A canonical path of at most 47 bytes, data of at most 511 bytes, and a free slot on both sides. -/
structure InScope (t : Twins) (path : CStr) (data : List UInt8) : Prop where
  cstr : 0 ∉ path
  canonical : vfsNormalize root path fsNameMax = some path
  inside : inside path = true
  short : path.length < stPath
  data : data.length < stData
  files : t.service.store.files.length < stMax
  slots : ∃ n ∈ t.alone.nodes, n.used = false

instance (t : Twins) (path : CStr) (data : List UInt8) : Decidable (InScope t path data) :=
  decidable_of_iff
    (0 ∉ path ∧ vfsNormalize root path fsNameMax = some path ∧ Fsd.inside path = true ∧ path.length < stPath ∧
      data.length < stData ∧ t.service.store.files.length < stMax ∧ ∃ n ∈ t.alone.nodes, n.used = false)
    ⟨fun ⟨h1, h2, h3, h4, h5, h6, h7⟩ => ⟨h1, h2, h3, h4, h5, h6, h7⟩,
      fun h => ⟨h.cstr, h.canonical, h.inside, h.short, h.data, h.files, h.slots⟩⟩

/-! ## Where they do alike -/

/-- The kernel lets the process write, or read, at the path. -/
def Writes (k : Kernel) (client : Nat) (path : CStr) : Prop := (callTarget k client capFsWrite path).isSome = true

def Reads (k : Kernel) (client : Nat) (path : CStr) : Prop := (callTarget k client capFsRead path).isSome = true

/-- The bytes that the file at a path has room for. -/
def capacityAt (ns : Nodes) (path : CStr) : Nat := ((fsGet ns path).map (·.capacity)).getD 0

/-- The service looks at no rights, no folders and no old file. It makes no folders, and lists none. -/
def Alike (env : Env) (k : Kernel) (client : Nat) : FileRequest → Prop
  | .create path => Writes k client path ∧ Creatable k.nodes path
  | .write path data =>
    Writes k client path ∧ ((fileAt k.nodes path).isSome = true ∨ Creatable k.nodes path) ∧
      (env.kmallocOk = true ∨ data.length ≤ capacityAt k.nodes path) ∧ 0x0A ∉ path ∧ 0 ∉ data
  | .read path => (fileAt k.nodes path).isSome = true → Reads k client path
  | .list path =>
    Reads k client path ∧ children path k.nodes ≠ [] ∧ ∀ c ∈ children path k.nodes, c.1 = .file
  | .mkdir path => ¬ (Writes k client path ∧ Creatable k.nodes path)
  | .remove path =>
    if (fileAt k.nodes path).isSome then Writes k client path
    else ¬ (Writes k client path ∧ Removable k.nodes path)

instance (ns : Nodes) (path : CStr) : Decidable (Creatable ns path) :=
  decidable_of_iff
    (path ≠ root ∧ fsGet ns path = none ∧ (∃ n ∈ ns, n.used = false) ∧ parentOk ns path = true)
    ⟨fun ⟨h1, h2, h3, h4⟩ => ⟨h1, h2, h3, h4⟩, fun h => ⟨h.notRoot, h.fresh, h.room, h.parent⟩⟩

instance (ns : Nodes) (path : CStr) : Decidable (Removable ns path) :=
  decidable_of_iff
    (path ≠ root ∧ (fsGet ns path).any (fun n => decide (¬ (n.type = .dir ∧ fsHasChildren ns path = true))) = true)
    ⟨fun ⟨h1, h2⟩ => ⟨h1, ((Option.any_eq_true _ _).mp h2).imp fun _ h => ⟨h.1, of_decide_eq_true h.2⟩⟩,
      fun h => ⟨h.notRoot, (Option.any_eq_true _ _).mpr (h.node.imp fun _ h => ⟨h.1, decide_eq_true h.2⟩)⟩⟩

instance (k : Kernel) (client : Nat) (path : CStr) : Decidable (Writes k client path) :=
  inferInstanceAs (Decidable (_ = true))

instance (k : Kernel) (client : Nat) (path : CStr) : Decidable (Reads k client path) :=
  inferInstanceAs (Decidable (_ = true))

instance (env : Env) (k : Kernel) (client : Nat) : (r : FileRequest) → Decidable (Alike env k client r)
  | .create path => inferInstanceAs (Decidable (Writes k client path ∧ Creatable k.nodes path))
  | .write path data =>
    inferInstanceAs (Decidable (Writes k client path ∧
      ((fileAt k.nodes path).isSome = true ∨ Creatable k.nodes path) ∧
        (env.kmallocOk = true ∨ data.length ≤ capacityAt k.nodes path) ∧ 0x0A ∉ path ∧ 0 ∉ data))
  | .read path => inferInstanceAs (Decidable ((fileAt k.nodes path).isSome = true → Reads k client path))
  | .list path =>
    inferInstanceAs (Decidable (Reads k client path ∧ children path k.nodes ≠ [] ∧
      ∀ c ∈ children path k.nodes, c.1 = .file))
  | .mkdir path => inferInstanceAs (Decidable (¬ (Writes k client path ∧ Creatable k.nodes path)))
  | .remove path =>
    inferInstanceAs (Decidable (if (fileAt k.nodes path).isSome then Writes k client path
      else ¬ (Writes k client path ∧ Removable k.nodes path)))

/-- The store holds the files of the other system. -/
structure Mirror (st : Store) (ns : Nodes) : Prop where
  dirs : st.dirs = dirSeeds
  distinct : Distinct st
  single : Single ns
  files : ∀ q, inside q = true → stored st q = fileAt ns q

section

variable {st st' : Store} {ns ns' : Nodes} {path : CStr} {d : List UInt8}

theorem Mirror.set (hm : Mirror st ns) (hshort : path.length < stPath) (hlen : d.length < stData)
    (hset : fsdStSet st path d = some st') (hsingle : Single ns')
    (hfiles : ∀ q, fileAt ns' q = if q = path then some d else fileAt ns q) : Mirror st' ns' := by
  have hcut : cut stPath path = path := List.take_of_length_le (Nat.le_pred_of_lt hshort)
  have hdata : cut stData d = d := List.take_of_length_le (Nat.le_pred_of_lt hlen)
  refine ⟨(fsdStSet_cases hset).1.trans hm.dirs, distinct_set hshort hm.distinct hset, hsingle, fun q hq => ?_⟩
  rw [hfiles]
  split_ifs with hpath
  · rw [hpath, stored_set_same hshort hset, hdata]
  · rw [stored_set_other hpath (by rwa [hcut]) hset, hm.files q hq]

theorem Mirror.remove (hm : Mirror st ns) (hstore : fsdStRemove st path = some st') (hr : fsRemove ns path = some ns') :
    Mirror st' ns' := by
  obtain ⟨hdistinct, hstored⟩ := stored_remove hm.distinct hstore
  obtain ⟨hsingle, hfiles⟩ := fsRemove_files hm.single hr
  refine ⟨(fsdStRemove_cases hstore).1.trans hm.dirs, hdistinct, hsingle, fun q hq => ?_⟩
  rw [hstored, hfiles, hm.files q hq]

/-! ## The service -/

theorem inside_owns (h : inside path = true) : fsdStOwns path = true := by
  simp only [inside, Bool.or_eq_true] at h
  simp only [fsdStOwns, Bool.or_eq_true, or_assoc]
  exact Or.inr (Or.inr h)

theorem shortPath_short (h : path.length < stPath) : shortPath path = path :=
  List.take_of_length_le (Nat.le_trans (Nat.le_of_lt h) (by decide))

theorem inside_seeds : ∀ d ∈ dirSeeds, inside d = false := by decide

theorem inside_child {dir q : CStr} (h : inside dir = true) (hq : (entryName dir q).isSome = true) :
    inside q = true := by
  obtain ⟨name, hname⟩ := Option.isSome_iff_exists.mp hq
  obtain ⟨rfl, -⟩ := entryName_iff.mp hname
  simp only [inside, Bool.or_eq_true, List.isPrefixOf_iff_prefix] at h ⊢
  exact h.imp (·.trans (List.prefix_append _ _)) (·.trans (List.prefix_append _ _))

theorem seeds_hidden {dir : CStr} (h : inside dir = true) : ∀ d ∈ dirSeeds, entryName dir d = none := by
  intro d hd
  by_contra hsome
  have hinside := inside_child h (Option.isSome_iff_ne_none.mpr hsome)
  rw [inside_seeds d hd] at hinside
  simp at hinside

theorem Mirror.not_dir (hm : Mirror st ns) (h : inside path = true) : fsdStDirFind st path = none := by
  unfold fsdStDirFind
  rw [List.findIdx?_eq_none_iff, hm.dirs]
  intro d hd
  have hnot := inside_seeds d hd
  by_contra heq
  simp only [decide_eq_false_iff_not, not_not] at heq
  rw [heq, h] at hnot
  simp at hnot

theorem Mirror.mkdir (hm : Mirror st ns) (h : inside path = true) : fsdStMkdir st path = none := by
  have hfull : ¬ st.dirs.length < stDirs := by
    rw [hm.dirs]
    decide
  unfold fsdStMkdir
  rw [hm.not_dir h]
  simp [hfull]

theorem Mirror.rmdir (hm : Mirror st ns) (h : inside path = true) : fsdStRmdir st path = none := by
  unfold fsdStRmdir
  rw [hm.not_dir h]
  simp

end

/-! ## The kernel -/

section

variable {env : Env} {k : Kernel} {cur : Nat} {path : CStr} {data : List UInt8}

theorem inside_pseudo (h : inside path = true) : vfsIsPseudo path = false := by
  simp only [inside, Bool.or_eq_true, List.isPrefixOf_iff_prefix] at h
  obtain ⟨rest, rfl⟩ | ⟨rest, rfl⟩ := h
  · rfl
  · rfl

theorem callTarget_canonical {need : Rights} (hcan : vfsNormalize root path fsNameMax = some path)
    (h : (callTarget k cur need path).isSome = true) : callTarget k cur need path = some path := by
  obtain ⟨p, hp⟩ := Option.isSome_iff_exists.mp h
  rw [hp]
  unfold callTarget at hp
  obtain ⟨path', hsys, hvfs⟩ := Option.bind_eq_some_iff.mp hp
  obtain ⟨rfl, -⟩ := sysPath_some hsys
  rw [← (mem_vfsPath.mp hvfs).1]
  exact hcan

theorem callCreate_eq (k : Kernel) (cur : Nat) (type : FsType) (path : CStr) :
    callCreate k cur type path =
      (((callTarget k cur capFsWrite path).bind (fsCreate k.nodes · type)).map (·, true)).getD (k.nodes, false) := by
  unfold callCreate callTarget vfsCreate
  cases sysPath k cur capFsWrite path with
  | none => rfl
  | some p =>
    simp only [Option.bind_some]
    cases (vfsPath (policy cur k) root p capFsWrite).bind (fsCreate k.nodes · type) <;> rfl

theorem callRemove_eq (k : Kernel) (cur : Nat) (path : CStr) :
    callRemove k cur path =
      (((callTarget k cur capFsWrite path).bind (fsRemove k.nodes ·)).map (·, true)).getD (k.nodes, false) := by
  unfold callRemove callTarget vfsRemove
  cases sysPath k cur capFsWrite path with
  | none => rfl
  | some p =>
    simp only [Option.bind_some]
    cases (vfsPath (policy cur k) root p capFsWrite).bind (fsRemove k.nodes ·) <;> rfl

theorem callRead_eq (hpseudo : vfsIsPseudo path = false) (hcan : vfsNormalize root path fsNameMax = some path)
    (hreads : Reads k cur path) (env : Env) (max : Nat) :
    callRead env k cur path max = (fileAt k.nodes path).map (·.take max) := by
  have htarget := callTarget_canonical hcan hreads
  unfold callTarget at htarget
  obtain ⟨p, hsys, hvfs⟩ := Option.bind_eq_some_iff.mp htarget
  simp [callRead, hsys, vfsRead, hvfs, hpseudo, fsRead_eq]

theorem callList_eq (hpseudo : vfsIsPseudo path = false) (hcan : vfsNormalize root path fsNameMax = some path)
    (hreads : Reads k cur path) : callList k cur path = some (fsList k.nodes path 4096) := by
  have htarget := callTarget_canonical hcan hreads
  unfold callTarget at htarget
  obtain ⟨p, hsys, hvfs⟩ := Option.bind_eq_some_iff.mp htarget
  simp [callList, hsys, vfsList, hvfs, hpseudo]

theorem fsWrite_ok {kmallocOk : Bool} {ns : Nodes} {n : FsNode} (hn : fsGet ns path = some n) (hfile : n.type ≠ .dir)
    (hlen : data.length ≤ fsMaxData) (hroom : kmallocOk = true ∨ data.length ≤ n.capacity) :
    ∃ ns', fsWrite kmallocOk ns path data = some ns' := by
  unfold fsWrite
  rw [if_neg (Nat.not_lt.mpr hlen), hn]
  dsimp only
  rw [if_neg hfile]
  by_cases hcap : n.capacity < data.length
  · rw [if_pos hcap, if_pos (hroom.resolve_right (Nat.not_le.mpr hcap))]
    exact ⟨_, rfl⟩
  · rw [if_neg hcap]
    exact ⟨_, rfl⟩

theorem callWrite_ok (hin : inside path = true) (hcan : vfsNormalize root path fsNameMax = some path)
    (hwrites : Writes k cur path) (hlen : data.length ≤ fsMaxData)
    (hplace : (fileAt k.nodes path).isSome = true ∨ Creatable k.nodes path)
    (hroom : env.kmallocOk = true ∨ data.length ≤ capacityAt k.nodes path) :
    (callWrite env k cur path data).2 = true := by
  have htarget := callTarget_canonical hcan hwrites
  unfold callTarget at htarget
  obtain ⟨p, hsys, hvfs⟩ := Option.bind_eq_some_iff.mp htarget
  unfold callWrite vfsWrite
  simp only [hsys, hvfs, inside_pseudo hin, Bool.false_eq_true, if_false]
  obtain hfile | hnew := hplace
  · unfold fileAt at hfile
    unfold capacityAt at hroom
    cases hget : fsGet k.nodes path with
    | none => simp [hget] at hfile
    | some n =>
      have htype : n.type ≠ .dir := by
        rintro hdir
        simp [hget, hdir] at hfile
      obtain ⟨ns', hns'⟩ := fsWrite_ok hget htype hlen (by simpa [hget] using hroom)
      simp [fsExists, hget, hns']
  · obtain ⟨ns₁, hns₁⟩ := fsCreate_of_creatable hnew .file
    have hget : fsGet ns₁ path = some ⟨path, [], 0, .file, true⟩ := by
      rw [fsGet_eq, fsCreate_same (vfsPath_length hvfs) hns₁]
      rfl
    have hdata : data = [] ∨ env.kmallocOk = true := by
      rw [capacityAt, hnew.fresh] at hroom
      exact hroom.symm.imp_left fun h => List.length_eq_zero_iff.mp (Nat.le_zero.mp h)
    obtain ⟨ns₂, hns₂⟩ := Option.isSome_iff_exists.mp ((fsWrite_new env.kmallocOk hget data).mpr ⟨hlen, hdata⟩)
    simp [fsExists_of_creatable hnew, hns₁, hns₂]

theorem callWrite_files (hcan : vfsNormalize root path fsNameMax = some path)
    (h : (callWrite env k cur path data).2 = true) (hsingle : Single k.nodes) :
    Single (callWrite env k cur path data).1 ∧
      ∀ q, fileAt (callWrite env k cur path data).1 q = if q = path then some data else fileAt k.nodes q := by
  unfold callWrite at h ⊢
  cases hsys : sysPath k cur capFsWrite path with
  | none => simp [hsys] at h
  | some p =>
    obtain ⟨rfl, -⟩ := sysPath_some hsys
    simp only [hsys] at h ⊢
    generalize hw : vfsWrite env.kmallocOk (policy cur k) k.nodes root p data = r at h ⊢
    obtain ⟨ns', ok⟩ := r
    obtain rfl : ok = true := h
    obtain ⟨norm, hnorm, -, hkeep, hfiles⟩ := vfsWrite_files hw
    have hpath : p = norm := Option.some.inj (hcan.symm.trans (mem_vfsPath.mp hnorm).1)
    rw [hpath]
    exact ⟨hkeep hsingle, hfiles⟩

end

/-! ## One request -/

section

variable {t : Twins} {env : Env} {client : Nat} {path : CStr}

/-- The request is answered alike, and the store holds the files of the other system after it. -/
def Together (cur : Nat) (t : Twins) (a : Asked) : Prop :=
  Mirror (t.apply cur a).service.store (t.apply cur a).alone.nodes ∧ Agrees cur t a

theorem set_room {st : Store} (h : st.files.length < stMax) (path : CStr) (data : List UInt8) :
    ∃ st', fsdStSet st path data = some st' :=
  Option.isSome_iff_exists.mp ((fsdStSet_isSome st path data).mpr (Or.inr h))

theorem sameOutcome_refl (r : FileRequest) (o : Option CStr) : SameOutcome r o o := by
  cases o with
  | none => trivial
  | some text => cases r <;> first | rfl | exact List.Perm.refl _

theorem removable_of_file {ns : Nodes} (hin : inside path = true) (h : (fileAt ns path).isSome = true) :
    Removable ns path := by
  unfold fileAt at h
  cases hget : fsGet ns path with
  | none => simp [hget] at h
  | some n =>
    refine ⟨?_, n, hget, fun hdir => ?_⟩
    · rintro rfl
      revert hin
      decide
    · simp [hget, hdir.1] at h

theorem handleRead_owned (env : Env) (k : Kernel) (cur : Nat) (s : Service) (sender : Nat)
    (howns : fsdStOwns path = true) :
    (handleRead env k cur s sender path).1.store = s.store ∧
      (handleRead env k cur s sender path).2.2.outcome = stored s.store path := by
  have hstore : (audited s 'r' sender path).store = s.store := rfl
  unfold handleRead
  rw [if_neg (fsdStOwns_ne_nil howns)]
  dsimp only
  rw [if_pos howns, hstore]
  cases hfind : fsdStFind s.store path with
  | none => exact ⟨rfl, (stored_missing hfind).symm⟩
  | some i => exact ⟨rfl, (stored_found hfind).symm⟩

theorem handleList_owned (k : Kernel) (cur : Nat) (s : Service) (sender : Nat) (howns : fsdStOwns path = true) :
    (handleList k cur s sender path).1.store = s.store ∧
      (handleList k cur s sender path).2.2.outcome = some (fsdStList s.store path (respMax - 1)) := by
  unfold handleList
  rw [if_neg (fsdStOwns_ne_nil howns)]
  dsimp only
  rw [if_pos howns]
  exact ⟨rfl, rfl⟩

theorem together_of (cur : Nat) {a : Asked} {s : Service} {st : Option Store} {r : Nodes × Bool}
    (hstore : s.store = t.service.store) (hanswer : t.answer cur a = ownAnswer t.kernel s st)
    (hcall : t.call a = flagged r) (hok : st.isSome = r.2) (hmirror : Mirror (st.getD t.service.store) r.1) :
    Together cur t a := by
  unfold Together Agrees Twins.apply
  rw [hanswer, hcall]
  cases st with
  | none =>
    simp only [ownAnswer, flagged, Reply.outcome, ← hok, hstore]
    exact ⟨hmirror, trivial⟩
  | some st =>
    simp only [ownAnswer, flagged, Reply.outcome, ← hok]
    exact ⟨hmirror, sameOutcome_refl _ _⟩

theorem create_together (cur : Nat) (hm : Mirror t.service.store t.alone.nodes) (hs : InScope t path [])
    (ha : Alike env t.alone client (.create path)) : Together cur t ⟨env, client, .create path⟩ := by
  obtain ⟨hwrites, hcreatable⟩ := ha
  obtain ⟨st, hset⟩ := set_room hs.files path []
  obtain ⟨ns, hns⟩ := fsCreate_of_creatable hcreatable .file
  have hcall : callCreate t.alone client .file path = (ns, true) := by
    rw [callCreate_eq, callTarget_canonical hs.canonical hwrites, Option.bind_some, hns]
    rfl
  have hanswer : t.answer cur ⟨env, client, .create path⟩ =
      ownAnswer t.kernel (audited t.service 'c' (t.kernel.proc client).pid path) (some st) := by
    change handleCreate t.kernel cur t.service (t.kernel.proc client).pid path = _
    unfold handleCreate
    simp [shortPath_short hs.short, inside_owns hs.inside, audited, hset]
  refine together_of cur (s := audited _ _ _ _) rfl hanswer (congrArg flagged hcall) rfl ?_
  obtain ⟨hsingle, hfiles⟩ := fsCreate_files (Nat.lt_trans hs.short (by decide)) hns
  exact hm.set hs.short (by decide) hset (hsingle hm.single) (by simpa using hfiles)

theorem write_together (cur : Nat) {data : List UInt8} (hm : Mirror t.service.store t.alone.nodes)
    (hs : InScope t path data) (ha : Alike env t.alone client (.write path data)) :
    Together cur t ⟨env, client, .write path data⟩ := by
  obtain ⟨hwrites, hplace, hroom, hnl, h0⟩ := ha
  obtain ⟨st, hset⟩ := set_room hs.files path data
  have hok := callWrite_ok hs.inside hs.canonical hwrites (Nat.le_trans (Nat.le_of_lt hs.data) (by decide)) hplace hroom
  have htext : (FileRequest.write path data).text = path ++ 0x0A :: data :=
    List.takeWhile_eq_self_iff.mpr (all_ne (by simpa using ⟨hs.cstr, h0⟩))
  have hanswer : t.answer cur ⟨env, client, .write path data⟩ =
      ownAnswer t.kernel (audited t.service 'w' (t.kernel.proc client).pid path) (some st) := by
    change handleWrite env t.kernel cur t.service (t.kernel.proc client).pid (FileRequest.write path data).text = _
    unfold handleWrite
    rw [htext, if_neg (by simp), writePath_line hnl, writeData_line hnl]
    simp [shortPath_short hs.short, inside_owns hs.inside, audited, hset]
  refine together_of cur (s := audited _ _ _ _) rfl hanswer rfl hok.symm ?_
  obtain ⟨hsingle, hfiles⟩ := callWrite_files hs.canonical hok hm.single
  exact hm.set hs.short hs.data hset hsingle hfiles

theorem mkdir_together (cur : Nat) (hm : Mirror t.service.store t.alone.nodes) (hs : InScope t path [])
    (ha : Alike env t.alone client (.mkdir path)) : Together cur t ⟨env, client, .mkdir path⟩ := by
  have hcall : callCreate t.alone client .dir path = (t.alone.nodes, false) := by
    rw [callCreate_eq]
    cases htarget : callTarget t.alone client capFsWrite path with
    | none => rfl
    | some p =>
      have hwrites : Writes t.alone client path := Option.isSome_of_mem htarget
      obtain rfl : p = path := Option.some.inj (htarget.symm.trans (callTarget_canonical hs.canonical hwrites))
      have hnone : fsCreate t.alone.nodes p .dir = none := by
        by_contra hsome
        obtain ⟨ns, hns⟩ := Option.ne_none_iff_exists'.mp hsome
        exact ha ⟨hwrites, (fsCreate_cases hns).1⟩
      rw [Option.bind_some, hnone]
      rfl
  have hanswer : t.answer cur ⟨env, client, .mkdir path⟩ =
      ownAnswer t.kernel (audited t.service 'm' (t.kernel.proc client).pid path) none := by
    change handleMkdir t.kernel cur t.service (t.kernel.proc client).pid path = _
    unfold handleMkdir
    simp [shortPath_short hs.short, inside_owns hs.inside, audited, hm.mkdir hs.inside]
  exact together_of cur (s := audited _ _ _ _) rfl hanswer (congrArg flagged hcall) rfl hm

theorem remove_together (cur : Nat) (hm : Mirror t.service.store t.alone.nodes) (hs : InScope t path [])
    (ha : Alike env t.alone client (.remove path)) : Together cur t ⟨env, client, .remove path⟩ := by
  have hanswer : t.answer cur ⟨env, client, .remove path⟩ =
      ownAnswer t.kernel (audited t.service 'd' (t.kernel.proc client).pid path)
        (fsdStRemove t.service.store path) := by
    change handleRemove t.kernel cur t.service (t.kernel.proc client).pid path = _
    unfold handleRemove
    simp [shortPath_short hs.short, inside_owns hs.inside, audited, hm.rmdir hs.inside]
  have hfile := hm.files path hs.inside
  simp only [Alike] at ha
  split_ifs at ha with hsome
  · obtain ⟨st, hst⟩ : ∃ st, fsdStRemove t.service.store path = some st := by
      rw [← Option.ne_none_iff_exists', Ne, fsdStRemove_none, hfile]
      exact Option.isSome_iff_ne_none.mp hsome
    obtain ⟨ns, hns⟩ := fsRemove_of_removable (removable_of_file hs.inside hsome)
    have hcall : callRemove t.alone client path = (ns, true) := by
      rw [callRemove_eq, callTarget_canonical hs.canonical ha, Option.bind_some, hns]
      rfl
    refine together_of cur (s := audited _ _ _ _) rfl hanswer (congrArg flagged hcall) (by rw [hst]; rfl) ?_
    rw [hst]
    exact hm.remove hst hns
  · have hnone : fsdStRemove t.service.store path = none := by
      rw [fsdStRemove_none, hfile]
      simpa using hsome
    have hcall : callRemove t.alone client path = (t.alone.nodes, false) := by
      rw [callRemove_eq]
      cases htarget : callTarget t.alone client capFsWrite path with
      | none => rfl
      | some p =>
        have hwrites : Writes t.alone client path := Option.isSome_of_mem htarget
        obtain rfl : p = path := Option.some.inj (htarget.symm.trans (callTarget_canonical hs.canonical hwrites))
        have hkept : fsRemove t.alone.nodes p = none := by
          by_contra hremoved
          obtain ⟨ns, hns⟩ := Option.ne_none_iff_exists'.mp hremoved
          exact ha ⟨hwrites, (fsRemove_cases hns).1⟩
        rw [Option.bind_some, hkept]
        rfl
    refine together_of cur (s := audited _ _ _ _) rfl hanswer (congrArg flagged hcall) (by rw [hnone]; rfl) ?_
    rw [hnone]
    exact hm

theorem read_together (cur : Nat) (hm : Mirror t.service.store t.alone.nodes) (hs : InScope t path [])
    (ha : Alike env t.alone client (.read path)) : Together cur t ⟨env, client, .read path⟩ := by
  have hfile := hm.files path hs.inside
  have hcall : callRead env t.alone client path (respMax - 1) = stored t.service.store path := by
    by_cases hreads : Reads t.alone client path
    · rw [callRead_eq (inside_pseudo hs.inside) hs.canonical hreads, ← hfile]
      cases hstored : stored t.service.store path with
      | none => rfl
      | some d =>
        obtain ⟨f, -, -, rfl⟩ := (stored_iff hm.distinct).mp hstored
        rw [Option.map_some, List.take_of_length_le (Nat.le_trans (Nat.le_of_lt f.data_lt) (by decide))]
    · have hnone : fileAt t.alone.nodes path = none := by
        by_contra hsome
        exact hreads (ha (Option.isSome_iff_ne_none.mpr hsome))
      rw [callRead_none (by simpa [Reads] using hreads), hfile, hnone]
  obtain ⟨hstore, houtcome⟩ := handleRead_owned env t.kernel cur t.service (t.kernel.proc client).pid
    (inside_owns hs.inside)
  constructor
  · change Mirror (handleRead env t.kernel cur t.service (t.kernel.proc client).pid path).1.store t.alone.nodes
    rwa [hstore]
  · change SameOutcome _ (handleRead env t.kernel cur t.service (t.kernel.proc client).pid path).2.2.outcome
      (callRead env t.alone client path (respMax - 1))
    rw [houtcome, hcall]
    exact sameOutcome_refl _ _

theorem list_together (cur : Nat) (hm : Mirror t.service.store t.alone.nodes) (hs : InScope t path [])
    (ha : Alike env t.alone client (.list path)) : Together cur t ⟨env, client, .list path⟩ := by
  obtain ⟨hreads, hne, hflat⟩ := ha
  obtain ⟨hstore, houtcome⟩ := handleList_owned t.kernel cur t.service (t.kernel.proc client).pid
    (inside_owns hs.inside)
  constructor
  · change Mirror (handleList t.kernel cur t.service (t.kernel.proc client).pid path).1.store t.alone.nodes
    rwa [hstore]
  · change SameOutcome _ (handleList t.kernel cur t.service (t.kernel.proc client).pid path).2.2.outcome
      (callList t.alone client path)
    rw [houtcome, callList_eq (inside_pseudo hs.inside) hs.canonical hreads]
    have hfolder : SameFolder t.service.store t.alone.nodes path := by
      refine ⟨?_, hm.distinct, hm.single, fun q hq => hm.files q (inside_child hs.inside hq), hflat⟩
      rintro rfl
      exact absurd hs.inside (by decide)
    exact hfolder.same (hm.dirs ▸ seeds_hidden hs.inside) hne

end

end Siathos.Fsd
