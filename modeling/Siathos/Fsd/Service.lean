import Siathos.Syscall.Dispatch

/-!
# The file service (`fsd.c`)

'fsd' keeps copies of `/paradosis` and `/nomos` and serves them itself. What it does not own it asks of
the kernel, under its own rights.
-/

open Lib Siathos.Nomos Siathos.Fs Siathos.Syscall

namespace Siathos.Fsd

def stMax : Nat := 16
def stData : Nat := 512
def stDirs : Nat := 8
def stPath : Nat := 48
def auditMax : Nat := 16
def auditPath : Nat := 44
def respMax : Nat := 4096

def paradosis : CStr := ascii "/paradosis"
def nomos : CStr := ascii "/nomos"

/-! ## The trail -/

structure AuditEntry where
  op : UInt8
  sender : Nat
  path : CStr
  deriving DecidableEq, Repr

/-- `audit_push`. Once the trail is full, every entry goes to its first place. -/
def auditPush (trail : List AuditEntry) (op : UInt8) (sender : Nat) (path : CStr) : List AuditEntry :=
  let e : AuditEntry := ⟨op, sender, cut auditPath path⟩
  if trail.length < auditMax then trail ++ [e] else trail.set (trail.length % auditMax) e

def auditLine (e : AuditEntry) : CStr :=
  [if e.op = 0 then 0x20 else e.op] ++ ascii "pid" ++ [UInt8.ofNat (0x30 + e.sender % 10)] ++ ascii " " ++
    e.path ++ ascii "\n"

/-- `IPC_TYPE_FS_AUDIT`: the latest entry first. -/
def auditText (trail : List AuditEntry) : CStr :=
  trail.reverse.foldl
    (fun used e => if used.length + 8 + auditPath + 1 < respMax then used ++ auditLine e else used) []

/-! ## The store -/

/-- `st_file_t`. -/
structure StFile where
  path : CStr
  data : List UInt8
  path_lt : path.length < stPath
  data_lt : data.length < stData

theorem cut_lt {n : Nat} (hn : 0 < n) (s : CStr) : (cut n s).length < n := by
  unfold cut
  rw [List.length_take]
  omega

/-- A file as `fsd_st_set` stores it. -/
def stFile (path : CStr) (data : List UInt8) : StFile :=
  ⟨cut stPath path, cut stData data, cut_lt (by decide) path, cut_lt (by decide) data⟩

structure Store where
  files : List StFile
  dirs : List CStr
  files_le : files.length ≤ stMax
  dirs_le : dirs.length ≤ stDirs

def emptyStore : Store := ⟨[], [], Nat.zero_le _, Nat.zero_le _⟩

def fsdStFind (st : Store) (path : CStr) : Option Nat := st.files.findIdx? fun f => f.path = path

def fsdStDirFind (st : Store) (path : CStr) : Option Nat := st.dirs.findIdx? fun d => d = path

/-- `fsd_st_mkdir`. Nothing where it returns an error. -/
def fsdStMkdir (st : Store) (path : CStr) : Option Store :=
  if path = [] then none
  else if (fsdStDirFind st path).isSome then some st
  else if h : st.dirs.length < stDirs then
    some { st with dirs := st.dirs ++ [cut stPath path], dirs_le := by simpa using Nat.succ_le_of_lt h }
  else none

/-- `fsd_st_set`. -/
def fsdStSet (st : Store) (path : CStr) (data : List UInt8) : Option Store :=
  match fsdStFind st path with
  | some i =>
    let store (f : StFile) : StFile := { f with data := cut stData data, data_lt := cut_lt (by decide) data }
    some { st with files := st.files.modify i store, files_le := by simpa using st.files_le }
  | none =>
    if h : st.files.length < stMax then
      some { st with files := st.files ++ [stFile path data], files_le := by simpa using Nat.succ_le_of_lt h }
    else none

/-- The last element takes the place of the one that goes. -/
def swapRemove {α : Type} (l : List α) (i : Nat) : List α := ((l.getLast?.map (l.set i ·)).getD l).dropLast

theorem length_swapRemove {α : Type} (l : List α) (i : Nat) : (swapRemove l i).length = l.length - 1 := by
  unfold swapRemove
  cases l.getLast? <;> simp

/-- `fsd_st_remove`. -/
def fsdStRemove (st : Store) (path : CStr) : Option Store :=
  (fsdStFind st path).map fun i =>
    { st with
      files := swapRemove st.files i
      files_le := by
        rw [length_swapRemove]
        exact Nat.le_trans (Nat.sub_le _ _) st.files_le }

/-- `fsd_handler` takes a folder of its own out, but not the two roots. -/
def fsdStRmdir (st : Store) (path : CStr) : Option Store :=
  if path = paradosis ∨ path = nomos then none
  else (fsdStDirFind st path).map fun i =>
    { st with
      dirs := st.dirs.eraseIdx i
      dirs_le := Nat.le_trans (List.length_eraseIdx_le st.dirs i) st.dirs_le }

/-- The name under which `fsd_st_list` shows a path. -/
def entryName (dir p : CStr) : Option CStr :=
  if p = dir || !dir.isPrefixOf p then none
  else if (p.drop dir.length).head? ≠ some slash then none
  else if (p.drop (dir.length + 1)).contains slash then none
  else some (p.drop (dir.length + 1))

/-- A line that does not fit is left out. -/
def stLines (dir : CStr) (max : Nat) (kind : CStr) (used : CStr) : List CStr → CStr
  | [] => used
  | p :: rest =>
    match entryName dir p with
    | none => stLines dir max kind used rest
    | some nome =>
      if used.length + 10 + nome.length < max then
        stLines dir max kind (used ++ ascii "  " ++ kind ++ ascii "   " ++ nome ++ ascii "\n") rest
      else stLines dir max kind used rest

/-- `fsd_st_list`. -/
def fsdStList (st : Store) (dir : CStr) (max : Nat) : CStr :=
  stLines dir max (ascii "<DIR>") (stLines dir max (ascii "<ARQ>") [] (st.files.map (·.path))) st.dirs

/-- `fsd_st_owns`. -/
def fsdStOwns (path : CStr) : Bool :=
  decide (path = paradosis) || decide (path = nomos) || (paradosis ++ [slash]).isPrefixOf path ||
    (nomos ++ [slash]).isPrefixOf path

/-! ## What it asks of the kernel -/

/-- The path of a `SYS_FS_*` call, where the process may make the call and the path fits. -/
def sysPath (k : Kernel) (cur : Nat) (need : Rights) (path : CStr) : Option CStr :=
  let p := k.proc cur
  let may (r : Rights) := p.rights = capAll || p.rights &&& r ≠ 0
  if may capSyscall && may need && decide (path.length < fsNameMax) then some path else none

variable (env : Env) (k : Kernel) (cur : Nat)

def callRead (path : CStr) (max : Nat) : Option (List UInt8) :=
  (sysPath k cur capFsRead path).bind (vfsRead (sysinfo env k) (policy cur k) k.nodes root · max)

def callList (path : CStr) : Option CStr :=
  (sysPath k cur capFsRead path).bind (vfsList (policy cur k) k.nodes root · 4096)

def callCreate (type : FsType) (path : CStr) : Nodes × Bool :=
  match (sysPath k cur capFsWrite path).bind (vfsCreate (policy cur k) k.nodes root · type) with
  | some nodes => (nodes, true)
  | none => (k.nodes, false)

def callWrite (path : CStr) (data : List UInt8) : Nodes × Bool :=
  match sysPath k cur capFsWrite path with
  | some path => vfsWrite env.kmallocOk (policy cur k) k.nodes root path data
  | none => (k.nodes, false)

def callRemove (path : CStr) : Nodes × Bool :=
  match (sysPath k cur capFsWrite path).bind (vfsRemove (policy cur k) k.nodes root ·) with
  | some nodes => (nodes, true)
  | none => (k.nodes, false)

/-! ## The seed -/

def dirSeeds : List CStr :=
  [ascii "/bin", ascii "/kormi", nomos, paradosis, ascii "/idios", ascii "/oikos", ascii "/synallagma",
    ascii "/praxis"]

def skipSpaces (s : CStr) : CStr := s.dropWhile (· == 0x20)

def skipLine (s : CStr) : CStr := (s.dropWhile (· != 0x0A)).drop 1

theorem all_ne {c : UInt8} {l : List UInt8} (h : c ∉ l) : ∀ b ∈ l, (b != c) = true := by
  intro b hb
  simpa using ne_of_mem_of_not_mem hb h

theorem skipLine_line {l : CStr} (h : 0x0A ∉ l) (rest : CStr) : skipLine (l ++ 0x0A :: rest) = rest := by
  unfold skipLine
  rw [List.dropWhile_append_of_pos (all_ne h)]
  simp

/-- The files of a listing, as `fsd_st_seed` reads it: names of at most 39 bytes. What is left of a longer
name counts as a line. -/
def seedNames : Nat → CStr → List CStr
  | 0, _ => []
  | fuel + 1, p =>
    let p := skipSpaces p
    if p = [] then []
    else if !(ascii "<ARQ>").isPrefixOf p then seedNames fuel (skipLine p)
    else
      let p := skipSpaces (p.drop 5)
      let name := (p.takeWhile (· != 0x0A)).take 39
      let rest := p.drop name.length
      let rest := if rest.head? = some 0x0A then rest.drop 1 else rest
      if name = [] then seedNames fuel rest else name :: seedNames fuel rest

/-- Copies one file of the kernel. -/
def seedFile (src : CStr) (st : Store) (name : CStr) : Store :=
  if src.length + 1 + name.length < 64 then
    let full := src ++ [slash] ++ name
    match callRead env k cur full (stData - 1) with
    | none => st
    | some data => (fsdStSet st full data).getD st
  else st

def seedDir (st : Store) (src : CStr) : Store :=
  match callList k cur src with
  | none => st
  | some text =>
    let list := text.take 511
    (seedNames (list.length + 1) list).foldl (seedFile env k cur src) st

/-- `fsd_st_seed`. -/
def fsdStSeed : Store :=
  [nomos, paradosis].foldl (seedDir env k cur) { emptyStore with dirs := dirSeeds, dirs_le := by decide }

/-! ## Requests -/

def ipcTypePing : Nat := 1
def ipcTypeRead : Nat := 2
def ipcTypeList : Nat := 3
def ipcTypeFsCreate : Nat := 11
def ipcTypeFsWrite : Nat := 12
def ipcTypeFsRemove : Nat := 13
def ipcTypeFsAudit : Nat := 14
def ipcTypeFsMkdir : Nat := 15

inductive Reply
  | data (bytes : List UInt8)
  | refused (texto : CStr)
  | flag (ok : Bool)
  | text (bytes : CStr)
  deriving DecidableEq, Repr

/-- The answer as it is sent. -/
def Reply.bytes : Reply → List UInt8
  | .data bytes => bytes
  | .refused texto => texto
  | .flag ok => ascii (if ok then "1" else "0")
  | .text bytes => bytes

/-- The statics of `fsd.c`. -/
structure Service where
  store : Store
  trail : List AuditEntry

def audited (s : Service) (op : Char) (sender : Nat) (path : CStr) : Service :=
  { s with trail := auditPush s.trail (UInt8.ofNat op.toNat) sender path }

/-- What a request leaves: the service, the kernel's files and the answer. -/
abbrev Handled := Service × Nodes × Reply

def ownAnswer (s : Service) : Option Store → Handled
  | some store => ({ s with store }, k.nodes, .flag true)
  | none => (s, k.nodes, .flag false)

def kernelAnswer (s : Service) (r : Nodes × Bool) : Handled := (s, r.1, .flag r.2)

def handleRead (s : Service) (sender : Nat) (req : CStr) : Handled :=
  if req = [] then (audited s 'r' sender (ascii "?"), k.nodes, .refused (ascii "erro: path vazio"))
  else
    let s := audited s 'r' sender req
    if fsdStOwns req then
      match fsdStFind s.store req with
      | none => (s, k.nodes, .refused (ascii "erro: nao encontrado"))
      | some i => (s, k.nodes, .data ((s.store.files[i]?.map (·.data)).getD []))
    else
      match callRead env k cur req (respMax - 1) with
      | none => (s, k.nodes, .refused (ascii "erro: nao encontrado"))
      | some data => (s, k.nodes, .data data)

def handleList (s : Service) (sender : Nat) (req : CStr) : Handled :=
  if req = [] then (audited s 'l' sender (ascii "?"), k.nodes, .refused (ascii "erro: dir invalido"))
  else
    let s := audited s 'l' sender req
    if fsdStOwns req then (s, k.nodes, .data (fsdStList s.store req (respMax - 1)))
    else
      match callList k cur req with
      | none => (s, k.nodes, .refused (ascii "erro: dir invalido"))
      | some text => (s, k.nodes, .data (text.take (respMax - 1)))

/-- What the service keeps of a path: 63 bytes. -/
def shortPath (path : CStr) : CStr := cut 64 path

def handleCreate (s : Service) (sender : Nat) (req : CStr) : Handled :=
  let f := shortPath req
  let s := audited s 'c' sender f
  if fsdStOwns f then ownAnswer k s (fsdStSet s.store f [])
  else kernelAnswer s (callCreate k cur .file f)

/-- The path of a request to write: what stands before the first newline. -/
def writePath (req : CStr) : CStr := req.takeWhile (· != 0x0A)

def writeData (req : CStr) : CStr := (req.dropWhile (· != 0x0A)).drop 1

def handleWrite (s : Service) (sender : Nat) (req : CStr) : Handled :=
  if req = [] then (audited s 'w' sender (ascii "?"), k.nodes, .flag false)
  else
    let f := shortPath (writePath req)
    let s := audited s 'w' sender f
    if fsdStOwns f then ownAnswer k s (fsdStSet s.store f (writeData req))
    else kernelAnswer s (callWrite env k cur f (writeData req))

def handleRemove (s : Service) (sender : Nat) (req : CStr) : Handled :=
  let f := shortPath req
  let s := audited s 'd' sender f
  if fsdStOwns f then ownAnswer k s ((fsdStRemove s.store f).or (fsdStRmdir s.store f))
  else kernelAnswer s (callRemove k cur f)

def handleMkdir (s : Service) (sender : Nat) (req : CStr) : Handled :=
  let f := shortPath req
  let s := audited s 'm' sender f
  if fsdStOwns f then ownAnswer k s (fsdStMkdir s.store f)
  else kernelAnswer s (callCreate k cur .dir f)

/-- `fsd_handler`. -/
def fsdHandler (s : Service) (sender type : Nat) (req : CStr) : Handled :=
  if type = ipcTypePing then (s, k.nodes, .text (ascii "pong"))
  else if type = ipcTypeRead then handleRead env k cur s sender req
  else if type = ipcTypeList then handleList k cur s sender req
  else if type = ipcTypeFsCreate then handleCreate k cur s sender req
  else if type = ipcTypeFsWrite then handleWrite env k cur s sender req
  else if type = ipcTypeFsRemove then handleRemove k cur s sender req
  else if type = ipcTypeFsMkdir then handleMkdir k cur s sender req
  else if type = ipcTypeFsAudit then (s, k.nodes, .text (auditText s.trail))
  else (s, k.nodes, .text (ascii "?"))

/-- The request that `spud_svc_serve` hands on, with its NUL. -/
def request (payload : List UInt8) : CStr := (payload.take 512).takeWhile (· != 0)

end Siathos.Fsd
