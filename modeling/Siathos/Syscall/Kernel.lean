import Siathos.Lib.Call
import Siathos.Nomos.Auth
import Siathos.Nomos.Synallagma
import Siathos.Fs.Vfs
import Siathos.Ipc.Mailbox
import Siathos.Ipc.Svc
import Siathos.Proc.Umap

/-!
# The kernel as system calls see it

The process table, the checks on user pointers, and the creation of processes.
-/

open Lib Siathos.Nomos Siathos.Fs Siathos.Ipc Siathos.Proc

namespace Siathos.Syscall

abbrev U64 := BitVec 64

inductive ProcState
  | created
  | ready
  | running
  | blocked
  | terminated
  deriving DecidableEq, Repr

/-- `process_t`. `session` and `login` are ghost state: the first ancestor that the kernel started,
and the capabilities of the account under which the process, or the parent it came from, logged in. -/
structure Process where
  present : Bool
  pid : Nat
  name : CStr
  rights : Rights
  state : ProcState
  parent : Nat
  exitCode : BitVec 32
  isUser : Bool
  waitPid : Nat
  waitCode : BitVec 32
  umap : List Region
  umapHeap : Option Nat
  devioBase : U64
  devioUsed : U64
  session : Nat
  login : Option Rights
  deriving DecidableEq, Repr

def emptySlot : Process :=
  ⟨false, 0, [], 0, .created, 0, 0, false, 0, 0, [], none, 0, 0, 0, none⟩

/-- `verified` is ghost state: the sessions in which `SYS_AUTH_VERIFY` accepted a password, with the
account's name. -/
structure Kernel where
  procs : List Process
  nextPid : Nat
  auth : Auth
  synallagma : Synallagma
  nodes : Nodes
  mailboxes : Mailboxes
  svcTable : SvcTable
  verified : List (Nat × CStr)

/-- What is fixed when the kernel is built: the password hash, and the embedded modules with their
kormi flag. -/
structure Machine where
  pbkdf2 : List UInt8 → List UInt8 → List UInt8
  mods : List (CStr × Bool)

/-- How the ELF loader ends: before it takes a slot, after it, or with the regions it mapped. -/
inductive Load
  | rejected
  | aborted
  | loaded (umap : List Region)
  deriving DecidableEq, Repr

/-- What a call meets outside the tables of the kernel. -/
structure Env where
  /-- The memory of the caller. -/
  mem : U64 → UInt8
  ticks : Nat
  memTotal : Nat
  memFree : Nat
  /-- What `gen_salt` and `auth_ticket_token` produce. -/
  salt : CStr
  tok : U64
  /-- The key that `keyboard_getc_nonblock` finds. -/
  key : Option UInt8
  port : BitVec 32
  phys : U64
  kmallocOk : Bool
  /-- `SYS_MMAP` and `SYS_DEV_MAP` find a frame and tables for each page. -/
  mapsPages : Bool
  loadEmbedded : Load
  loadFile : Load

/-- Bytes of the caller that the kernel reads or writes. -/
structure Access where
  addr : U64
  len : Nat
  write : Bool
  deriving DecidableEq, Repr

abbrev SysM := Call Kernel Access U64

/-- The error value of system calls. -/
def err : U64 := 0xFFFFFFFFFFFFFFFF

/-! ## Processes -/

def Kernel.proc (k : Kernel) (cur : Nat) : Process := k.procs.getD cur emptySlot

def Kernel.setProc (k : Kernel) (cur : Nat) (f : Process → Process) : Kernel :=
  { k with procs := k.procs.modify cur f }

def procGet (k : Kernel) (pid : Nat) : Option Process :=
  k.procs.find? fun p => p.present && decide (p.pid = pid)

/-- Changes the process that `proc_get` finds. -/
def updatePid (pid : Nat) (f : Process → Process) : List Process → List Process
  | [] => []
  | p :: rest => if p.present && decide (p.pid = pid) then f p :: rest else p :: updatePid pid f rest

def findFree (k : Kernel) : Option Nat :=
  k.procs.findIdx? fun p => !p.present || decide (p.state = .terminated)

/-- The process that `svc_query` takes for alive. -/
def alive (k : Kernel) (pid : Nat) : Bool := (procGet k pid).any fun p => p.state ≠ .terminated

def schedWakeup (pid : Nat) (k : Kernel) : Kernel :=
  { k with
    procs := updatePid pid (fun p => if p.state = .blocked then { p with state := .ready } else p) k.procs }

def procExit (cur : Nat) (code : BitVec 32) (k : Kernel) : Kernel :=
  let me := k.proc cur
  let told := updatePid me.parent
    (fun p => { p with
      waitPid := me.pid
      waitCode := code
      state := if p.state = .blocked then .ready else p.state })
    k.procs
  { k with procs := told.modify cur fun p => { p with exitCode := code, state := .terminated } }

def procGcRun (k : Kernel) : Kernel :=
  { k with procs := k.procs.map fun p => if p.state = .terminated then { p with present := false } else p }

/-! ## Creation of processes -/

def procNameMax : Nat := 64

/-- `proc_create_user_regions`, called by the process in the slot `cur`. -/
def procCreateUserRegions (cur : Nat) (name : CStr) (rights : Rights) (load : Load) (k : Kernel) :
    Kernel × Option Nat :=
  match findFree k with
  | none => (k, none)
  | some idx =>
    let me := k.proc cur
    let p : Process :=
      { emptySlot with
        pid := k.nextPid
        name := cut procNameMax name
        rights := rights
        state := .ready
        parent := me.pid
        isUser := true
        session := me.session
        login := me.login }
    match load with
    | .rejected => (k, none)
    | .aborted => ({ k with procs := k.procs.set idx p, nextPid := k.nextPid + 1 }, none)
    | .loaded umap =>
      ({ k with procs := k.procs.set idx { p with present := true, umap }, nextPid := k.nextPid + 1 },
        some k.nextPid)

/-- The rights that every ring-3 process gets. -/
def baseRights : Rights := capSyscall ||| capFsRead ||| capFsWrite ||| capExec ||| capIpc

def execElfCore (cur : Nat) (pname : CStr) (load : Load) (k : Kernel) : Kernel × Option Nat :=
  match load with
  | .rejected => (k, none)
  | _ =>
    let rights := if (loginResultUser k.auth).isSome then baseRights ||| (k.proc cur).rights else baseRights
    procCreateUserRegions cur pname rights load k

def execEmbeddedArgs (m : Machine) (cur : Nat) (name : CStr) (load : Load) (k : Kernel) :
    Kernel × Option Nat :=
  if name = [] then (k, none)
  else if m.mods.any (fun mod => mod.1 = name) then execElfCore cur name load k
  else (k, none)

/-- The last component of a path. -/
def basename (path : CStr) : CStr := (path.reverse.takeWhile (· != slash)).reverse

def execElfArgs (env : Env) (cur : Nat) (path : CStr) (k : Kernel) : Kernel × Option Nat :=
  if path = [] || !env.kmallocOk then (k, none)
  else match fsRead k.nodes path (1024 * 1024) with
    | none => (k, none)
    | some img => if img.length < 64 then (k, none) else execElfCore cur (basename path) env.loadFile k

def policy (cur : Nat) (k : Kernel) : Policy := ⟨k.auth, k.synallagma, (k.proc cur).rights⟩

def sysdirs : List CStr := [ascii "/bin/", ascii "/kormi/", ascii "/praxis/"]

/-- The module that a path under a system directory names. -/
def embeddedName (path : CStr) : Option CStr :=
  (sysdirs.find? fun d => d.isPrefixOf path && decide (path.length > d.length) &&
    !(path.drop d.length).contains slash).map fun d => path.drop d.length

def execSysdir (m : Machine) (env : Env) (cur : Nat) (path : CStr) (k : Kernel) : Kernel × Option Nat :=
  match embeddedName path with
  | some name => execEmbeddedArgs m cur name env.loadEmbedded k
  | none => (k, none)

def execFile (env : Env) (cur : Nat) (path : CStr) (k : Kernel) : Kernel × Option Nat :=
  if !fsExists k.nodes path then (k, none)
  else if !vfsCheckCap (policy cur k) path capFsRead then (k, none)
  else execElfArgs env cur path k

/-- `exec_user_path`: a module of the table, or else a file. -/
def execUserPath (m : Machine) (env : Env) (cur : Nat) (path : CStr) (k : Kernel) :
    Kernel × Option Nat :=
  if path = [] then (k, none)
  else
    let r := execSysdir m env cur path k
    if r.2.isSome then r else execFile env cur path r.1

/-! ## User memory -/

def syscallCap (cur : Nat) (need : Rights) : SysM Unit := do
  let k ← Call.read
  Call.demand ((k.proc cur).rights = capAll || (k.proc cur).rights &&& need ≠ 0) err

def userPtrOk (p : Process) (addr len : U64) : Bool :=
  if addr = 0 then len = 0
  else if len = 0 then true
  else if addr + len < addr then false
  else if !p.isUser then true
  else p.umap.any fun r =>
    r.size ≠ 0 && decide (addr ≥ r.base) && decide (addr - r.base < r.size) &&
      decide (addr - r.base + len ≤ r.size)

def checkPtr (cur : Nat) (addr len : U64) : SysM Unit := do
  let k ← Call.read
  Call.demand (userPtrOk (k.proc cur) addr len) err

/-- The loop of `user_str`, with room for `n` bytes. -/
def userStrFrom (p : Process) (mem : U64 → UInt8) (src : U64) : Nat → List Access × Option CStr
  | 0 => ([], none)
  | n + 1 =>
    if !userPtrOk p src 1 then ([], none)
    else if mem src = 0 then ([⟨src, 1, false⟩], some [])
    else if n = 0 then ([⟨src, 1, false⟩], none)
    else
      let rest := userStrFrom p mem (src + 1) n
      (⟨src, 1, false⟩ :: rest.1, rest.2.map (mem src :: ·))

def userStr (env : Env) (cur : Nat) (src : U64) (dstMax : Nat) : SysM CStr := do
  Call.demand (src ≠ 0) err
  let k ← Call.read
  let r := userStrFrom (k.proc cur) env.mem src dstMax
  Call.touch r.1
  match r.2 with
  | some s => pure s
  | none => Call.stop err

def bytesAt (mem : U64 → UInt8) (addr : U64) (n : Nat) : List UInt8 :=
  (List.range n).map fun i => mem (addr + BitVec.ofNat 64 i)

/-- A little-endian word of the caller. -/
def wordAt (mem : U64 → UInt8) (addr : U64) (n : Nat) : U64 :=
  (bytesAt mem addr n).foldr (fun b w => w <<< 8 ||| b.toBitVec.setWidth 64) 0

end Siathos.Syscall
