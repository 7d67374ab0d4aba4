import Mathlib.Algebra.Group.Nat.Defs
import Siathos.Syscall.Kernel

/-!
# The system calls (`syscall.c`)

One definition for each case of `syscall_dispatch`. `cur` is the slot of `current_proc`.
-/

open Lib Siathos.Nomos Siathos.Fs Siathos.Ipc Siathos.Proc

namespace Siathos.Syscall

variable (m : Machine) (env : Env) (cur : Nat)

/-- The low 32 bits of an argument. -/
def u32 (a : U64) : Nat := a.toNat % 2 ^ 32

def minSize (a : U64) (n : Nat) : U64 := if a.toNat > n then BitVec.ofNat 64 n else a

/-- Copies a result of `len` bytes to the caller. -/
def copyOut (addr : U64) (len : Nat) : SysM Unit := do
  checkPtr cur addr (BitVec.ofNat 64 len)
  Call.touch [⟨addr, len, true⟩]

/-! ## Console and processes -/

def sysExit (a1 : U64) : SysM U64 := do
  Call.change (procExit cur (a1.setWidth 32))
  pure 0

def sysWrite (a2 a3 : U64) : SysM U64 := do
  let n := minSize a3 4096
  checkPtr cur a2 n
  Call.touch [⟨a2, n.toNat, false⟩]
  pure n

/-- The arguments of `SYS_EXEC`, from the index `i` on. -/
def execArgs (a3 : U64) : Nat → Nat → SysM Unit
  | _, 0 => pure ()
  | i, n + 1 => do
    Call.touch [⟨a3 + BitVec.ofNat 64 (8 * i), 8, false⟩]
    let s := wordAt env.mem (a3 + BitVec.ofNat 64 (8 * i)) 8
    Call.when (s ≠ 0) (discard (userStr env cur s 128))
    execArgs a3 (i + 1) n

/-- `argc`, brought between 0 and 16. -/
def execArgc (a2 : U64) : Nat := min ((a2.setWidth 32).toInt.toNat) 16

def sysExec (a1 a2 a3 : U64) : SysM U64 := do
  Call.demand (a1 ≠ 0) err
  syscallCap cur capExec
  let path ← userStr env cur a1 fsNameMax
  let argc := execArgc a2
  Call.when (argc > 0 ∧ a3 ≠ 0) do
    checkPtr cur a3 (BitVec.ofNat 64 (argc * 8))
    execArgs env cur a3 0 argc
  let k ← Call.read
  Call.change fun k => (execUserPath m env cur path k).1
  match (execUserPath m env cur path k).2 with
  | some pid => pure (BitVec.ofNat 64 pid)
  | none => Call.stop err

def sysYield : SysM U64 := do
  let k ← Call.read
  Call.when ((k.proc cur).isUser = false) (Call.change procGcRun)
  pure 0

/-- `proc_waitpid`. A call that blocks ends here, and is made again when the process wakes up. -/
def sysWaitpid (a1 : U64) : SysM U64 := do
  Call.demand (a1 ≠ 0) err
  let k ← Call.read
  let pid := u32 a1
  let me := k.proc cur
  match procGet k pid with
  | none => Call.stop err
  | some kid =>
    Call.demand (kid.parent = me.pid) err
    if me.waitPid = pid then do
      Call.change fun k => k.setProc cur fun p => { p with waitPid := 0 }
      Call.demand (!me.waitCode.msb) err
      pure (me.waitCode.setWidth 64)
    else if kid.state = .terminated then Call.stop err
    else do
      Call.change fun k => k.setProc cur fun p => { p with state := .blocked }
      pure 0

/-! ## Messages -/

def canIpc (k : Kernel) : Bool := (k.proc cur).rights &&& capIpc ≠ 0

/-- `do_send`: at most 4096 bytes are read from `addr`. -/
def kernelSend (dst type : Nat) (addr size : U64) : SysM U64 := do
  let k ← Call.read
  let n := minSize size ipcMsgMax
  match doSend k.mailboxes (canIpc cur k) (k.proc cur).pid dst type (bytesAt env.mem addr n.toNat) 0 with
  | none => pure (if canIpc cur k then 0xFFFFFFFE else 0xFFFFFFFF)
  | some mailboxes => do
    Call.when (n ≠ 0) (Call.touch [⟨addr, n.toNat, false⟩])
    Call.change fun k => schedWakeup dst { k with mailboxes }
    pure 0

/-- `SYS_IPC_SEND` and `SYS_IPC_REPLY`. -/
def sysIpcSend (a1 a2 a3 a4 : U64) : SysM U64 := do
  syscallCap cur capIpc
  Call.when (a3 ≠ 0 ∧ a4 ≠ 0) (checkPtr cur a3 a4)
  kernelSend env cur (u32 a1) (u32 a2) a3 a4

/-- `ipc_try_receive` into a buffer of the caller: the message, and how much of it was copied. -/
def kernelReceive (addr max : U64) : SysM (Option (Message × U64)) := do
  let k ← Call.read
  let r := ipcTryReceive k.mailboxes (canIpc cur k) (k.proc cur).pid
  Call.change fun k => { k with mailboxes := r.1 }
  match r.2 with
  | none => pure none
  | some msg => do
    let n := if msg.payload.length > max.toNat then max else BitVec.ofNat 64 msg.payload.length
    Call.when (n ≠ 0) (Call.touch [⟨addr, n.toNat, true⟩])
    pure (some (msg, n))

/-- Stores a result where the caller asked for it. -/
def storeOpt (addr : U64) (len : Nat) : SysM Unit := Call.when (addr ≠ 0) (copyOut cur addr len)

def sysIpcRecv (a1 a2 a3 a4 : U64) : SysM U64 := do
  syscallCap cur capIpc
  Call.when (a1 ≠ 0) (checkPtr cur a1 a2)
  let got ← kernelReceive cur a1 a2
  storeOpt cur a3 4
  storeOpt cur a4 4
  match got with
  | some (_, n) => pure n
  | none => Call.stop err

def kbdName : CStr := ascii "kbd"

/-- The key that `SYS_READ` gets, from 'kbd' or from the ports. -/
def readKey : SysM UInt8 := do
  let k ← Call.read
  let q := svcQuery (alive k) k.svcTable kbdName
  Call.change fun k => { k with svcTable := q.1 }
  match q.2.filter (· > 0) with
  | none => pure (env.key.getD 0)
  | some kbd => do
    let k ← Call.read
    match doSend k.mailboxes (canIpc cur k) (k.proc cur).pid kbd 10 (ascii "g") 0 with
    | none => pure 0
    | some mailboxes => do
      Call.change fun k => schedWakeup kbd { k with mailboxes }
      let k ← Call.read
      let r := ipcTryReceive k.mailboxes (canIpc cur k) (k.proc cur).pid
      Call.change fun k => { k with mailboxes := r.1 }
      pure ((r.2.bind (·.payload.head?)).getD 0)

def sysRead (a1 a2 : U64) : SysM U64 := do
  let c ← readKey env cur
  if c = 0 then pure 0
  else do
    Call.when (a1 ≠ 0 ∧ a2 > 0) (copyOut cur a1 1)
    pure 1

def sysSvcRegister (a1 : U64) : SysM U64 := do
  syscallCap cur capIpc
  let name ← userStr env cur a1 32
  let k ← Call.read
  match svcRegister k.svcTable name (k.proc cur).pid with
  | none => Call.stop err
  | some svcTable => do
    Call.change fun k => { k with svcTable }
    pure 0

def sysSvcQuery (a1 a2 : U64) : SysM U64 := do
  Call.demand (a1 ≠ 0) err
  let name ← userStr env cur a1 32
  let k ← Call.read
  let q := svcQuery (alive k) k.svcTable name
  Call.change fun k => { k with svcTable := q.1 }
  match q.2 with
  | none => Call.stop err
  | some pid => do
    storeOpt cur a2 4
    pure (BitVec.ofNat 64 pid)

/-! ## Files -/

def sysFsWrite (a1 a2 a3 : U64) : SysM U64 := do
  syscallCap cur capFsWrite
  let path ← userStr env cur a1 fsNameMax
  checkPtr cur a2 a3
  let k ← Call.read
  let r := vfsWrite env.kmallocOk (policy cur k) k.nodes root path (bytesAt env.mem a2 a3.toNat)
  Call.when (r.2 ∧ a3 ≠ 0) (Call.touch [⟨a2, a3.toNat, false⟩])
  Call.change fun k => { k with nodes := r.1 }
  Call.demand r.2 err
  pure 0

def procLine (p : Process) : CStr :=
  let st := match p.state with
    | .created => "criado"
    | .ready => "pronto"
    | .running => "rodando"
    | .blocked => "bloqueado"
    | .terminated => "terminado"
  cut 128 (ascii "[" ++ decimal p.pid ++ ascii "] " ++ cut 64 p.name ++ ascii " " ++ ascii st ++ ascii " " ++
    ascii (if p.isUser then "ring3" else "ring0") ++ ascii "\n")

def sysinfo (k : Kernel) : SysInfo where
  total := env.memTotal
  free := env.memFree
  processes := (k.procs.filter (·.present)).length
  terminated := (k.procs.filter fun p => p.present && p.state = .terminated).length
  procLines := ((k.procs.filter (·.present)).take 64).map procLine
  ticks := env.ticks

/-- `vfs_read`, with the caller's buffer. -/
def kernelRead (path : CStr) (addr max : U64) : SysM U64 := do
  let k ← Call.read
  match vfsPath (policy cur k) root path capFsRead with
  | none => Call.stop err
  | some norm =>
    if vfsIsPseudo norm then do
      Call.touch ((vfsPseudoRead (sysinfo env k) norm max.toNat).map fun s =>
        ⟨addr + BitVec.ofNat 64 s.1, s.2, true⟩)
      let n := pseudoSize (sysinfo env k) norm max.toNat
      Call.demand (n > 0) err
      pure (BitVec.ofNat 64 n)
    else
      match fsRead k.nodes norm max.toNat with
      | none => Call.stop err
      | some data => do
        Call.when (data.length > 0 ∧ addr ≠ 0) (Call.touch [⟨addr, data.length, true⟩])
        pure (BitVec.ofNat 64 data.length)

def sysFsRead (a1 a2 a3 : U64) : SysM U64 := do
  syscallCap cur capFsRead
  let path ← userStr env cur a1 fsNameMax
  checkPtr cur a2 a3
  kernelRead env cur path a2 a3

def sysFsList (a1 a2 a3 : U64) : SysM U64 := do
  syscallCap cur capFsRead
  let path ← userStr env cur a1 fsNameMax
  let k ← Call.read
  Call.demand (vfsList (policy cur k) k.nodes root path 4096).isSome err
  let bsz := minSize (if a3 = 0 then 4096 else a3) 4096
  Call.when (a2 ≠ 0 ∧ bsz ≠ 0) (copyOut cur a2 bsz.toNat)
  pure 0

def sysFsCreate (a1 a2 : U64) : SysM U64 := do
  syscallCap cur capFsWrite
  let path ← userStr env cur a1 fsNameMax
  let k ← Call.read
  match vfsCreate (policy cur k) k.nodes root path (if a2 = 1 then .dir else .file) with
  | none => Call.stop err
  | some nodes => do
    Call.change fun k => { k with nodes }
    pure 0

def sysFsRemove (a1 : U64) : SysM U64 := do
  syscallCap cur capFsWrite
  let path ← userStr env cur a1 fsNameMax
  let k ← Call.read
  match vfsRemove (policy cur k) k.nodes root path with
  | none => Call.stop err
  | some nodes => do
    Call.change fun k => { k with nodes }
    pure 0

/-! ## Information -/

def sizeofSystemInfo : Nat := 48
def sizeofProcInfo : Nat := 80

def sysSysinfo (a1 : U64) : SysM U64 := do
  Call.demand (a1 ≠ 0) err
  copyOut cur a1 sizeofSystemInfo
  pure 0

/-- The entries that `SYS_PROC_LIST` asks for: 64 unless the argument is between 1 and 64. -/
def procListMax (a2 : U64) : Nat :=
  let max := (a2.setWidth 32).toInt
  if a2 = 0 ∨ max ≤ 0 ∨ max > 64 then 64 else max.toNat

def sysProcList (a1 a2 : U64) : SysM U64 := do
  let k ← Call.read
  let n := ((k.procs.filter (·.present)).take (procListMax a2)).length
  copyOut cur a1 (n * sizeofProcInfo)
  pure (BitVec.ofNat 64 n)

/-! ## Accounts and sessions -/

/-- Takes the new store, where the operation of `auth.c` gave one. -/
def authResult (r : Auth → Option Auth) : SysM U64 := do
  let k ← Call.read
  match r k.auth with
  | none => pure 0
  | some auth => do
    Call.change fun k => { k with auth }
    pure 1

def sysAuthCreate (a1 a2 : U64) : SysM U64 := do
  let k ← Call.read
  Call.demand (k.auth.accounts.length = 0) 0
  let name ← userStr env cur a1 authNameMax
  let pass ← userStr env cur a2 authNameMax
  Call.demand (name.length ≥ 3 && pass.length ≥ 4) 0
  authResult (authCreateUser m.pbkdf2 · name pass capAll true env.salt)

def sysAuthVerify (a1 a2 : U64) : SysM U64 := do
  let name ← userStr env cur a1 authNameMax
  let pass ← userStr env cur a2 authNameMax
  let k ← Call.read
  if authVerify m.pbkdf2 k.auth name pass then do
    Call.change fun k => { k with verified := ((k.proc cur).session, name) :: k.verified }
    pure 1
  else pure 0

def sysAuthList (a1 a2 : U64) : SysM U64 := do
  Call.demand (a1 ≠ 0 && a2 ≠ 0) err
  let bsz := (minSize a2 4096).toNat
  let k ← Call.read
  copyOut cur a1 (min ((authListText k.auth bsz).length + 1) bsz)
  pure 0

def sysAuthDelete (a1 : U64) : SysM U64 := do
  syscallCap cur capUserAdmin
  let name ← userStr env cur a1 authNameMax
  let k ← Call.read
  match authFind k.auth name with
  | none => pure 0
  | some i => do
    Call.demand (!(k.auth.accounts[i]?).any (·.isAdmin)) 0
    Call.demand (k.auth.currentUser ≠ some (.account i)) 0
    authResult (authUserDelete · name)

def sysAuthChangepw (a1 a2 a3 : U64) : SysM U64 := do
  let name ← userStr env cur a1 authNameMax
  let oldp ← userStr env cur a2 authNameMax
  let newp ← userStr env cur a3 authNameMax
  Call.demand (newp.length ≥ 4) 0
  let k ← Call.read
  match authFind k.auth name with
  | none => pure 0
  | some i =>
    if k.auth.currentUser = some (.account i) then
      authResult (authChangePassword m.pbkdf2 · name oldp newp env.salt)
    else do
      Call.demand ((k.proc cur).rights = capAll || (k.proc cur).rights &&& capUserAdmin ≠ 0) 0
      authResult (authChangePasswordAdmin m.pbkdf2 · name newp env.salt)

/-- The rights of a voluntary account. -/
def userRights : Rights := capFbDraw ||| capAisthesis ||| capFsRead ||| capIdiosWrite

def sysAuthCreateUser (a1 a2 : U64) : SysM U64 := do
  syscallCap cur capUserAdmin
  let name ← userStr env cur a1 authNameMax
  let pass ← userStr env cur a2 authNameMax
  Call.demand (name.length ≥ 3 && pass.length ≥ 4) 0
  let k ← Call.read
  Call.demand (authFind k.auth name).isNone 0
  authResult (authCreateUser m.pbkdf2 · name pass userRights false env.salt)

def sysContractList (a1 a2 : U64) : SysM U64 := do
  Call.demand (a1 ≠ 0 && a2 ≠ 0) err
  let bsz := (minSize a2 4096).toNat
  let k ← Call.read
  copyOut cur a1 (min ((contractText bsz [] k.synallagma.contracts).length + 1) bsz)
  pure 0

/-- The account of a login: a ticket's where a token is given, else one of the kernel's. -/
def loginAccount (name : CStr) (a3 : U64) (a : Auth) : Option (Auth × UserRef × Rights) :=
  if a3 ≠ 0 then
    (authTicketConsume a name a3).map fun a => (a, .synth, a.synthUser.caps)
  else
    (authFind a name).bind fun i => (a.accounts[i]?).map fun u => (a, .account i, u.caps)

def sysSessionLogin (a1 a2 a3 : U64) : SysM U64 := do
  let name ← userStr env cur a1 authNameMax
  let k ← Call.read
  match loginAccount name a3 k.auth with
  | none => pure 0
  | some (auth, user, caps) => do
    Call.change fun k => { k with auth }
    Call.demand (a2 ≠ 0) 0
    Call.change fun k => { k with
      synallagma := consentAll k.synallagma
      auth := loginSetUser k.auth (some user) }
    Call.change fun k => k.setProc cur fun p => { p with rights := p.rights ||| caps, login := some caps }
    pure 1

def sysAuthTicketIssue (a1 a2 a3 : U64) : SysM U64 := do
  syscallCap cur capUserAdmin
  let name ← userStr env cur a1 authNameMax
  let k ← Call.read
  match authTicketIssue k.auth name a2 env.tok (k.proc cur).rights with
  | none => Call.stop err
  | some auth => do
    Call.change fun k => { k with auth }
    storeOpt cur a3 8
    pure 0

def sysAuthHash (a1 a2 a3 : U64) : SysM U64 := do
  syscallCap cur capUserAdmin
  let _pw ← userStr env cur a1 64
  let _salt ← userStr env cur a2 33
  Call.demand (a3 ≠ 0) err
  copyOut cur a3 65
  pure 0

/-! ## Devices -/

def sizeofFbCmd : Nat := 40
def fbCmdTextMax : Nat := 128
def fbCmdText : U64 := 3
def fbCmdChar : U64 := 4

def sysFbDraw (a1 : U64) : SysM U64 := do
  syscallCap cur capFbDraw
  Call.demand (a1 ≠ 0) err
  checkPtr cur a1 (BitVec.ofNat 64 sizeofFbCmd)
  Call.touch [⟨a1, sizeofFbCmd, false⟩]
  let op := wordAt env.mem a1 4
  let text := wordAt env.mem (a1 + 32) 8
  Call.demand (op ≠ fbCmdChar) 0
  Call.when (op = fbCmdText) (discard (userStr env cur text (fbCmdTextMax + 1)))
  Call.demand (op ≤ fbCmdText) err
  pure 0

def sysIoPort (a1 a2 : U64) : SysM U64 := do
  syscallCap cur capDevIo
  let op := u32 a1
  Call.demand (op ≤ 5) err
  if a2.setWidth 16 = (0x60 : BitVec 16) ∧ op ≤ 2 then pure ((env.port.setWidth 8).setWidth 64)
  else if op = 0 then pure ((env.port.setWidth 8).setWidth 64)
  else if op = 1 then pure ((env.port.setWidth 16).setWidth 64)
  else if op = 2 then pure (env.port.setWidth 64)
  else pure 0

def sysMmap (a1 : U64) : SysM U64 := do
  let k ← Call.read
  let p := k.proc cur
  Call.demand p.isUser err
  let pages := if a1 = 0 then 1 else a1
  Call.demand (pages ≤ 8192) err
  match p.umapHeap with
  | none => do
    Call.demand (p.umap.length < umapMax) err
    Call.demand env.mapsPages err
    let base := heapStart p.umap
    Call.change fun k => k.setProc cur fun p =>
      { p with umap := p.umap ++ [⟨base, pages * 4096⟩], umapHeap := some p.umap.length }
    pure base
  | some slot => do
    Call.demand env.mapsPages err
    let r := p.umap.getD slot ⟨0, 0⟩
    Call.change fun k => k.setProc cur fun p =>
      { p with umap := p.umap.modify slot fun r => { r with size := r.size + pages * 4096 } }
    pure (r.base + r.size)

def userDevioBase : U64 := 0x00007ff000000000

def sysDevMap (a1 a2 : U64) : SysM U64 := do
  let k ← Call.read
  Call.demand (k.proc cur).isUser err
  syscallCap cur capDevIo
  Call.demand (a1 &&& 0xFFF = 0 && a2 ≠ 0 && decide (a2 ≤ 0x100000)) err
  let size := (a2 + 0xFFF) &&& ~~~0xFFF
  Call.change fun k => k.setProc cur fun p =>
    { p with devioBase := if p.devioBase = 0 then userDevioBase else p.devioBase }
  let k ← Call.read
  Call.demand env.mapsPages err
  Call.change fun k => k.setProc cur fun p => { p with devioUsed := p.devioUsed + size }
  pure ((k.proc cur).devioBase + (k.proc cur).devioUsed)

def sysV2p : SysM U64 := do
  let k ← Call.read
  Call.demand (k.proc cur).isUser err
  syscallCap cur capDevIo
  Call.demand (env.phys ≠ 0) err
  pure env.phys

/-! ## Dispatch -/

/-- The calls by number. `SYS_CONSOLE` clears the screen or stops the machine. -/
def dispatchNr (nr a1 a2 a3 a4 : U64) : SysM U64 :=
  match nr.toNat with
  | 0 => sysExit cur a1
  | 1 => sysWrite cur a2 a3
  | 2 => sysRead env cur a1 a2
  | 3 => sysExec m env cur a1 a2 a3
  | 4 => sysIpcSend env cur a1 a2 a3 a4
  | 5 => sysIpcRecv cur a1 a2 a3 a4
  | 6 => sysYield cur
  | 7 => sysFsRead env cur a1 a2 a3
  | 8 => sysFsWrite env cur a1 a2 a3
  | 9 => sysFsList env cur a1 a2 a3
  | 10 => do
    let k ← Call.read
    pure (BitVec.ofNat 64 (k.proc cur).pid)
  | 11 => sysIpcSend env cur a1 a2 a3 a4
  | 12 => sysSysinfo cur a1
  | 13 => pure (BitVec.ofNat 64 (env.ticks * 10))
  | 14 => do
    let k ← Call.read
    pure (BitVec.ofNat 64 (k.proc cur).parent)
  | 15 => sysProcList cur a1 a2
  | 16 => sysFsCreate env cur a1 a2
  | 17 => do
    let k ← Call.read
    pure (BitVec.ofNat 64 k.auth.accounts.length)
  | 18 => sysAuthCreate m env cur a1 a2
  | 19 => sysAuthVerify m env cur a1 a2
  | 20 => sysContractList cur a1 a2
  | 21 => sysSessionLogin env cur a1 a2 a3
  | 22 => pure 0
  | 23 => sysFsRemove env cur a1
  | 24 => sysWaitpid cur a1
  | 25 => sysSvcRegister env cur a1
  | 26 => sysSvcQuery env cur a1 a2
  | 27 => sysAuthList cur a1 a2
  | 28 => sysAuthDelete env cur a1
  | 29 => sysAuthChangepw m env cur a1 a2 a3
  | 30 => sysAuthCreateUser m env cur a1 a2
  | 31 => sysFbDraw env cur a1
  | 32 => sysIoPort env cur a1 a2
  | 33 => sysMmap env cur a1
  | 34 => sysDevMap env cur a1 a2
  | 35 => sysV2p env cur
  | 36 => sysAuthTicketIssue env cur a1 a2 a3
  | 37 => sysAuthHash env cur a1 a2 a3
  | _ => pure err

/-- `syscall_dispatch`. -/
def syscallDispatch (nr a1 a2 a3 a4 : U64) : SysM U64 := do
  syscallCap cur capSyscall
  dispatchNr m env cur nr a1 a2 a3 a4

end Siathos.Syscall
