import Siathos.Fs.Ramfs
import Siathos.Nomos.Auth
import Siathos.Nomos.Synallagma

/-!
# Paths and policy (`vfs.c`)
-/

open Lib Siathos.Nomos

namespace Siathos.Fs

/-! ## Normalization -/

/-- The runs of bytes between slashes. -/
def components (s : CStr) : List CStr := (s.splitOn slash).filter (· ≠ [])

def dot : CStr := ascii "."
def dotdot : CStr := ascii ".."

/-- One turn of the loop of `vfs_normalize`, on a component that the buffer of 32 bytes may cut. -/
def normalizeStep (outMax : Nat) (out : Option CStr) (comp : CStr) : Option CStr :=
  out.bind fun out =>
    let comp := cut 32 comp
    if comp = dot then some out
    else if comp = dotdot then some (if (dirname out).isEmpty then root else dirname out)
    else if out.length > 1 then
      if out.length + 1 + comp.length ≥ outMax then none else some (out ++ [slash] ++ comp)
    else if 1 + comp.length ≥ outMax then none
    else some (root ++ comp)

/-- `vfs_normalize`. Nothing where it returns an error. -/
def vfsNormalize (cwd inp : CStr) (outMax : Nat) : Option CStr :=
  if inp = [] then some (cut outMax cwd)
  else
    let tmp := cut 512 (if inp.head? = some slash then inp
      else (if cwd = root then [] else cwd) ++ [slash] ++ inp)
    (components tmp).foldl (normalizeStep outMax) (some root)

/-! ## Policy -/

/-- What `vfs_check_cap` looks at. -/
structure Policy where
  auth : Auth
  synallagma : Synallagma
  rights : Rights

def dirOikos : CStr := ascii "/oikos"
def dirSynallagma : CStr := ascii "/synallagma"

def vfsCheckCap (p : Policy) (path : CStr) (need : Rights) : Bool :=
  let writeOp := need &&& (capFsWrite ||| capIdiosWrite ||| capNomosWrite) ≠ 0
  let u := loginResultUser p.auth
  let admin := u.any (·.isAdmin)
  let procCap := p.rights &&& need ≠ 0
  match synallagmaContractFor p.synallagma path with
  | some c =>
    if !synallagmaConsented p.synallagma c.caminho then false
    else if writeOp && !c.escrita then false
    else if !writeOp && !c.leitura && !c.execucao then false
    else if c.capsReq ≠ 0 && !admin && !u.any (fun u => u.caps &&& c.capsReq ≠ 0) && !procCap then false
    else true
  | none =>
    if underDir dirOikos path then !writeOp
    else if underDir dirSynallagma path then
      if writeOp then admin || u.any (fun u => u.caps &&& need ≠ 0) || procCap else true
    else true

/-! ## Pseudo files -/

def vfsIsPseudo (norm : CStr) : Bool :=
  underDir (ascii "/aisthesis") norm || underDir (ascii "/kinesis") norm

def vfsPseudoList (norm : CStr) : Option CStr :=
  if norm = ascii "/aisthesis" then some (ascii "memoria\nprocessos\n")
  else if norm = ascii "/kinesis" then some (ascii "processos\nuptime\n")
  else none

/-- What the pseudo files tell. -/
structure SysInfo where
  total : Nat
  free : Nat
  processes : Nat
  terminated : Nat
  procLines : List CStr
  ticks : Nat

/-- The pieces that `vfs_pseudo_read` appends for a path it knows. -/
def pseudoPieces (i : SysInfo) (norm : CStr) : Option (List CStr) :=
  if norm = ascii "/aisthesis/memoria" then
    some [ascii "Memoria total : ", decimal i.total, ascii " bytes\n",
      ascii "Memoria livre : ", decimal i.free, ascii " bytes\n",
      ascii "Memoria usada : ", decimal (i.total - i.free), ascii " bytes\n"]
  else if norm = ascii "/aisthesis/processos" then
    some [ascii "Processos ativos : ", decimal i.processes, ascii "\n",
      ascii "Processos terminados : ", decimal i.terminated, ascii "\n"]
  else if norm = ascii "/kinesis/processos" then some i.procLines
  else if norm = ascii "/kinesis/uptime" then
    some [ascii "Uptime : ", decimal (i.ticks * 10), ascii " ms\n",
      ascii "Ticks  : ", decimal i.ticks, ascii "\n"]
  else none

/-- The places that `APPEND` writes to: offset and length of each piece that fits. -/
def appendSpans (max used : Nat) : List CStr → List (Nat × Nat)
  | [] => []
  | s :: rest =>
    if used + s.length < max then (used, s.length) :: appendSpans max (used + s.length) rest
    else appendSpans max used rest

/-- `vfs_pseudo_read`: what it writes into the buffer, the NUL at its start first. -/
def vfsPseudoRead (i : SysInfo) (norm : CStr) (max : Nat) : List (Nat × Nat) :=
  match pseudoPieces i norm with
  | some pieces => (0, 1) :: appendSpans max 0 pieces
  | none => [(0, 1), (0, 1)]

/-- The bytes that `vfs_pseudo_read` returns. -/
def pseudoSize (i : SysInfo) (norm : CStr) (max : Nat) : Nat :=
  (appendSpans max 0 ((pseudoPieces i norm).getD [])).foldl (fun n s => n + s.2) 0

/-- The text of a pseudo file, in a buffer of `max` bytes. -/
def pseudoText (i : SysInfo) (norm : CStr) (max : Nat) : CStr :=
  appendLines max [] ((pseudoPieces i norm).getD [])

/-! ## Operations -/

/-- The normalized path, where the policy lets it through. -/
def vfsPath (p : Policy) (cwd path : CStr) (need : Rights) : Option CStr :=
  (vfsNormalize cwd path fsNameMax).filter (vfsCheckCap p · need)

/-- `vfs_open`: what it copies out. No check is made where the path is empty. -/
def vfsOpen (p : Policy) (ns : Nodes) (cwd path : CStr) : Option CStr :=
  if path = [] then some (cwd.take fsNameMax)
  else (vfsNormalize cwd path fsNameMax).bind fun norm =>
    if norm.length ≥ fsNameMax then none
    else if !fsExists ns norm then none
    else if !vfsCheckCap p norm capFsRead then none
    else some norm

def vfsCreate (p : Policy) (ns : Nodes) (cwd path : CStr) (type : FsType) : Option Nodes :=
  (vfsPath p cwd path capFsWrite).bind (fsCreate ns · type)

def vfsMkdir (p : Policy) (ns : Nodes) (cwd path : CStr) : Option Nodes := vfsCreate p ns cwd path .dir

def vfsRead (i : SysInfo) (p : Policy) (ns : Nodes) (cwd path : CStr) (max : Nat) : Option (List UInt8) :=
  (vfsPath p cwd path capFsRead).bind fun norm =>
    if vfsIsPseudo norm then
      if (pseudoText i norm max).length > 0 then some (pseudoText i norm max) else none
    else fsRead ns norm max

def vfsWrite (kmallocOk : Bool) (p : Policy) (ns : Nodes) (cwd path : CStr) (data : List UInt8) :
    Nodes × Bool :=
  match vfsPath p cwd path capFsWrite with
  | none => (ns, false)
  | some norm =>
    if vfsIsPseudo norm then (ns, false)
    else
      match if fsExists ns norm then some ns else fsCreate ns norm .file with
      | none => (ns, false)
      | some ns =>
        match fsWrite kmallocOk ns norm data with
        | none => (ns, false)
        | some ns => (ns, true)

def vfsRemove (p : Policy) (ns : Nodes) (cwd path : CStr) : Option Nodes :=
  (vfsPath p cwd path capFsWrite).bind (fsRemove ns ·)

def vfsCopy (kmallocOk : Bool) (p : Policy) (ns : Nodes) (cwd src dst : CStr) : Nodes × Bool :=
  match vfsPath p cwd src capFsRead, vfsPath p cwd dst capFsWrite with
  | some nsrc, some ndst => fsCopy kmallocOk ns nsrc ndst
  | _, _ => (ns, false)

def vfsMove (kmallocOk : Bool) (p : Policy) (ns : Nodes) (cwd src dst : CStr) : Nodes × Bool :=
  match vfsPath p cwd src capFsRead, vfsPath p cwd dst capFsWrite with
  | some nsrc, some ndst => fsMove kmallocOk ns nsrc ndst
  | _, _ => (ns, false)

def vfsList (p : Policy) (ns : Nodes) (cwd path : CStr) (max : Nat) : Option CStr :=
  (vfsPath p cwd path capFsRead).map fun norm =>
    match if vfsIsPseudo norm then vfsPseudoList norm else none with
    | some text => text
    | none => fsList ns norm max

end Siathos.Fs
