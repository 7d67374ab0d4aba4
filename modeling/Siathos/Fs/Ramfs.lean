import Siathos.Lib.CStr

/-!
# The file system in memory (`fs.c`)

`fs_nodes` is the list of its slots. `kmallocOk` tells whether the heap has room for a new buffer.
-/

open Lib

namespace Siathos.Fs

def fsMaxFiles : Nat := 128
def fsMaxData : Nat := 4 * 1024 * 1024
def fsNameMax : Nat := 256

inductive FsType
  | file
  | dir
  deriving DecidableEq, Repr

/-- `fs_node_t`. The size of the file is the length of its data. -/
structure FsNode where
  path : CStr
  data : List UInt8
  capacity : Nat
  type : FsType
  used : Bool
  deriving DecidableEq, Repr

abbrev Nodes := List FsNode

def fsInit : Nodes := List.replicate fsMaxFiles ⟨[], [], 0, .file, false⟩

def root : CStr := [slash]

def fsGet (ns : Nodes) (path : CStr) : Option FsNode :=
  ns.find? fun n => n.used && decide (n.path = path)

/-- Changes the node that `fs_get` finds. -/
def updateNode (path : CStr) (f : FsNode → FsNode) : Nodes → Nodes
  | [] => []
  | n :: rest => if n.used && decide (n.path = path) then f n :: rest else n :: updateNode path f rest

def fsExists (ns : Nodes) (path : CStr) : Bool := decide (path = root) || (fsGet ns path).isSome

def fsIsDir (ns : Nodes) (path : CStr) : Bool :=
  decide (path = root) || (fsGet ns path).any (fun n => n.type = .dir)

def fsHasChildren (ns : Nodes) (path : CStr) : Bool :=
  ns.any fun n => n.used && path.isPrefixOf n.path && (n.path.drop path.length).head? == some slash

/-- The path up to its last slash. -/
def dirname (path : CStr) : CStr :=
  (path.reverse.dropWhile (· != slash)).drop 1 |>.reverse

/-- The parent that `fs_create` looks for. A path with no slash has none to look for. -/
def parentOk (ns : Nodes) (path : CStr) : Bool :=
  if path.contains slash then
    if (dirname path).isEmpty then decide (path.length ≠ 1)
    else decide ((dirname path).length < fsNameMax) && fsIsDir ns (dirname path)
  else true

/-- Takes the first slot that is not used. -/
def claimNode (n : FsNode) : Nodes → Option Nodes
  | [] => none
  | m :: rest => if m.used then (claimNode n rest).map (m :: ·) else some (n :: rest)

/-- `fs_create`. Nothing where it returns an error. -/
def fsCreate (ns : Nodes) (path : CStr) (type : FsType) : Option Nodes :=
  if path = root then none
  else if (fsGet ns path).isSome then none
  else if ns.all (·.used) then none
  else if !parentOk ns path then none
  else claimNode ⟨cut fsNameMax path, [], 0, type, true⟩ ns

/-- The loop that doubles the capacity. -/
def grownCapacity (size cap : Nat) : Nat → Nat
  | 0 => cap
  | fuel + 1 => if cap < size then grownCapacity size (cap * 2) fuel else cap

def fsWrite (kmallocOk : Bool) (ns : Nodes) (path : CStr) (data : List UInt8) : Option Nodes :=
  if data.length > fsMaxData then none
  else match fsGet ns path with
    | none => none
    | some n =>
      if n.type = .dir then none
      else if n.capacity < data.length then
        let cap := grownCapacity data.length (if n.capacity = 0 then 256 else n.capacity * 2) data.length
        if kmallocOk then some (updateNode path (fun n => { n with data, capacity := cap }) ns) else none
      else some (updateNode path (fun n => { n with data }) ns)

/-- `fs_read`: what it copies into a buffer of `max` bytes. -/
def fsRead (ns : Nodes) (path : CStr) (max : Nat) : Option (List UInt8) :=
  match fsGet ns path with
  | none => none
  | some n => if n.type = .dir then none else some (n.data.take max)

def fsRemove (ns : Nodes) (path : CStr) : Option Nodes :=
  if path = root then none
  else match fsGet ns path with
    | none => none
    | some n =>
      if n.type = .dir ∧ fsHasChildren ns path then none
      else some (updateNode path (fun n => { n with used := false, data := [], capacity := 0 }) ns)

def fsCopy (kmallocOk : Bool) (ns : Nodes) (src dst : CStr) : Nodes × Bool :=
  match fsGet ns src with
  | none => (ns, false)
  | some s =>
    if s.type = .dir then (ns, false)
    else if (fsGet ns dst).isSome then (ns, false)
    else
      match fsCreate ns dst .file with
      | none => (ns, false)
      | some ns =>
        match fsWrite kmallocOk ns dst s.data with
        | none => (ns, false)
        | some ns => (ns, true)

def fsMove (kmallocOk : Bool) (ns : Nodes) (src dst : CStr) : Nodes × Bool :=
  match fsCopy kmallocOk ns src dst with
  | (ns, false) => (ns, false)
  | (ns, true) =>
    match fsRemove ns src with
    | none => (ns, false)
    | some ns => (ns, true)

/-- The name under which `fs_list` shows a path. -/
def childName (dir path : CStr) : Option CStr :=
  if path = dir then none
  else if dir = root then
    if path.head? ≠ some slash then none
    else if (path.drop 1).isEmpty || (path.drop 1).contains slash then none
    else some (path.drop 1)
  else if !dir.isPrefixOf path || (path.drop dir.length).head? != some slash then none
  else if (path.drop (dir.length + 1)).contains slash then none
  else some (path.drop (dir.length + 1))

/-- The lines of `fs_list`. What `snprintf` returns is the length of what it wrote, so that a line for which there is
no room is cut, and the loop goes on. -/
def listLines (dir : CStr) (max : Nat) (used : CStr) : Nodes → CStr
  | [] => used
  | n :: rest =>
    match if n.used then childName dir n.path else none with
    | none => listLines dir max used rest
    | some name =>
      let line := ascii "  " ++ ascii (if n.type = .dir then "<DIR>" else "<ARQ>") ++ ascii "   " ++ name ++
        ascii "\n"
      let text := cut (max - used.length) line
      if used.length + text.length ≥ max then used else listLines dir max (used ++ text) rest

def fsList (ns : Nodes) (dir : CStr) (max : Nat) : CStr :=
  if ns.any (fun n => n.used && (childName dir n.path).isSome) then listLines dir max [] ns
  else
    let text := cut max (ascii "  (vazio)\n")
    if text.length < max then text else []

end Siathos.Fs
