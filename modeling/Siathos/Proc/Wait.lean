import Mathlib.Algebra.Group.Nat.Defs
import Siathos.Lib.Run

/-!
# Waiting for children (`proc.c`)

The part of the process table that `proc_exit`, `proc_gc_run` and `proc_waitpid` share. Any process
that is not blocked may act at any time. A process inside `proc_waitpid` goes on from `sched_block`.
-/

open Lib

namespace Siathos.Proc.Wait

inductive ProcState
  | ready
  | blocked
  | terminated
  deriving DecidableEq, Repr

/-- `process_t`. `wait` is the child for which the process sits in `sched_block`. -/
structure Pcb where
  present : Bool
  pid : Nat
  parent : Nat
  state : ProcState
  waitPid : Nat
  waitCode : BitVec 32
  wait : Option Nat
  deriving DecidableEq, Repr

def emptySlot : Pcb := ⟨false, 0, 0, .ready, 0, 0, none⟩

def maxProcs : Nat := 64

/-- `children`, `exited` and `returned` are ghost state: who created whom, the codes passed to
`SYS_EXIT`, and what `SYS_WAITPID` returned to a parent for its child. `fault` tells that
`proc_waitpid` read an entry that is not there. -/
structure Sys where
  procs : Nat → Pcb
  nextPid : Nat
  children : List (Nat × Nat)
  exited : List (Nat × BitVec 64)
  returned : List (Nat × Nat × BitVec 64)
  fault : Bool

/-- The first process, which is started by the kernel. -/
def boot : Sys where
  procs i := if i = 0 then { emptySlot with present := true, pid := 1 } else emptySlot
  nextPid := 2
  children := []
  exited := []
  returned := []
  fault := false

def Sys.set (s : Sys) (i : Nat) (p : Pcb) : Sys :=
  { s with procs := fun j => if j = i then p else s.procs j }

def procGet (s : Sys) (pid : Nat) : Option Nat :=
  (List.range maxProcs).find? fun i => (s.procs i).present && decide ((s.procs i).pid = pid)

def findFree (s : Sys) : Option Nat :=
  (List.range maxProcs).find? fun i => !(s.procs i).present || decide ((s.procs i).state = .terminated)

def err : BitVec 64 := 0xFFFFFFFFFFFFFFFF

/-- A process is created for the one in the slot `cur`, or for the kernel. Where the creation fails,
its slot and number are used up all the same. -/
def create (cur : Nat) (own ok : Bool) (s : Sys) : Sys :=
  match findFree s with
  | none => s
  | some j =>
    let parent := if own then (s.procs cur).pid else 0
    { s.set j { emptySlot with present := ok, pid := s.nextPid, parent } with
      nextPid := s.nextPid + 1
      children := if own && ok then (parent, s.nextPid) :: s.children else s.children }

def wake (p : Pcb) : Pcb := if p.state = .blocked then { p with state := .ready } else p

def schedWakeup (pid : Nat) (s : Sys) : Sys :=
  match procGet s pid with
  | none => s
  | some j => s.set j (wake (s.procs j))

def procExit (cur : Nat) (code : BitVec 64) (s : Sys) : Sys :=
  let me := s.procs cur
  let told := match procGet s me.parent with
    | none => s
    | some j => s.set j (wake { s.procs j with waitPid := me.pid, waitCode := code.setWidth 32 })
  { told.set cur { told.procs cur with state := .terminated } with
    exited := (me.pid, code) :: s.exited }

def procGcRun (s : Sys) : Sys :=
  { s with procs := fun i =>
      if (s.procs i).state = .terminated then { s.procs i with present := false } else s.procs i }

/-- What `SYS_WAITPID` makes of the `int` that `proc_waitpid` returns. -/
def waitResult (code : BitVec 32) : BitVec 64 := if code.msb then err else code.setWidth 64

/-- `proc_waitpid` returns. -/
def leave (cur pid : Nat) (waitPid : Nat) (r : BitVec 64) (s : Sys) : Sys :=
  { s.set cur { s.procs cur with waitPid, wait := none } with
    returned := if ((s.procs cur).pid, pid) ∈ s.children then s.returned ++ [((s.procs cur).pid, pid, r)]
      else s.returned }

/-- A turn of the loop of `proc_waitpid`, with `kid` as `proc_get` gave it. `alone` tells that
`sched_block` finds nothing else to run. -/
def waitTurn (cur pid : Nat) (kid : Option Nat) (alone : Bool) (s : Sys) : Sys :=
  let me := s.procs cur
  if me.waitPid = pid then leave cur pid 0 (waitResult me.waitCode) s
  else match kid with
    | none => { s with fault := true }
    | some j =>
      if !(s.procs j).present || (s.procs j).state = .terminated then leave cur pid me.waitPid err s
      else s.set cur { me with wait := some pid, state := if alone then .ready else .blocked }

/-- `SYS_WAITPID`. -/
def sysWaitpid (cur : Nat) (a1 : BitVec 64) (alone : Bool) (s : Sys) : Sys :=
  let pid := a1.toNat % 2 ^ 32
  if a1 = 0 then leave cur pid (s.procs cur).waitPid err s
  else match procGet s pid with
    | none => leave cur pid (s.procs cur).waitPid err s
    | some j =>
      if (s.procs j).parent ≠ (s.procs cur).pid then leave cur pid (s.procs cur).waitPid err s
      else waitTurn cur pid (some j) alone s

/-- `proc_waitpid`, from `sched_block` on. -/
def resume (cur : Nat) (alone : Bool) (s : Sys) : Sys :=
  match (s.procs cur).wait with
  | none => s
  | some pid => waitTurn cur pid (procGet s pid) alone s

inductive Op
  | create (cur : Nat) (own ok : Bool)
  | exit (cur : Nat) (code : BitVec 64)
  | gc
  | message (pid : Nat)
  | block (cur : Nat)
  | waitpid (cur : Nat) (a1 : BitVec 64) (alone : Bool)
  | resume (cur : Nat) (alone : Bool)
  deriving DecidableEq, Repr

def apply (s : Sys) : Op → Sys
  | .create cur own ok => create cur own ok s
  | .exit cur code => procExit cur code s
  | .gc => procGcRun s
  | .message pid => schedWakeup pid s
  | .block cur => s.set cur { s.procs cur with state := .blocked }
  | .waitpid cur a1 alone => sysWaitpid cur a1 alone s
  | .resume cur alone => Wait.resume cur alone s

/-- The process runs or may be picked to run. -/
def Runnable (p : Pcb) : Prop := p.present = true ∧ p.state = .ready

instance (p : Pcb) : Decidable (Runnable p) := inferInstanceAs (Decidable (_ ∧ _))

def Allowed (s : Sys) : Op → Prop
  | .create cur _ _ | .exit cur _ | .block cur | .waitpid cur _ _ => Runnable (s.procs cur) ∧ (s.procs cur).wait = none
  | .resume cur _ => Runnable (s.procs cur) ∧ (s.procs cur).wait ≠ none
  | .gc | .message _ => True

instance (s : Sys) (o : Op) : Decidable (Allowed s o) := by
  cases o <;> dsimp only [Allowed] <;> infer_instance

abbrev Step := Exec Allowed apply

end Siathos.Proc.Wait
