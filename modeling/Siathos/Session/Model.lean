import Siathos.Syscall.Rules
import Siathos.Lib.Run

/-!
# Sessions (`init.c`)

`init` starts the services, and then a new `spoudazo` each time the last one is gone. Every ring-3
process may make any system call at any time.
-/

open Lib Siathos.Nomos Siathos.Fs Siathos.Ipc Siathos.Syscall

namespace Siathos.Session

/-- Where `session_entry` stands. -/
inductive InitState
  | kormi (i : Nat)
  | spawn
  | wait (pid : Nat)
  /-- No `spoudazo`: the session runs in ring 0 from here on. -/
  | fallback
  deriving DecidableEq, Repr

structure System where
  kernel : Kernel
  init : InitState

def initProc : Process :=
  { emptySlot with present := true, pid := 1, name := ascii "init", rights := capAll, state := .ready }

/-- The kernel as `sched_run_first` finds it, with the file tree and contracts of the boot. -/
def boot (nodes : Nodes) (synallagma : Synallagma) : System where
  kernel :=
    { procs := initProc :: List.replicate 63 emptySlot
      nextPid := 2
      auth := authInit
      synallagma
      nodes
      mailboxes := ipcInit
      svcTable := svcInit
      verified := [] }
  init := .kormi 0

def capGrant (pid : Nat) (rights : Rights) (k : Kernel) : Kernel :=
  { k with procs := updatePid pid (fun p => { p with rights := p.rights ||| rights }) k.procs }

/-- Ghost state: what `init` starts belongs to no earlier session. -/
def startSession (pid : Nat) (k : Kernel) : Kernel :=
  { k with procs := updatePid pid (fun p => { p with session := pid, login := none }) k.procs }

/-- What `kormi_start` grants to a service. -/
def kormiRights : Rights := capDevIo ||| capFbDraw ||| capUserAdmin

def initSlot : Nat := 0

def spoudazo : CStr := ascii "spoudazo"

/-- The next action of `session_entry`. -/
def initStep (m : Machine) (load : Load) (s : System) : System :=
  match s.init with
  | .kormi i =>
    match m.mods[i]? with
    | none => { s with init := .spawn }
    | some (name, kormi) =>
      if kormi then
        match execEmbeddedArgs m initSlot name load s.kernel with
        | (k, some pid) => ⟨startSession pid (capGrant pid kormiRights k), .kormi (i + 1)⟩
        | (k, none) => ⟨k, .kormi (i + 1)⟩
      else { s with init := .kormi (i + 1) }
  | .spawn =>
    match execEmbeddedArgs m initSlot spoudazo load s.kernel with
    | (k, some pid) => ⟨startSession pid k, .wait pid⟩
    | (k, none) => ⟨k, .fallback⟩
  | .wait pid =>
    if (procGet s.kernel pid).isSome then { s with kernel := procGcRun s.kernel } else { s with init := .spawn }
  | .fallback => s

inductive Op
  | syscall (cur : Nat) (env : Env) (nr a1 a2 a3 a4 : U64)
  | init (load : Load)
  | gc

def apply (m : Machine) (s : System) : Op → System
  | .syscall cur env nr a1 a2 a3 a4 =>
    { s with kernel := (syscallDispatch m env cur nr a1 a2 a3 a4 s.kernel).state }
  | .init load => initStep m load s
  | .gc => { s with kernel := procGcRun s.kernel }

/-- The process runs, in ring 3. -/
def Runs (p : Process) : Prop := p.present = true ∧ p.isUser = true ∧ p.state ≠ .terminated

instance (p : Process) : Decidable (Runs p) := inferInstanceAs (Decidable (_ ∧ _ ∧ _))

def Allowed (s : System) : Op → Prop
  | .syscall cur _ _ _ _ _ _ => Runs (s.kernel.proc cur)
  | _ => True

instance (s : System) (o : Op) : Decidable (Allowed s o) := by
  cases o <;> dsimp only [Allowed] <;> infer_instance

abbrev Step (m : Machine) := Exec Allowed (apply m)

end Siathos.Session
