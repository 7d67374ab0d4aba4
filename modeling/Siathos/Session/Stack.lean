import Siathos.Session.Outputs
import Siathos.Syscall.Residue

/-!
# The kernel stack in a run

What the first process of a system finds of the kernel stack in its own memory.
-/

open Lib Siathos.Nomos Siathos.Fs Siathos.Syscall

namespace Siathos.Session

/-- An address in the user stack of 'authd'. -/
def stackAddr : U64 := 0x200000011000

/-- 'authd' asks for the list of processes. The padding of the first entry is what the kernel stack held there. -/
theorem stack_residue_shown :
    ¬ ∀ (m : Machine) (nodes : Nodes) (synallagma : Synallagma) (ops : List Op) (s : System),
      Run (Step m) (boot nodes synallagma) ops s → ∀ (env : Env) (cur : Nat), Runs (s.kernel.proc cur) →
        ∀ (c : Showing) (a1 a2 a3 : U64) (stale stale' : Buf),
          showing env cur stale c a1 a2 a3 s.kernel = showing env cur stale' c a1 a2 a3 s.kernel := by
  intro h
  have hsame := h smallMachine [] synallagmaInit authdStart authdLoaded (Run.of_admits (by decide +kernel))
    (callEnv [] 0) 1 (by decide +kernel) .procList stackAddr 1 0 (fun _ => 0) fun _ => 1
  have hbytes := congrArg (fun o => o.trace.map fun t => t.bytes[73]?) hsame
  exact absurd hbytes (by decide +kernel)

/-- The same for the listing of `/`, which is shorter than the buffer. -/
example : ((showing (callEnv [(nameAddr, ascii "/")] 0) 1 (fun _ => 0x41) .fsList nameAddr stackAddr 0
    authdLoaded.kernel).trace.map fun t => t.bytes.drop 4090) = [[0x41, 0x41, 0x41, 0x41, 0x41, 0x41]] := by
  decide +kernel

end Siathos.Session
