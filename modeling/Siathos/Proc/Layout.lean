import Siathos.Proc.Argv

/-!
# What the layout of the arguments leaves on the stack (`proc_enter_user`)

The copies do not overlap, so that each string and each pointer is read back as it was written.
-/

open Lib Siathos.Paging

namespace Siathos.Proc.Argv

open Memory

/-! ## Copies that do not overlap -/

def Copy.Apart (c c' : Copy) : Prop := c.dst + c.len ≤ c'.dst ∨ c'.dst + c'.len ≤ c.dst

/-- The room that the strings take with their NULs. -/
def strSize : List CStr → Nat
  | [] => 0
  | s :: rest => s.length + 1 + strSize rest

/-- `zone_base`, as an offset in the stack. -/
def zoneBase : Nat := userStackSize - appsArgvZone

/-- `arr`, as an offset in the stack. -/
def arrayOff (argc : Nat) : Nat := userStackSize - (argc + 1) * 8

section

variable {args : List CStr} {userStackBase : BitVec 64} {userStack : Nat} {aVa : Nat → BitVec 64}

/-- There is room for all arguments. -/
def Roomy (args : List CStr) : Prop := args.length ≤ appsArgcMax ∧ (args.length + 1) * 8 + strSize args ≤ appsArgvZone

end

end Siathos.Proc.Argv
