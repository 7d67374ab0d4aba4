import Siathos.Context.Preserve
import Siathos.Proc.Passing
import Siathos.Session.Pointers
import Siathos.Syscall.Arguments

/-!
# The arguments of a new process

From the `argv` of `SYS_EXEC` to the registers with which the process begins.
-/

open Lib Siathos.Paging Siathos.Proc Siathos.Proc.Memory Siathos.Proc.Argv Siathos.Syscall

namespace Siathos.Session.Arguments

/-- `argv_va`. -/
def argvVa (userStackBase : BitVec 64) (argc : Nat) : BitVec 64 :=
  if argc = 0 then 0 else userStackBase + BitVec.ofNat 64 (arrayOff argc)

/-- `user_rsp`. -/
def userRsp (userStackBase : BitVec 64) (argc : Nat) : BitVec 64 :=
  userStackBase + BitVec.ofNat 64 (if argc = 0 then userStackSize else zoneBase)

/-- The arguments of the call: as many as the count says, and each is the string of the caller. -/
structure Given (mem : U64 → UInt8) (a2 a3 : U64) (args : List CStr) : Prop where
  count : args.length = execArgc a2
  equal : ∀ j (h : j < args.length), ArgAt mem (argPtr mem a3 j) args[j]

variable {kernel : Nat} {s t : Sys} {m : Machine} {env : Env} {cur : Nat}
  {k : Kernel} {a1 a2 a3 pid : U64} {stale : Nat → Option CStr} {room : Option Nat} {img : Nat → BitVec 8}
  {regs : List Ureg} {aVa : Nat → BitVec 64} {e : Int}

end Siathos.Session.Arguments
