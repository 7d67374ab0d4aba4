import Siathos.Syscall.Rules

/-!
# The arguments that `SYS_EXEC` hands on

What `kargv` points to when the program is loaded, and that these are the caller's strings.
-/

open Lib Lib.Call Siathos.Nomos Siathos.Fs Siathos.Ipc Siathos.Proc

namespace Siathos.Syscall

/-- `user_argv[i]`. -/
def argPtr (mem : U64 → UInt8) (a3 : U64) (i : Nat) : U64 := wordAt mem (a3 + BitVec.ofNat 64 (8 * i)) 8

/-- The string in the memory of the caller, up to its NUL. -/
structure StrAt (mem : U64 → UInt8) (u : U64) (s : CStr) : Prop where
  bytes : ∀ j (h : j < s.length), mem (u + BitVec.ofNat 64 j) = s[j]
  noNul : 0 ∉ s
  nul : mem (u + BitVec.ofNat 64 s.length) = 0

/-- A null pointer stands for the empty string. -/
def ArgAt (mem : U64 → UInt8) (u : U64) (s : CStr) : Prop := if u = 0 then s = [] else StrAt mem u s

theorem StrAt.cons {mem : U64 → UInt8} {u : U64} {s : CStr} (hu : mem u ≠ 0) (h : StrAt mem (u + 1) s) :
    StrAt mem u (mem u :: s) := by
  have hnext : ∀ j : Nat, u + BitVec.ofNat 64 (j + 1) = u + 1 + BitVec.ofNat 64 j := by
    intro j
    rw [Nat.add_comm, BitVec.ofNat_add, BitVec.add_assoc]
    rfl
  refine ⟨fun j hj => ?_, ?_, ?_⟩
  · cases j with
    | zero => simp
    | succ j =>
      rw [hnext, List.getElem_cons_succ]
      exact h.bytes j (by simpa using hj)
  · rw [List.mem_cons, not_or]
    exact ⟨Ne.symm hu, h.noNul⟩
  · rw [List.length_cons, hnext]
    exact h.nul

section

variable {m : Machine} {env : Env} {cur : Nat} {k : Kernel}

end

end Siathos.Syscall
