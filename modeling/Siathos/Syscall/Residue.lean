import Siathos.Syscall.Arrays

/-!
# What is left on the kernel stack

The calls that show the tables of the kernel build their result in an array on the kernel stack, which nothing clears,
and copy a part of it to the caller.
-/

open Lib Lib.Call Siathos.Nomos Siathos.Fs Siathos.Proc

namespace Siathos.Syscall

/-- Bytes that a call writes for its caller. -/
structure Store where
  addr : U64
  bytes : List UInt8
  deriving DecidableEq, Repr

abbrev OutM := Call Kernel Store U64

/-! ## The calls -/

section

variable (env : Env) (cur : Nat)

/-- `memcpy` of the first bytes of an array, where `user_ptr_ok` accepts the place. -/
def copyFrom (b : Buf) (addr : U64) (len : Nat) : OutM Unit := do
  silent (checkPtr cur addr (BitVec.ofNat 64 len))
  Call.touch [⟨addr, b.bytes len⟩]

/-- `SYS_FS_READ` with `vfs_read`. -/
def fsReadOut (stale : Buf) (a1 a2 a3 : U64) : OutM U64 := do
  silent (syscallCap cur capFsRead)
  let path ← silent (userStr env cur a1 fsNameMax)
  silent (checkPtr cur a2 a3)
  let k ← Call.read
  match vfsPath (policy cur k) root path capFsRead with
  | none => Call.stop err
  | some norm =>
    if vfsIsPseudo norm then do
      let i := stackInfo env k stale
      Call.touch ((pseudoStores i norm a3.toNat).map fun s => ⟨a2 + BitVec.ofNat 64 s.1, s.2⟩)
      let n := pseudoSize i norm a3.toNat
      Call.demand (n > 0) err
      pure (BitVec.ofNat 64 n)
    else
      match fsRead k.nodes norm a3.toNat with
      | none => Call.stop err
      | some data => do
        Call.when (data.length > 0 ∧ a2 ≠ 0) (Call.touch [⟨a2, data⟩])
        pure (BitVec.ofNat 64 data.length)

/-- The size of the buffer that `SYS_FS_LIST` fills: 4096 where the argument is 0 or more than that. -/
def listSize (a3 : U64) : U64 := minSize (if a3 = 0 then 4096 else a3) 4096

def fsListOut (stale : Buf) (a1 a2 a3 : U64) : OutM U64 := do
  silent (syscallCap cur capFsRead)
  let path ← silent (userStr env cur a1 fsNameMax)
  let k ← Call.read
  match vfsPath (policy cur k) root path capFsRead with
  | none => Call.stop err
  | some norm => do
    let tmp := listInto k.nodes norm 4096 stale
    let bsz := listSize a3
    Call.when (a2 ≠ 0 ∧ bsz ≠ 0) (copyFrom cur tmp a2 bsz.toNat)
    pure 0

def sysinfoOut (stale : Buf) (a1 : U64) : OutM U64 := do
  Call.demand (a1 ≠ 0) err
  let k ← Call.read
  copyFrom cur (sysinfoInto env k stale) a1 sizeofSystemInfo
  pure 0

def procListOut (stale : Buf) (a1 a2 : U64) : OutM U64 := do
  let k ← Call.read
  let r := procListInto (procListMax a2) k.procs 0 stale
  copyFrom cur r.1 a1 (r.2 * sizeofProcInfo)
  pure (BitVec.ofNat 64 r.2)

def contractListOut (stale : Buf) (a1 a2 : U64) : OutM U64 := do
  Call.demand (a1 ≠ 0 && a2 ≠ 0) err
  let bsz := (minSize a2 4096).toNat
  let k ← Call.read
  let o := contractLoop bsz k.synallagma.contracts ⟨stale.write 0 [0], 0⟩
  copyFrom cur o.buf a1 (min (o.used + 1) bsz)
  pure 0

def authListOut (stale : Buf) (a1 a2 : U64) : OutM U64 := do
  Call.demand (a1 ≠ 0 && a2 ≠ 0) err
  let bsz := (minSize a2 4096).toNat
  let k ← Call.read
  let r := authListInto k.auth bsz (stale.write 0 [0])
  let tmp := if r.2 ≥ bsz then r.1.write (bsz - 1) [0] else r.1
  copyFrom cur tmp a1 (min (r.2 + 1) bsz)
  pure 0

inductive Showing
  | fsRead
  | fsList
  | sysinfo
  | procList
  | contractList
  | authList
  deriving DecidableEq, Repr

/-- The number of the call. -/
def Showing.nr : Showing → U64
  | .fsRead => 7
  | .fsList => 9
  | .sysinfo => 12
  | .procList => 15
  | .contractList => 20
  | .authList => 27

/-- `syscall_dispatch`, with what the kernel stack holds where the arrays of the call come to lie. -/
def showing (stale : Buf) (c : Showing) (a1 a2 a3 : U64) : OutM U64 := do
  silent (syscallCap cur capSyscall)
  match c with
  | .fsRead => fsReadOut env cur stale a1 a2 a3
  | .fsList => fsListOut env cur stale a1 a2 a3
  | .sysinfo => sysinfoOut env cur stale a1
  | .procList => procListOut cur stale a1 a2
  | .contractList => contractListOut cur stale a1 a2
  | .authList => authListOut cur stale a1 a2

end

section

variable {env : Env} {cur : Nat} {k : Kernel}

/-- The stale bytes make no difference to the call. -/
def Same (c : Buf → OutM U64) (k : Kernel) : Prop := ∀ stale stale', c stale k = c stale' k

theorem same_silent {α : Type} {c : SysM α} (hstate : (c k).state = k) (f : Buf → α → OutM U64) :
    Same (fun stale => silent c >>= f stale) k ↔ ∀ a, (c k).val = .ok a → Same (f · a) k := by
  unfold Same
  cases hval : (c k).val with
  | error e =>
    simp only [silent_bind_error hval]
    exact iff_of_true (fun _ _ => trivial) fun a ha => by cases ha
  | ok a =>
    simp only [silent_bind_ok hval, hstate]
    exact ⟨fun h a' ha => by cases ha; exact h, fun h => h a rfl⟩

theorem same_read (f : Buf → Kernel → OutM U64) :
    Same (fun stale => Call.read >>= f stale) k ↔ Same (f · k) k := Iff.rfl

theorem same_demand {c : Bool} {e : U64} (f : Buf → Unit → OutM U64) :
    Same (fun stale => demand c e >>= f stale) k ↔ (c = true → Same (f · ()) k) := by
  unfold Same
  cases c with
  | false => simp only [demand_bind_false rfl, Bool.false_eq_true, false_implies, implies_true]
  | true => simp only [demand_bind_true rfl, true_implies]

theorem same_cap {need : Rights} (f : Buf → Unit → OutM U64) :
    Same (fun stale => silent (syscallCap cur need) >>= f stale) k ↔ (May (k.proc cur) need → Same (f · ()) k) := by
  have hrun := syscallCap_run cur need k
  by_cases hmay : May (k.proc cur) need
  · rw [if_pos hmay] at hrun
    rw [same_silent (by rw [hrun]), hrun]
    exact ⟨fun h _ => h () rfl, fun h _ _ => h hmay⟩
  · rw [if_neg hmay] at hrun
    rw [same_silent (by rw [hrun]), hrun]
    exact iff_of_true (fun a ha => by cases ha) fun h => absurd h hmay

theorem same_str {src : U64} {dstMax : Nat} (f : Buf → CStr → OutM U64) :
    Same (fun stale => silent (userStr env cur src dstMax) >>= f stale) k ↔
      ∀ s ∈ strArg env k cur src dstMax, Same (f · s) k := by
  cases hs : strArg env k cur src dstMax with
  | none =>
    have hrun := userStr_run_none hs
    rw [same_silent hrun.1, hrun.2]
    exact iff_of_true (fun a ha => by cases ha) fun a ha => by cases ha
  | some s =>
    have hrun := userStr_run_some hs
    rw [same_silent hrun.1, hrun.2]
    exact ⟨fun h a ha => h a (by cases ha; rfl), fun h a ha => h a (by cases ha; rfl)⟩

theorem copyFrom_run (b : Buf) (addr : U64) (len : Nat) (v : U64) :
    (do copyFrom cur b addr len; pure v : OutM U64) k =
      if userPtrOk (k.proc cur) addr (BitVec.ofNat 64 len) then ⟨k, [⟨addr, b.bytes len⟩], .ok v⟩
      else ⟨k, [], .error err⟩ := by
  have hcheck : checkPtr cur addr (BitVec.ofNat 64 len) k =
      demand (userPtrOk (k.proc cur) addr (BitVec.ofNat 64 len)) err k := rfl
  cases hptr : userPtrOk (k.proc cur) addr (BitVec.ofNat 64 len) with
  | false =>
    rw [hptr] at hcheck
    have hcopy : copyFrom cur b addr len k = ⟨k, [], .error err⟩ := by
      rw [copyFrom, silent_bind_error (e := err) (by rw [hcheck]; rfl), hcheck]
      rfl
    rw [bind_of_error (e := err) (by rw [hcopy]), hcopy]
    rfl
  | true =>
    rw [hptr] at hcheck
    have hcopy : copyFrom cur b addr len k = ⟨k, [⟨addr, b.bytes len⟩], .ok ()⟩ := by
      rw [copyFrom, silent_bind_ok (a := ()) (by rw [hcheck]; rfl), hcheck]
      rfl
    rw [bind_of_ok (a := ()) (by rw [hcopy]), hcopy]
    rfl

theorem copyFrom_same_iff {f : Buf → Buf} {S : Nat → Prop} (hf : Fixes f S) (addr : U64) (len : Nat) (v : U64) :
    Same (fun stale => do copyFrom cur (f stale) addr len; pure v) k ↔
      (userPtrOk (k.proc cur) addr (BitVec.ofNat 64 len) = true → ∀ i < len, S i) := by
  rw [← Buf.fixed_bytes_iff hf]
  unfold Same
  simp only [copyFrom_run]
  by_cases hptr : userPtrOk (k.proc cur) addr (BitVec.ofNat 64 len) = true
  · simp [hptr]
  · simp [hptr]

theorem same_const (c : OutM U64) : Same (fun _ => c) k := fun _ _ => rfl

theorem listSize_pos (a3 : U64) : 0 < (listSize a3).toNat := by
  unfold listSize minSize
  split <;> split <;> bv_omega

theorem listSize_le (a3 : U64) : (listSize a3).toNat ≤ 4096 := by
  unfold listSize minSize
  split <;> split <;> bv_omega

theorem fsReadOut_same (a1 a2 a3 : U64) : Same (fsReadOut env cur · a1 a2 a3) k := by
  intro stale stale'
  have hinfo : ∀ k, stackInfo env k stale = stackInfo env k stale' := fun k => stackInfo_same env k stale stale'
  unfold fsReadOut
  simp only [hinfo]

/-- `SYS_FS_LIST` shows stale bytes where the buffer of the caller goes on behind the NUL of the listing. -/
theorem fsListOut_same_iff (a1 a2 a3 : U64) :
    Same (fsListOut env cur · a1 a2 a3) k ↔
      (May (k.proc cur) capFsRead → ∀ path ∈ strArg env k cur a1 fsNameMax,
        ∀ norm ∈ vfsPath (policy cur k) root path capFsRead, a2 ≠ 0 →
          userPtrOk (k.proc cur) a2 (listSize a3) = true →
            (listSize a3).toNat ≤ (listing k.nodes norm).length + 1) := by
  unfold fsListOut
  rw [same_cap]
  refine imp_congr_right fun _ => ?_
  rw [same_str]
  refine forall₂_congr fun path _ => ?_
  rw [same_read]
  cases hpath : vfsPath (policy cur k) root path capFsRead with
  | none => exact iff_of_true (same_const _) fun norm hnorm => by cases hnorm
  | some norm =>
    have hsize := listSize_pos a3
    have hne : listSize a3 ≠ 0 := by
      intro h
      simp [h] at hsize
    by_cases ha : a2 = 0
    · refine iff_of_true (fun stale stale' => ?_) fun _ _ hne' => absurd ha hne'
      have hnone : ∀ c : OutM Unit,
        (when (a2 ≠ 0 ∧ listSize a3 ≠ 0) c >>= fun _ => pure 0 : OutM U64) k = ⟨k, [], .ok 0⟩ :=
        fun c => when_bind_false (by simp [ha]) c _ k
      exact (hnone _).trans (hnone _).symm
    · simp only [ha, hne, ne_eq, not_false_eq_true, and_self, when_bind_true]
      rw [copyFrom_same_iff (listInto_fixes k.nodes norm (by decide))]
      have hmax := listSize_le a3
      simp only [BitVec.ofNat_toNat, BitVec.setWidth_eq, Option.mem_def, Option.some.injEq, forall_eq', true_implies]
      refine imp_congr_right fun _ => ⟨fun h => ?_, fun h i hi => ?_⟩
      · have hlast := h ((listSize a3).toNat - 1) (by omega)
        unfold Filled at hlast
        omega
      · unfold Filled
        omega

theorem sysinfoOut_same (a1 : U64) : Same (sysinfoOut env cur · a1) k := by
  unfold sysinfoOut
  rw [same_demand]
  refine fun _ => (same_read _).mpr ?_
  exact (copyFrom_same_iff (sysinfoInto_fixes env k) a1 _ 0).mpr fun _ _ hi => hi

/-- `SYS_PROC_LIST` shows stale bytes in every entry. -/
theorem procListOut_same_iff (a1 a2 : U64) :
    Same (procListOut cur · a1 a2) k ↔
      (userPtrOk (k.proc cur) a1 (BitVec.ofNat 64 ((entries (procListMax a2) k.procs).length * sizeofProcInfo)) = true →
        entries (procListMax a2) k.procs = []) := by
  unfold procListOut
  rw [same_read]
  simp only [procListInto_count, Nat.zero_add, Nat.sub_zero]
  rw [copyFrom_same_iff (procListInto_fixes (procListMax a2) k.procs 0)]
  refine imp_congr_right fun _ => ?_
  rw [← List.length_eq_zero_iff]
  unfold InField sizeofProcInfo
  constructor
  · intro h
    by_contra hne
    have hpad := h 73 (by omega)
    omega
  · intro h i hi
    omega

theorem copyFrom_ended {f : Buf → Buf × Nat} {text : CStr} (hf : ∀ stale, Ended (f stale) text) (addr : U64) (bsz : Nat)
    (v : U64) : Same (fun stale => do copyFrom cur (f stale).1 addr (min ((f stale).2 + 1) bsz); pure v) k := by
  intro stale stale'
  have hbytes : ∀ stale,
    (f stale).1.bytes (min (text.length + 1) bsz) = (text ++ [0]).take (min (text.length + 1) bsz) := by
    intro stale
    rw [← (hf stale).2, Buf.take_bytes _ (Nat.min_le_left _ _)]
  simp only [copyFrom_run, (hf _).1, hbytes]

theorem contractListOut_same (a1 a2 : U64) : Same (contractListOut cur · a1 a2) k := by
  unfold contractListOut
  rw [same_demand]
  refine fun _ => (same_read _).mpr ?_
  exact copyFrom_ended (fun stale => contractLoop_ended _ k.synallagma.contracts (ended_start stale)) a1 _ 0

theorem minSize_pos {a : U64} (h : a ≠ 0) : 0 < (minSize a 4096).toNat := by
  unfold minSize
  split <;> bv_omega

theorem authListOut_same (a1 a2 : U64) : Same (authListOut cur · a1 a2) k := by
  unfold authListOut
  rw [same_demand]
  refine fun hargs => (same_read _).mpr ?_
  have hbsz : 0 < (minSize a2 4096).toNat := minSize_pos (by simpa using (Bool.and_eq_true_iff.mp hargs).2)
  have hended := fun stale : Buf => authListInto_ended k.auth hbsz (stale.write 0 [0])
  have hroom : ∀ stale : Buf,
    ¬ (authListInto k.auth (minSize a2 4096).toNat (stale.write 0 [0])).2 ≥ (minSize a2 4096).toNat :=
    fun stale => by
      rw [(hended stale).1]
      exact Nat.not_le.mpr (authListText_lt k.auth hbsz)
  simp only [if_neg (hroom _)]
  exact copyFrom_ended hended a1 _ 0

/-- Where the call shows nothing but what it wrote. -/
def Covered (env : Env) (cur : Nat) (k : Kernel) (a1 a2 a3 : U64) : Showing → Prop
  | .fsList => May (k.proc cur) capFsRead → ∀ path ∈ strArg env k cur a1 fsNameMax,
      ∀ norm ∈ vfsPath (policy cur k) root path capFsRead, a2 ≠ 0 →
        userPtrOk (k.proc cur) a2 (listSize a3) = true → (listSize a3).toNat ≤ (listing k.nodes norm).length + 1
  | .procList =>
      userPtrOk (k.proc cur) a1 (BitVec.ofNat 64 ((entries (procListMax a2) k.procs).length * sizeofProcInfo)) = true →
        entries (procListMax a2) k.procs = []
  | _ => True

/-- Only `SYS_FS_LIST`, behind the NUL, and `SYS_PROC_LIST` show stale bytes of the kernel stack. -/
theorem stack_residue_iff (env : Env) (cur : Nat) (k : Kernel) (c : Showing) (a1 a2 a3 : U64) :
    (∀ stale stale', showing env cur stale c a1 a2 a3 k = showing env cur stale' c a1 a2 a3 k) ↔
      (May (k.proc cur) capSyscall → Covered env cur k a1 a2 a3 c) := by
  refine (same_cap fun stale _ => _).trans (imp_congr_right fun _ => ?_)
  cases c with
  | fsRead => exact iff_of_true (fsReadOut_same a1 a2 a3) trivial
  | fsList => exact fsListOut_same_iff a1 a2 a3
  | sysinfo => exact iff_of_true (sysinfoOut_same a1) trivial
  | procList => exact procListOut_same_iff a1 a2
  | contractList => exact iff_of_true (contractListOut_same a1 a2) trivial
  | authList => exact iff_of_true (authListOut_same a1 a2) trivial

end

/-! ## The same calls without the bytes -/

section

variable {m : Machine} {env : Env} {cur : Nat} {k : Kernel} {α β : Type}

/-- One call stores bytes where the other tells that it writes, and both end alike. -/
structure Mirrors (k : Kernel) (o : OutM α) (c : SysM α) : Prop where
  state : (o k).state = k ∧ (c k).state = k
  val : (o k).val = (c k).val
  stores : (o k).trace.map (fun s => ⟨s.addr, s.bytes.length, true⟩) = (c k).trace.filter (·.write)

theorem Mirrors.bind {o : OutM α} {c : SysM α} (h : Mirrors k o c) {f : α → OutM β} {g : α → SysM β}
    (hfg : ∀ a, (c k).val = .ok a → Mirrors k (f a) (g a)) : Mirrors k (o >>= f) (c >>= g) := by
  obtain ⟨⟨hstate, hstate'⟩, hval, hstores⟩ := h
  cases hc : (c k).val with
  | error e =>
    rw [hc] at hval
    refine ⟨?_, ?_, ?_⟩
    · rw [bind_of_error hval, bind_of_error hc]
      exact ⟨hstate, hstate'⟩
    · rw [bind_of_error hval, bind_of_error hc]
    · rw [bind_of_error hval, bind_of_error hc]
      exact hstores
  | ok a =>
    rw [hc] at hval
    obtain ⟨hrest, hrestval, hreststores⟩ := hfg a hc
    refine ⟨?_, ?_, ?_⟩
    · rw [bind_of_ok hval, bind_of_ok hc, hstate, hstate']
      exact hrest
    · rw [bind_of_ok hval, bind_of_ok hc, hstate, hstate']
      exact hrestval
    · rw [bind_of_ok hval, bind_of_ok hc, hstate, hstate']
      simp only [List.map_append, List.filter_append, hstores, hreststores]

theorem Mirrors.silent {c : SysM α} (hstate : (c k).state = k) (hreads : ∀ x ∈ (c k).trace, x.write = false) :
    Mirrors k (silent c) c := by
  refine ⟨⟨hstate, hstate⟩, rfl, ?_⟩
  symm
  simpa [List.filter_eq_nil_iff, Call.silent] using hreads

theorem Mirrors.read {f : Kernel → OutM β} {g : Kernel → SysM β} (h : Mirrors k (f k) (g k)) :
    Mirrors k (Call.read >>= f) (Call.read >>= g) := ⟨h.1, h.2, h.3⟩

theorem Mirrors.peek {f : Kernel → OutM β} {c : SysM β} (h : Mirrors k (f k) c) : Mirrors k (Call.read >>= f) c :=
  ⟨h.1, h.2, h.3⟩

theorem Mirrors.pure (a : α) : Mirrors k (Pure.pure a) (Pure.pure a) := ⟨⟨rfl, rfl⟩, rfl, rfl⟩

theorem Mirrors.stop (e : U64) : Mirrors k (Call.stop e : OutM α) (Call.stop e) := ⟨⟨rfl, rfl⟩, rfl, rfl⟩

theorem Mirrors.demand (c : Bool) (e : U64) : Mirrors k (Call.demand c e) (Call.demand c e) := by
  cases c <;> exact ⟨⟨rfl, rfl⟩, rfl, rfl⟩

theorem Mirrors.cap (need : Rights) : Mirrors k (Call.silent (syscallCap cur need)) (syscallCap cur need) := by
  have hrun := syscallCap_run cur need k
  refine Mirrors.silent ?_ ?_
  all_goals
    rw [hrun]
    split
  all_goals first | rfl | simp

theorem Mirrors.str (src : U64) (dstMax : Nat) :
    Mirrors k (Call.silent (userStr env cur src dstMax)) (userStr env cur src dstMax) := by
  refine Mirrors.silent ?_ ?_
  · cases hs : strArg env k cur src dstMax with
    | none => exact (userStr_run_none hs).1
    | some s => exact (userStr_run_some hs).1
  · exact userStr_reads env cur src dstMax k

theorem Mirrors.ptr (addr len : U64) : Mirrors k (Call.silent (checkPtr cur addr len)) (checkPtr cur addr len) := by
  have hrun : checkPtr cur addr len k = Call.demand (userPtrOk (k.proc cur) addr len) err k := rfl
  refine Mirrors.silent ?_ ?_
  all_goals
    rw [hrun]
    cases userPtrOk (k.proc cur) addr len
  all_goals first | rfl | simp [Call.demand, Call.stop, pure_apply]

theorem Mirrors.touch (l : List Store) :
    Mirrors k (Call.touch l) (Call.touch (l.map fun s => ⟨s.addr, s.bytes.length, true⟩)) := by
  refine ⟨⟨rfl, rfl⟩, rfl, ?_⟩
  symm
  simp [Call.touch]

theorem Mirrors.when {p : Prop} [Decidable p] {o : OutM Unit} {c : SysM Unit} (h : Mirrors k o c) :
    Mirrors k (Call.when p o) (Call.when p c) := by
  unfold Call.when
  split
  · exact h
  · exact Mirrors.pure ()

theorem Mirrors.copy (b : Buf) (addr : U64) (len : Nat) :
    Mirrors k (copyFrom cur b addr len) (copyOut cur addr len) := by
  refine (Mirrors.ptr addr _).bind fun _ _ => ?_
  simpa using Mirrors.touch (k := k) [⟨addr, b.bytes len⟩]

theorem fsListOut_mirrors (stale : Buf) (a1 a2 a3 : U64) :
    Mirrors k (fsListOut env cur stale a1 a2 a3) (sysFsList env cur a1 a2 a3) := by
  refine (Mirrors.cap _).bind fun _ _ => (Mirrors.str _ _).bind fun path _ => Mirrors.read ?_
  have hlist : (vfsList (policy cur k) k.nodes root path 4096).isSome =
      (vfsPath (policy cur k) root path capFsRead).isSome := Option.isSome_map
  rw [hlist]
  cases vfsPath (policy cur k) root path capFsRead with
  | none => exact Mirrors.stop err
  | some norm => exact (Mirrors.when (Mirrors.copy _ _ _)).bind fun _ _ => Mirrors.pure 0

theorem sysinfoOut_mirrors (stale : Buf) (a1 : U64) : Mirrors k (sysinfoOut env cur stale a1) (sysSysinfo cur a1) :=
  (Mirrors.demand _ _).bind fun _ _ => Mirrors.peek ((Mirrors.copy _ _ _).bind fun _ _ => Mirrors.pure 0)

theorem procListOut_mirrors (stale : Buf) (a1 a2 : U64) :
    Mirrors k (procListOut cur stale a1 a2) (sysProcList cur a1 a2) := by
  refine Mirrors.read ?_
  have hcount := procListInto_count (procListMax a2) k.procs 0 stale
  rw [Nat.zero_add, Nat.sub_zero] at hcount
  dsimp only
  rw [hcount]
  exact (Mirrors.copy _ _ _).bind fun _ _ => Mirrors.pure _

theorem contractListOut_mirrors (stale : Buf) (a1 a2 : U64) :
    Mirrors k (contractListOut cur stale a1 a2) (sysContractList cur a1 a2) := by
  refine (Mirrors.demand _ _).bind fun _ _ => Mirrors.read ?_
  have hused : (contractLoop (minSize a2 4096).toNat k.synallagma.contracts ⟨stale.write 0 [0], 0⟩).used =
      (contractText (minSize a2 4096).toNat [] k.synallagma.contracts).length :=
    (contractLoop_ended _ _ (ended_start stale)).1
  dsimp only
  rw [hused]
  exact (Mirrors.copy _ _ _).bind fun _ _ => Mirrors.pure 0

theorem authListOut_mirrors (stale : Buf) (a1 a2 : U64) :
    Mirrors k (authListOut cur stale a1 a2) (sysAuthList cur a1 a2) := by
  refine (Mirrors.demand _ _).bind fun _ hargs => Mirrors.read ?_
  have hbsz : 0 < (minSize a2 4096).toNat := by
    refine minSize_pos ?_
    rintro rfl
    simp [Call.demand, Call.stop] at hargs
  have hended := authListInto_ended k.auth hbsz (stale.write 0 [0])
  dsimp only
  rw [hended.1]
  exact (Mirrors.copy _ _ _).bind fun _ _ => Mirrors.pure 0

theorem appendStores_spans (max used : Nat) (l : List CStr) :
    (appendStores max used l).map (fun s => (s.1, s.2.length)) = appendSpans max used l := by
  induction l generalizing used with
  | nil => rfl
  | cons s rest ih =>
    unfold appendStores appendSpans
    split
    · rw [List.map_cons, ih]
    · exact ih used

theorem pseudoStores_spans (i : SysInfo) (norm : CStr) (max : Nat) :
    (pseudoStores i norm max).map (fun s => (s.1, s.2.length)) = vfsPseudoRead i norm max := by
  unfold pseudoStores vfsPseudoRead
  cases pseudoPieces i norm with
  | none => rfl
  | some pieces => exact congrArg ((0, 1) :: ·) (appendStores_spans max 0 pieces)

theorem fsReadOut_mirrors (hplain : ∀ p ∈ k.procs, Plain p) (hprocs : k.procs.length ≤ 64) (stale : Buf)
    (a1 a2 a3 : U64) : Mirrors k (fsReadOut env cur stale a1 a2 a3) (sysFsRead env cur a1 a2 a3) := by
  refine (Mirrors.cap _).bind fun _ _ => (Mirrors.str _ _).bind fun path _ => (Mirrors.ptr _ _).bind fun _ _ => ?_
  refine Mirrors.read ?_
  rw [stackInfo_eq hplain hprocs]
  cases vfsPath (policy cur k) root path capFsRead with
  | none => exact Mirrors.stop err
  | some norm =>
    dsimp only
    split
    · refine Mirrors.bind ?_ fun _ _ => (Mirrors.demand _ _).bind fun _ _ => Mirrors.pure _
      rw [← pseudoStores_spans]
      simpa [Function.comp_def] using Mirrors.touch (k := k)
        ((pseudoStores (sysinfo env k) norm a3.toNat).map fun s => ⟨a2 + BitVec.ofNat 64 s.1, s.2⟩)
    · cases fsRead k.nodes norm a3.toNat with
      | none => exact Mirrors.stop err
      | some data => exact (Mirrors.when (Mirrors.touch [⟨a2, data⟩])).bind fun _ _ => Mirrors.pure _

theorem showing_mirrors (hplain : ∀ p ∈ k.procs, Plain p) (hprocs : k.procs.length ≤ 64) (stale : Buf) (c : Showing)
    (a1 a2 a3 a4 : U64) : Mirrors k (showing env cur stale c a1 a2 a3)
    (syscallDispatch m env cur c.nr a1 a2 a3 a4) := by
  refine (Mirrors.cap _).bind fun _ _ => ?_
  cases c with
  | fsRead => exact fsReadOut_mirrors hplain hprocs stale a1 a2 a3
  | fsList => exact fsListOut_mirrors stale a1 a2 a3
  | sysinfo => exact sysinfoOut_mirrors stale a1
  | procList => exact procListOut_mirrors stale a1 a2
  | contractList => exact contractListOut_mirrors stale a1 a2
  | authList => exact authListOut_mirrors stale a1 a2

end

end Siathos.Syscall
