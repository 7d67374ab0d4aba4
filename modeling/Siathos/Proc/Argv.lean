import Siathos.Lib.CStr
import Siathos.Lib.Fixes
import Siathos.Proc.Bytes

/-!
# The arguments on the user stack (`proc.c`)

The creations for ring 3 with their `argc` and `argv`. The pointers are at the top of the user stack, with the strings
below them. All else that the stack holds is what its frames held before.
-/

open Lib Siathos.Paging

namespace Siathos.Proc.Argv

open Memory

/-! ## Copies -/

/-- A `memset` or `memcpy` of `len` bytes at the physical address `dst`. -/
structure Copy where
  dst : Nat
  len : Nat
  val : Nat → BitVec 8

def Copy.Covers (c : Copy) (a : Nat) : Prop := c.dst ≤ a ∧ a < c.dst + c.len

instance (c : Copy) (a : Nat) : Decidable (c.Covers a) := inferInstanceAs (Decidable (_ ∧ _))

def Copy.put (c : Copy) (b : Nat → BitVec 8) : Nat → BitVec 8 := fun a => if c.Covers a then c.val (a - c.dst) else b a

def putAll (cs : List Copy) (b : Nat → BitVec 8) : Nat → BitVec 8 := cs.foldl (fun b c => c.put b) b

theorem Copy.put_fixes (c : Copy) : Fixes c.put c.Covers := by
  constructor
  · intro a ha b b'
    simp only [Copy.put, if_pos ha]
  · intro a ha b
    exact if_neg ha

theorem putAll_cons (c : Copy) (cs : List Copy) (b : Nat → BitVec 8) : putAll (c :: cs) b = putAll cs (c.put b) := rfl

theorem putAll_append (cs cs' : List Copy) (b : Nat → BitVec 8) : putAll (cs ++ cs') b = putAll cs' (putAll cs b) :=
  List.foldl_append

theorem putAll_fixes (cs : List Copy) : Fixes (putAll cs) fun a => ∃ c ∈ cs, c.Covers a := by
  induction cs with
  | nil => exact Fixes.id.of_iff (by simp)
  | cons c cs ih => exact (c.put_fixes.comp ih).of_iff (by simp)

/-! ## The layout -/

def appsArgcMax : Nat := 16

def userStackSize : Nat := userStackPages * 0x1000

/-- `APPS_ARGV_ZONE`: the size of the part of the stack in which the arguments are put. -/
def appsArgvZone : Nat := 0x1000

/-- The loop over the strings, which begins with the last of them: where each is put below `ps`, if it is put anywhere.
It ends at the first for which there is no room. -/
def placeStrings (zoneFloor : Nat) : Nat → List (Option CStr) → List (Option Nat)
  | _, [] => []
  | ps, none :: rest => none :: placeStrings zoneFloor ps rest
  | ps, some s :: rest =>
    if ps - (s.length + 1) < zoneFloor then List.replicate (rest.length + 1) none
    else some (ps - (s.length + 1)) :: placeStrings zoneFloor (ps - (s.length + 1)) rest

/-- `arr`, the array of pointers at the top of the stack. -/
def argvArray (userStack argc : Nat) : Nat := userStack + userStackSize - (argc + 1) * 8

def stringCopy (s : CStr) (p : Nat) : Copy := ⟨p, s.length + 1, fun j => (s.getD j 0).toBitVec⟩

def wordCopy (p : Nat) (w : BitVec 64) : Copy := ⟨p, 8, fun j => (w >>> (8 * j)).setWidth 8⟩

/-- What the layout writes, for a stack at `userStackBase` in the frames from the address `userStack` on. `aVa` is what
the kernel stack held before in `a_va`, where no place of a string is put. -/
def argvCopies (userStackBase : BitVec 64) (userStack : Nat) (aVa : Nat → BitVec 64) (argv : List (Option CStr)) :
    List Copy :=
  let argv := argv.take appsArgcMax
  if argv = [] then []
  else
    let arr := argvArray userStack argv.length
    let places := placeStrings (userStack + userStackSize - appsArgvZone) arr argv.reverse
    let va (i : Nat) : BitVec 64 :=
      match places[argv.length - 1 - i]? with
      | some (some p) => userStackBase + BitVec.ofNat 64 (p - userStack)
      | _ => aVa i
    ((argv.reverse.zip places).filterMap fun x => x.2.bind fun p => x.1.map fun s => stringCopy s p) ++
      ((List.range argv.length).map fun i => wordCopy (arr + 8 * i) (va i)) ++
      [wordCopy (arr + 8 * argv.length) 0]

/-! ## The creations -/

/-- `proc_enter_user`, for the `argc` arguments of `argv`, or none. -/
def enterUser (pm : Nat) (code : List Region) (aVa : Nat → BitVec 64) (argv : List (Option CStr)) (p : Pcb) (m : Vm) :
    Vm × Option Pcb :=
  let userStackBase := maxEnd code + 0x10000
  let (pmm, userStack) := pmmAlloc m.pmm .userStack userStackPages
  if userStack = 0 then ({ m with pmm }, none)
  else
    let m := mapPages pm userStackBase userStack (0x7 ||| nx) userStackPages { m with pmm }
    let m := { m with bytes := putAll (argvCopies userStackBase (userStack * 0x1000) aVa argv) m.bytes }
    (m, some { p with
      isUser := true
      umap := code ++ [⟨userStackBase, BitVec.ofNat 64 (userStackPages * 0x1000)⟩]
      umapHeap := none })

/-- `proc_create_user_args`. -/
def createUserArgs (kernel : Nat) (room : Option Nat) (userCode : Nat → BitVec 8) (userSize : Nat)
    (aVa : Nat → BitVec 64) (argv : List (Option CStr)) (s : Sys) : Sys × Int :=
  match findFree s with
  | none => (s, -1)
  | some idx =>
    let p := { s.procs idx with present := true, terminated := false, pid := s.nextPid }
    let s := { s with nextPid := s.nextPid + 1 }
    let (s, stack) := kmalloc room s
    if stack = 0 then (s.set idx { p with present := false, stack := 0 }, -2)
    else
      let (vm, pm) := newAddressSpace kernel s.vm
      let s := { s with vm }
      if pm = 0 then ((kfree stack s).set idx { p with present := false, stack }, -3)
      else
        let p := { p with stack, cr3 := pm }
        let (pmm, codePhys) := pmmAlloc s.vm.pmm .code (codePages userSize)
        let s := { s with vm := { s.vm with pmm } }
        if codePhys = 0 then ((kfree stack s).set idx { p with present := false }, -4)
        else
          let vm := fill s.vm (codePhys * 0x1000) userSize userCode
          let vm := mapPages pm userVaddrBase codePhys 0x5 (codePages userSize) vm
          match enterUser pm [⟨userVaddrBase, BitVec.ofNat 64 (codePages userSize * 0x1000)⟩] aVa argv p vm with
          | (vm, none) => ((kfree stack { s with vm }).set idx { p with present := false }, -5)
          | (vm, some p) => ({ s with vm }.set idx p, p.pid)

/-- `proc_create_user_regions`. -/
def createUserRegions (kernel : Nat) (room : Option Nat) (img : Nat → BitVec 8) (regs : List Ureg)
    (aVa : Nat → BitVec 64) (argv : List (Option CStr)) (s : Sys) : Sys × Int :=
  if regs.length = 0 ∨ regs.length > 7 then (s, -9)
  else match findFree s with
  | none => (s, -1)
  | some idx =>
    let p := { s.procs idx with present := true, terminated := false, pid := s.nextPid }
    let s := { s with nextPid := s.nextPid + 1 }
    let (s, stack) := kmalloc room s
    if stack = 0 then (s.set idx { p with present := false, stack := 0 }, -2)
    else
      let (vm, pm) := newAddressSpace kernel s.vm
      let s := { s with vm }
      if pm = 0 then ((kfree stack s).set idx { p with present := false, stack }, -3)
      else
        let p := { p with stack, cr3 := pm }
        match loadRegions pm img regs [] s.vm with
        | (vm, .error e) =>
          ((kfree stack { s with vm := freeAddressSpace kernel pm vm }).set idx { p with present := false }, e)
        | (vm, .ok code) =>
          match enterUser pm code aVa argv p vm with
          | (vm, none) => ((kfree stack { s with vm }).set idx { p with present := false }, -5)
          | (vm, some p) => ({ s with vm }.set idx p, p.pid)

/-! ## The zone -/

theorem userStackSize_eq : userStackSize = 0x10000 := rfl

/-- The copies are in the zone at the top of the stack. -/
def InZone (userStack : Nat) (c : Copy) : Prop :=
  userStack + userStackSize - appsArgvZone ≤ c.dst ∧ c.dst + c.len ≤ userStack + userStackSize

theorem placeStrings_between {zoneFloor ps p : Nat} {strings : List (Option CStr)} {s : CStr}
    (h : (some s, some p) ∈ strings.zip (placeStrings zoneFloor ps strings)) :
    zoneFloor ≤ p ∧ (zoneFloor ≠ 0 → p + (s.length + 1) ≤ ps) := by
  induction strings generalizing ps with
  | nil => simp at h
  | cons string rest ih =>
    cases string with
    | none =>
      rw [placeStrings, List.zip_cons_cons, List.mem_cons] at h
      rcases h with h | h
      · cases h
      · exact ih h
    | some string =>
      rw [placeStrings] at h
      split at h
      · have hnone := List.eq_of_mem_replicate (List.of_mem_zip h).2
        cases hnone
      · rw [List.zip_cons_cons, List.mem_cons] at h
        rcases h with h | h
        · cases h
          omega
        · have hrest := ih h
          omega

theorem argvCopies_inZone (userStackBase : BitVec 64) (userStack : Nat) (aVa : Nat → BitVec 64)
    (argv : List (Option CStr)) :
    ∀ c ∈ argvCopies userStackBase userStack aVa argv, InZone userStack c := by
  intro c hc
  unfold argvCopies at hc
  have hlen : (argv.take appsArgcMax).length ≤ 16 := List.length_take_le ..
  generalize argv.take appsArgcMax = argv at hc hlen
  dsimp only at hc
  split at hc
  · simp at hc
  · have harr : argvArray userStack argv.length + (argv.length + 1) * 8 = userStack + userStackSize := by
      rw [argvArray, userStackSize_eq]
      omega
    rw [userStackSize_eq] at harr
    simp only [List.mem_append, List.mem_filterMap, List.mem_map, List.mem_range, List.mem_singleton] at hc
    simp only [InZone, userStackSize_eq, appsArgvZone]
    rcases hc with (⟨⟨string, place⟩, hzip, hstring⟩ | ⟨i, hi, rfl⟩) | rfl
    · obtain ⟨p, rfl, s, rfl, rfl⟩ : ∃ p, place = some p ∧ ∃ s, string = some s ∧ stringCopy s p = c := by
        simpa [Option.bind_eq_some_iff] using hstring
      have hbetween := placeStrings_between hzip
      simp only [userStackSize_eq, appsArgvZone] at hbetween
      simp only [stringCopy]
      omega
    · simp only [wordCopy]
      omega
    · simp only [wordCopy]
      omega

theorem putAll_other {cs : List Copy} {a : Nat} (h : ∀ c ∈ cs, ¬c.Covers a) (b : Nat → BitVec 8) :
    putAll cs b a = b a :=
  (putAll_fixes cs).kept a (fun ⟨c, hc, ha⟩ => h c hc ha) b

theorem enterUser_zone (pm : Nat) (code : List Region) (aVa : Nat → BitVec 64) (argv : List (Option CStr)) (p : Pcb)
    (m : Vm) :
    ∃ zone, enterUser pm code aVa argv p m = Memory.enterUser pm code zone p m := by
  unfold enterUser Memory.enterUser
  cases pmmAlloc m.pmm .userStack userStackPages with
  | mk pmm userStack =>
    dsimp only
    generalize mapPages pm (maxEnd code + 0x10000) userStack (0x7 ||| nx) userStackPages { m with pmm } = m
    split
    · exact ⟨fun _ => 0, rfl⟩
    · let bytes := putAll (argvCopies (maxEnd code + 0x10000) (userStack * 0x1000) aVa argv) m.bytes
      refine ⟨fun j => bytes ((userStack + 15) * 0x1000 + j), ?_⟩
      have hbytes : bytes = (fill m ((userStack + 15) * 0x1000) 0x1000
          fun j => bytes ((userStack + 15) * 0x1000 + j)).bytes := by
        funext a
        simp only [fill]
        split
        · rename_i ha
          rw [Nat.add_sub_cancel' ha.1]
        · rename_i ha
          refine putAll_other (fun c hc hcov => ha ?_) m.bytes
          have hzone := argvCopies_inZone _ _ _ _ c hc
          simp only [InZone, userStackSize_eq, appsArgvZone] at hzone
          have hin := hcov
          simp only [Copy.Covers] at hin
          omega
      exact congrArg (fun b => (({ m with bytes := b } : Vm), _)) hbytes

theorem createUserArgs_zone (kernel : Nat) (room : Option Nat) (userCode : Nat → BitVec 8) (userSize : Nat)
    (aVa : Nat → BitVec 64) (argv : List (Option CStr)) (s : Sys) :
    ∃ zone, createUserArgs kernel room userCode userSize aVa argv s =
      Memory.createUserArgs kernel room userCode userSize zone s := by
  unfold createUserArgs Memory.createUserArgs
  cases findFree s with
  | none => exact ⟨fun _ => 0, rfl⟩
  | some idx =>
    dsimp only
    generalize kmalloc room { s with nextPid := s.nextPid + 1 } = r
    obtain ⟨s', stack⟩ := r
    generalize newAddressSpace kernel s'.vm = r
    obtain ⟨m, pm⟩ := r
    generalize hcode : pmmAlloc m.pmm .code (codePages userSize) = r
    obtain ⟨pmm, codePhys⟩ := r
    obtain ⟨zone, henter⟩ := enterUser_zone pm [⟨userVaddrBase, BitVec.ofNat 64 (codePages userSize * 0x1000)⟩] aVa argv
      { s.procs idx with present := true, terminated := false, pid := s.nextPid, stack, cr3 := pm }
      (mapPages pm userVaddrBase codePhys 0x5 (codePages userSize)
        (fill { m with pmm } (codePhys * 0x1000) userSize userCode))
    refine ⟨zone, ?_⟩
    simp only [henter]
    unfold codePages at hcode
    simp only [hcode]
    rfl

theorem createUserRegions_zone (kernel : Nat) (room : Option Nat) (img : Nat → BitVec 8) (regs : List Ureg)
    (aVa : Nat → BitVec 64) (argv : List (Option CStr)) (s : Sys) :
    ∃ zone, createUserRegions kernel room img regs aVa argv s =
      Memory.createUserRegions kernel room img regs zone s := by
  unfold createUserRegions Memory.createUserRegions
  split
  · exact ⟨fun _ => 0, rfl⟩
  · cases findFree s with
    | none => exact ⟨fun _ => 0, rfl⟩
    | some idx =>
      dsimp only
      generalize kmalloc room { s with nextPid := s.nextPid + 1 } = r
      obtain ⟨s', stack⟩ := r
      generalize newAddressSpace kernel s'.vm = r
      obtain ⟨m, pm⟩ := r
      generalize loadRegions pm img regs [] m = r
      obtain ⟨m, e | code⟩ := r
      · exact ⟨fun _ => 0, rfl⟩
      · obtain ⟨zone, henter⟩ := enterUser_zone pm code aVa argv
          { s.procs idx with present := true, terminated := false, pid := s.nextPid, stack, cr3 := pm } m
        refine ⟨zone, ?_⟩
        dsimp only
        apply Eq.trans
        · rw [henter]
        · rfl

end Siathos.Proc.Argv
