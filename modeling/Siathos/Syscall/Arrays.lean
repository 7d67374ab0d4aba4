import Mathlib.Data.List.TakeWhile
import Siathos.Lib.Buffer
import Siathos.Syscall.Rules

/-!
# The arrays of system calls (`fs.c`, `sysinfo.c`, `auth.c`)

The kernel lists its tables into arrays on its stack. What an array held before stays where nothing is written.
-/

open Lib Siathos.Nomos Siathos.Fs

namespace Siathos.Syscall

/-! ## Files -/

/-- The loop of `fs_list`, from a node on. -/
def fsListLoop (dir : CStr) (max : Nat) : Nodes → Out → Out
  | [], o => o
  | n :: rest, o =>
    match if n.used then childName dir n.path else none with
    | none => fsListLoop dir max rest o
    | some name =>
      let line := ascii "  " ++ ascii (if n.type = .dir then "<DIR>" else "<ARQ>") ++ ascii "   " ++ name ++
        ascii "\n"
      let buf := o.buf.snprintf o.used (max - o.used) line
      let need := (cut (max - o.used) line).length
      if o.used + need ≥ max then ⟨buf, o.used⟩ else fsListLoop dir max rest ⟨buf, o.used + need⟩

/-- `fs_list`, with the buffer that it fills. -/
def fsListInto (ns : Nodes) (dir : CStr) (max : Nat) (b : Buf) : Buf :=
  let o := fsListLoop dir max ns ⟨b, 0⟩
  if ns.any (fun n => n.used && (childName dir n.path).isSome) then o.close.1
  else
    let buf := o.buf.snprintf o.used (max - o.used) (ascii "  (vazio)\n")
    let need := (cut (max - o.used) (ascii "  (vazio)\n")).length
    (Out.mk buf (if o.used + need < max then o.used + need else o.used)).close.1

/-- `vfs_list`, for a path that the policy lets through. -/
def listInto (ns : Nodes) (norm : CStr) (max : Nat) (b : Buf) : Buf :=
  match if vfsIsPseudo norm then vfsPseudoList norm else none with
  | some text => b.snprintf 0 max text
  | none => fsListInto ns norm max b

/-- The line that `fs_list` has for a node, whether there is room or not. -/
def listedLine (dir : CStr) (n : FsNode) : CStr :=
  ((if n.used then childName dir n.path else none).map fun name =>
    ascii "  " ++ ascii (if n.type = .dir then "<DIR>" else "<ARQ>") ++ ascii "   " ++ name ++ ascii "\n").getD []

/-- The whole listing of a folder. -/
def listing (ns : Nodes) (norm : CStr) : CStr :=
  match if vfsIsPseudo norm then vfsPseudoList norm else none with
  | some text => text
  | none =>
    if ns.any (fun n => n.used && (childName norm n.path).isSome) then ns.flatMap (listedLine norm)
    else ascii "  (vazio)\n"

/-- The bytes of a string and its NUL, as far as there is room. -/
def Filled (u max len : Nat) (i : Nat) : Prop := u ≤ i ∧ i < max ∧ i ≤ u + len

theorem fixes_snprintf {u max : Nat} (hu : u < max) (s : CStr) :
    Fixes (Buf.snprintf · u (max - u) s) (Filled u max s.length) := by
  refine (Buf.fixes_write u _).of_iff fun i => ?_
  simp [Filled, cut]
  omega

theorem fsListLoop_fixes {dir : CStr} {max : Nat} {ns : Nodes} {u : Nat} (hu : u < max) :
    Fixes (fun b => (fsListLoop dir max ns ⟨b, u⟩).close.1) (Filled u max (ns.flatMap (listedLine dir)).length) := by
  induction ns generalizing u with
  | nil =>
    refine (Buf.fixes_write u [0]).of_iff fun i => ?_
    simp [Filled]
    omega
  | cons n ns ih =>
    cases hname : (if n.used then childName dir n.path else none) with
    | none =>
      have hlines : (n :: ns).flatMap (listedLine dir) = ns.flatMap (listedLine dir) := by simp [listedLine, hname]
      simp only [fsListLoop, hname, hlines]
      exact ih hu
    | some name =>
      have hlines : ((n :: ns).flatMap (listedLine dir)).length =
          (listedLine dir n).length + (ns.flatMap (listedLine dir)).length := by simp
      have hline : listedLine dir n = ascii "  " ++ ascii (if n.type = .dir then "<DIR>" else "<ARQ>") ++
          ascii "   " ++ name ++ ascii "\n" := by simp [listedLine, hname]
      -- What `snprintf` returns always fits, and so the loop never ends early.
      have hneed : u + (cut (max - u) (listedLine dir n)).length < max := by
        simp [cut]
        omega
      have hnot : ¬ u + (cut (max - u) (listedLine dir n)).length ≥ max := Nat.not_le.mpr hneed
      simp only [fsListLoop, hname, ← hline, if_neg hnot]
      refine ((fixes_snprintf hu (listedLine dir n)).comp (ih hneed)).of_iff fun i => ?_
      simp only [Filled, hlines]
      simp only [cut, List.length_take]
      omega

theorem fsListLoop_none {dir : CStr} {max : Nat} {ns : Nodes}
    (h : ¬ ns.any (fun n => n.used && (childName dir n.path).isSome) = true) (o : Out) :
    fsListLoop dir max ns o = o := by
  induction ns with
  | nil => rfl
  | cons n ns ih =>
    rw [List.any_cons, Bool.or_eq_true, not_or] at h
    have hname : (if n.used then childName dir n.path else none) = none := by
      cases hused : n.used <;> simp_all
    rw [fsListLoop, hname]
    exact ih h.2

theorem listInto_fixes (ns : Nodes) (norm : CStr) {max : Nat} (hmax : 0 < max) :
    Fixes (listInto ns norm max) (Filled 0 max (listing ns norm).length) := by
  unfold listInto listing
  split
  · exact fixes_snprintf hmax _
  unfold fsListInto
  by_cases hany : ns.any (fun n => n.used && (childName norm n.path).isSome) = true
  · simp only [hany, if_true]
    exact fsListLoop_fixes hmax
  · have hneed : (cut max (ascii "  (vazio)\n")).length < max := by
      simp [cut]
      omega
    simp only [hany, fsListLoop_none hany]
    simp only [Bool.false_eq_true, if_false, Nat.sub_zero, Nat.zero_add, if_pos hneed]
    refine ((fixes_snprintf hmax (ascii "  (vazio)\n")).comp (Buf.fixes_write _ [0])).of_iff fun i => ?_
    simp [Filled, cut]
    omega

/-! ## Processes -/

def ProcState.code : ProcState → Nat
  | .created => 0
  | .ready => 1
  | .running => 2
  | .blocked => 3
  | .terminated => 4

/-- An entry of `sysinfo_proc_list`. Three bytes lie between `is_user` and `exit_code`, which no field has. -/
def putProcInfo (b : Buf) (n : Nat) (p : Process) : Buf :=
  let b := b.write (80 * n) (littleEndian 4 p.pid)
  let b := b.write (80 * n + 4) (strncpy 63 p.name)
  let b := b.write (80 * n + 67) [0]
  let b := b.write (80 * n + 68) (littleEndian 4 p.state.code)
  let b := b.write (80 * n + 72) [if p.isUser then 1 else 0]
  b.write (80 * n + 76) (littleEndian 4 p.exitCode.toNat)

/-- `sysinfo_proc_list`, from a slot on: the array and the number of entries in it. -/
def procListInto (max : Nat) : List Process → Nat → Buf → Buf × Nat
  | [], n, b => (b, n)
  | p :: ps, n, b =>
    if n < max then
      if p.present then procListInto max ps (n + 1) (putProcInfo b n p) else procListInto max ps n b
    else (b, n)

/-- `sysinfo_get`. -/
def sysinfoInto (env : Env) (k : Kernel) (b : Buf) : Buf :=
  let b := b.write 0 (littleEndian 8 env.memTotal)
  let b := b.write 8 (littleEndian 8 env.memFree)
  let b := b.write 16 (littleEndian 8 (env.memTotal - env.memFree))
  let b := b.write 24 (littleEndian 4 1)
  let b := b.write 32 (littleEndian 8 (env.ticks * 10))
  let b := b.write 40 (littleEndian 8 env.ticks)
  b.write 28 (littleEndian 4 (k.procs.filter (·.present)).length)

/-- A byte of the entries from `n` up to `m` that belongs to a field. -/
def InField (n m i : Nat) : Prop := n ≤ i / 80 ∧ i / 80 < m ∧ ¬ (73 ≤ i % 80 ∧ i % 80 < 76)

theorem putProcInfo_fixes (n : Nat) (p : Process) : Fixes (putProcInfo · n p) (InField n (n + 1)) := by
  have hpid := Buf.fixes_write (80 * n) (littleEndian 4 p.pid)
  have hname := hpid.comp (Buf.fixes_write (80 * n + 4) (strncpy 63 p.name))
  have hnul := hname.comp (Buf.fixes_write (80 * n + 67) [0])
  have hstate := hnul.comp (Buf.fixes_write (80 * n + 68) (littleEndian 4 p.state.code))
  have huser := hstate.comp (Buf.fixes_write (80 * n + 72) [if p.isUser then 1 else 0])
  have hexit := huser.comp (Buf.fixes_write (80 * n + 76) (littleEndian 4 p.exitCode.toNat))
  refine hexit.of_iff fun i => ?_
  simp only [InField, length_littleEndian, length_strncpy, List.length_singleton]
  omega

/-- The processes that have an entry. -/
def entries (max : Nat) (ps : List Process) : List Process := (ps.filter (·.present)).take max

theorem procListInto_count (max : Nat) (ps : List Process) (n : Nat) (b : Buf) :
    (procListInto max ps n b).2 = n + (entries (max - n) ps).length := by
  induction ps generalizing n b with
  | nil => simp [procListInto, entries]
  | cons p ps ih =>
    unfold procListInto
    split
    · next hn =>
      obtain ⟨r, hr⟩ : ∃ r, max - n = r + 1 := ⟨max - n - 1, by omega⟩
      split
      · next hp =>
        rw [ih, hr, show max - (n + 1) = r by omega]
        simp [entries, hp]
        omega
      · next hp =>
        rw [ih]
        simp [entries, hp]
    · next hn => simp [entries, show max - n = 0 by omega]

theorem procListInto_fixes (max : Nat) (ps : List Process) (n : Nat) :
    Fixes (fun b => (procListInto max ps n b).1) (InField n (n + (entries (max - n) ps).length)) := by
  induction ps generalizing n with
  | nil =>
    refine ⟨fun i hi => ?_, fun _ _ _ => rfl⟩
    simp [InField, entries] at hi
    omega
  | cons p ps ih =>
    by_cases hn : n < max
    · obtain ⟨r, hr⟩ : ∃ r, max - n = r + 1 := ⟨max - n - 1, by omega⟩
      have hrest := ih (n + 1)
      rw [show max - (n + 1) = r by omega] at hrest
      by_cases hp : p.present = true
      · have hlength : (entries (max - n) (p :: ps)).length = (entries r ps).length + 1 := by
          simp [entries, hp, hr]
        simp only [procListInto, if_pos hn, if_pos hp, hlength]
        refine ((putProcInfo_fixes n p).comp hrest).of_iff fun i => ?_
        simp only [InField]
        omega
      · have hlist : entries (max - n) (p :: ps) = entries (max - n) ps := by simp [entries, hp]
        simp only [procListInto, if_pos hn, if_neg hp, hlist]
        exact ih n
    · simp only [procListInto, if_neg hn]
      refine ⟨fun i hi => ?_, fun _ _ _ => rfl⟩
      simp [InField, entries, show max - n = 0 by omega] at hi
      omega

theorem procListInto_read {α : Type} {F : Buf → Nat → α} {G : Process → α} {ps : List Process}
    (hlocal : ∀ b b' i, (∀ j < 73, b (80 * i + j) = b' (80 * i + j)) → F b i = F b' i)
    (hput : ∀ p ∈ ps, ∀ b n, F (putProcInfo b n p) n = G p) (max n : Nat) (b : Buf) :
    (List.range' n (entries (max - n) ps).length).map (F (procListInto max ps n b).1) =
      (entries (max - n) ps).map G := by
  induction ps generalizing n b with
  | nil => simp [entries]
  | cons p ps ih =>
    obtain ⟨hp, hps⟩ := List.forall_mem_cons.mp hput
    by_cases hn : n < max
    · obtain ⟨r, hr⟩ : ∃ r, max - n = r + 1 := ⟨max - n - 1, by omega⟩
      by_cases hpresent : p.present = true
      · have hlist : entries (max - n) (p :: ps) = p :: entries r ps := by simp [entries, hpresent, hr]
        have hrest := ih hps (n + 1) (putProcInfo b n p)
        rw [show max - (n + 1) = r by omega] at hrest
        have hfirst : F (procListInto max ps (n + 1) (putProcInfo b n p)).1 n = F (putProcInfo b n p) n := by
          refine hlocal _ _ _ fun j hj => (procListInto_fixes max ps (n + 1)).kept _ ?_ _
          unfold InField
          omega
        rw [hlist, List.length_cons, List.range'_succ, List.map_cons, List.map_cons]
        simp only [procListInto, if_pos hn, if_pos hpresent]
        rw [hfirst, hp, hrest]
      · have hlist : entries (max - n) (p :: ps) = entries (max - n) ps := by simp [entries, hpresent]
        simp only [procListInto, if_pos hn, if_neg hpresent, hlist]
        exact ih hps n b
    · have hlist : entries (max - n) (p :: ps) = [] := by simp [entries, show max - n = 0 by omega]
      simp [hlist]

theorem sysinfoInto_fixes (env : Env) (k : Kernel) : Fixes (sysinfoInto env k) (· < 48) := by
  have htotal := Buf.fixes_write 0 (littleEndian 8 env.memTotal)
  have hfree := htotal.comp (Buf.fixes_write 8 (littleEndian 8 env.memFree))
  have hused := hfree.comp (Buf.fixes_write 16 (littleEndian 8 (env.memTotal - env.memFree)))
  have hcpu := hused.comp (Buf.fixes_write 24 (littleEndian 4 1))
  have huptime := hcpu.comp (Buf.fixes_write 32 (littleEndian 8 (env.ticks * 10)))
  have hticks := huptime.comp (Buf.fixes_write 40 (littleEndian 8 env.ticks))
  have hcount := hticks.comp (Buf.fixes_write 28 (littleEndian 4 (k.procs.filter (·.present)).length))
  refine hcount.of_iff fun i => ?_
  simp only [length_littleEndian]
  omega

/-! ## Accounts and contracts -/

/-- The lines of `auth_list_text`. -/
def authLines (a : Auth) : List CStr :=
  if a.accounts = [] then [ascii "(nenhum usuario)\n"]
  else (a.accounts.filter (·.active)).map fun u =>
    (ascii "  " ++ u.name ++ ascii (if u.isAdmin then " (soberano)" else " (voluntario)") ++
      ascii " caps=" ++ hexadecimal u.caps.toNat ++ ascii "\n").take 95

def appendInto (max : Nat) : List CStr → Out → Out
  | [], o => o
  | l :: ls, o => appendInto max ls (if o.used + l.length < max then o.pushes l else o)

/-- `auth_list_text`, with the buffer that it fills: what it returns is the length of the text. -/
def authListInto (a : Auth) (max : Nat) (b : Buf) : Buf × Nat :=
  let o := appendInto max (authLines a) ⟨b, 0⟩
  if a.accounts = [] then o.close
  else if o.used < max then o.close
  else (o.buf, o.used)

/-- The loop of `SYS_CONTRACT_LIST`. -/
def contractLoop (bsz : Nat) : List Contract → Out → Out
  | [], o => o
  | c :: cs, o =>
    if !c.ativo then contractLoop bsz cs o
    else if o.used + (contractLine c).length + 1 ≥ bsz then o
    else contractLoop bsz cs ⟨o.buf.write o.used (contractLine c ++ [0]), o.used + (contractLine c).length⟩

theorem authListText_lines (a : Auth) (max : Nat) : authListText a max = appendLines max [] (authLines a) := by
  unfold authListText authLines
  split <;> rfl

theorem appendInto_text (max : Nat) (ls : List CStr) (o : Out) :
    (appendInto max ls o).text = appendLines max o.text ls := by
  induction ls generalizing o with
  | nil => rfl
  | cons l ls ih =>
    rw [appendInto, ih, appendLines, Out.length_text]
    split
    · rw [Out.text_pushes]
    · rfl

theorem appendLines_lt {max : Nat} {used : CStr} (h : used.length < max) (ls : List CStr) :
    (appendLines max used ls).length < max := by
  induction ls generalizing used with
  | nil => exact h
  | cons l ls ih =>
    refine ih ?_
    split
    · next hroom => simpa using hroom
    · exact h

/-- The array holds the text and its NUL. -/
def Ended (r : Buf × Nat) (text : CStr) : Prop := r.2 = text.length ∧ r.1.bytes (text.length + 1) = text ++ [0]

theorem ended_close (o : Out) : Ended o.close o.text := by
  refine ⟨o.length_text.symm, ?_⟩
  rw [Out.length_text]
  exact o.bytes_close

theorem ended_start (b : Buf) : Ended (b.write 0 [0], 0) [] := ⟨rfl, b.bytes_write 0 [0]⟩

theorem authListText_lt (a : Auth) {max : Nat} (hmax : 0 < max) : (authListText a max).length < max := by
  rw [authListText_lines]
  exact appendLines_lt hmax _

theorem authListInto_ended (a : Auth) {max : Nat} (hmax : 0 < max) (b : Buf) :
    Ended (authListInto a max b) (authListText a max) := by
  have htext : (appendInto max (authLines a) ⟨b, 0⟩).text = authListText a max := by
    rw [appendInto_text, authListText_lines]
    rfl
  have hroom : (appendInto max (authLines a) ⟨b, 0⟩).used < max := by
    rw [← Out.length_text, htext]
    exact authListText_lt a hmax
  have hclose : authListInto a max b = (appendInto max (authLines a) ⟨b, 0⟩).close := by
    unfold authListInto
    simp only [if_pos hroom, ite_self]
  rw [hclose, ← htext]
  exact ended_close _

theorem contractLoop_ended (bsz : Nat) (cs : List Contract) {o : Out} {text : CStr} (h : Ended (o.buf, o.used) text) :
    Ended ((contractLoop bsz cs o).buf, (contractLoop bsz cs o).used) (contractText bsz text cs) := by
  induction cs generalizing o text with
  | nil => exact h
  | cons c cs ih =>
    have hused : o.used = text.length := h.1
    unfold contractLoop contractText
    split
    · exact ih h
    · rw [hused]
      split
      · exact h
      · refine ih ⟨by simp, ?_⟩
        have hbytes := Buf.bytes_write o.buf text.length (contractLine c ++ [0])
        have htext : o.buf.bytes text.length = text := by
          have hboth := h.2
          rw [Buf.bytes_succ] at hboth
          exact (List.append_inj hboth (by simp)).1
        rw [htext] at hbytes
        simpa [Nat.add_assoc] using hbytes

/-! ## Pseudo files -/

/-- The line of `/kinesis/processos` for an entry. -/
def infoLine (b : Buf) (i : Nat) : CStr :=
  let st := match b.numberAt (80 * i + 68) 4 with
    | 0 => "criado"
    | 1 => "pronto"
    | 2 => "rodando"
    | 3 => "bloqueado"
    | 4 => "terminado"
    | _ => "???"
  cut 128 (ascii "[" ++ decimal (b.numberAt (80 * i) 4) ++ ascii "] " ++ (b.drop (80 * i + 4)).cstr 64 ++ ascii " " ++
    ascii st ++ ascii " " ++ ascii (if b (80 * i + 72) ≠ 0 then "ring3" else "ring0") ++ ascii "\n")

/-- What `vfs_pseudo_read` knows, out of its arrays: `buf` and `si` behind it. -/
def stackInfo (env : Env) (k : Kernel) (stale : Buf) : SysInfo :=
  let procs := procListInto 64 k.procs 0 stale
  let si := sysinfoInto env k (stale.drop (64 * sizeofProcInfo))
  { total := env.memTotal
    free := env.memFree
    processes := si.numberAt 28 4
    terminated := ((List.range procs.2).filter fun i => procs.1.numberAt (80 * i + 68) 4 = 4).length
    procLines := (List.range procs.2).map (infoLine procs.1)
    ticks := env.ticks }

/-- The bytes that `APPEND` writes, and where. -/
def appendStores (max used : Nat) : List CStr → List (Nat × CStr)
  | [] => []
  | s :: rest =>
    if used + s.length < max then (used, s) :: appendStores max (used + s.length) rest
    else appendStores max used rest

def pseudoStores (i : SysInfo) (norm : CStr) (max : Nat) : List (Nat × CStr) :=
  match pseudoPieces i norm with
  | some pieces => (0, [0]) :: appendStores max 0 pieces
  | none => [(0, [0]), (0, [0])]

theorem infoLine_congr {b b' : Buf} {i : Nat} (h : ∀ j < 73, b (80 * i + j) = b' (80 * i + j)) :
    infoLine b i = infoLine b' i := by
  have hpid : b.numberAt (80 * i) 4 = b'.numberAt (80 * i) 4 := Buf.numberAt_congr fun j hj => h j (by omega)
  have hstate : b.numberAt (80 * i + 68) 4 = b'.numberAt (80 * i + 68) 4 :=
    Buf.numberAt_congr fun j hj => by simpa [Nat.add_assoc] using h (68 + j) (by omega)
  have hname : (b.drop (80 * i + 4)).cstr 64 = (b'.drop (80 * i + 4)).cstr 64 := by
    have hbytes : (b.drop (80 * i + 4)).bytes 64 = (b'.drop (80 * i + 4)).bytes 64 :=
      Buf.bytes_congr fun j hj => by simpa [Buf.drop, Nat.add_assoc] using h (4 + j) (by omega)
    rw [Buf.cstr, Buf.cstr, hbytes]
  unfold infoLine
  rw [hpid, hstate, hname, h 72 (by omega)]

/-- The fields of the process fit the entry. -/
structure Plain (p : Process) : Prop where
  pid : p.pid < 2 ^ 32
  name_lt : p.name.length < 64
  name_nul : 0 ∉ p.name

theorem put_state (b : Buf) (n : Nat) (p : Process) :
    (putProcInfo b n p).numberAt (80 * n + 68) 4 = p.state.code := by
  have hcode : p.state.code < 256 ^ 4 := by cases p.state <;> decide
  unfold putProcInfo
  rw [Buf.numberAt_other (by simp), Buf.numberAt_other (by simp), Buf.numberAt_write hcode]

theorem put_name {p : Process} (h : Plain p) (b : Buf) (n : Nat) :
    ((putProcInfo b n p).drop (80 * n + 4)).cstr 64 = p.name := by
  have hlt := h.name_lt
  have hname : strncpy 63 p.name ++ [0] = p.name ++ 0 :: List.replicate (63 - p.name.length) 0 := by
    rw [strncpy, List.take_of_length_le (by omega), List.append_assoc, ← List.replicate_succ', List.replicate_succ]
  have hbytes : ((putProcInfo b n p).drop (80 * n + 4)).bytes 64 = strncpy 63 p.name ++ [0] := by
    have hfield := (b.write (80 * n) (littleEndian 4 p.pid)).bytes_drop_write (80 * n + 4) (strncpy 63 p.name ++ [0])
    rw [Buf.write_append] at hfield
    unfold putProcInfo
    rw [Buf.bytes_drop_other (by simp), Buf.bytes_drop_other (by simp), Buf.bytes_drop_other (by simp)]
    simpa [Nat.add_assoc] using hfield
  have hall : p.name.takeWhile (· != 0) = p.name :=
    List.takeWhile_eq_self_iff.mpr fun c hc => by
      have hne : c ≠ 0 := fun h0 => h.name_nul (h0 ▸ hc)
      simpa using hne
  rw [Buf.cstr, hbytes, hname, Buf.takeWhile_cons_nul, hall]

theorem put_line {p : Process} (h : Plain p) (b : Buf) (n : Nat) : infoLine (putProcInfo b n p) n = procLine p := by
  have hpid : (putProcInfo b n p).numberAt (80 * n) 4 = p.pid := by
    unfold putProcInfo
    rw [Buf.numberAt_other (by simp), Buf.numberAt_other (by simp), Buf.numberAt_other (by simp),
      Buf.numberAt_other (by simp), Buf.numberAt_other (by simp), Buf.numberAt_write h.pid]
  have hlt := h.name_lt
  have hcut : cut 64 p.name = p.name := List.take_of_length_le (by omega)
  have huser : putProcInfo b n p (80 * n + 72) = if p.isUser then 1 else 0 := by
    unfold putProcInfo
    rw [Buf.write_before (by omega)]
    simp [Buf.write]
  unfold infoLine procLine
  rw [hpid, put_name h, put_state, huser, hcut]
  cases p.state <;> cases p.isUser <;> rfl

theorem stackInfo_same (env : Env) (k : Kernel) (b b' : Buf) : stackInfo env k b = stackInfo env k b' := by
  have hcount : (procListInto 64 k.procs 0 b).2 = (procListInto 64 k.procs 0 b').2 := by
    rw [procListInto_count, procListInto_count]
  have hfield : ∀ i < (procListInto 64 k.procs 0 b').2, ∀ j < 73,
      (procListInto 64 k.procs 0 b).1 (80 * i + j) = (procListInto 64 k.procs 0 b').1 (80 * i + j) := by
    intro i hi j hj
    rw [procListInto_count] at hi
    refine (procListInto_fixes 64 k.procs 0).same _ ?_ b b'
    unfold InField
    omega
  have hsi : (sysinfoInto env k (b.drop (64 * sizeofProcInfo))).numberAt 28 4 =
      (sysinfoInto env k (b'.drop (64 * sizeofProcInfo))).numberAt 28 4 :=
    Buf.numberAt_congr fun j hj => (sysinfoInto_fixes env k).same _ (by omega) _ _
  have hlines : (List.range (procListInto 64 k.procs 0 b').2).map (infoLine (procListInto 64 k.procs 0 b).1) =
      (List.range (procListInto 64 k.procs 0 b').2).map (infoLine (procListInto 64 k.procs 0 b').1) :=
    List.map_congr_left fun i hi => infoLine_congr (hfield i (List.mem_range.mp hi))
  have hended : ∀ i ∈ List.range (procListInto 64 k.procs 0 b').2,
      decide ((procListInto 64 k.procs 0 b).1.numberAt (80 * i + 68) 4 = 4) =
        decide ((procListInto 64 k.procs 0 b').1.numberAt (80 * i + 68) 4 = 4) := by
    intro i hi
    rw [Buf.numberAt_congr fun j hj => by
      simpa [Nat.add_assoc] using hfield i (List.mem_range.mp hi) (68 + j) (by omega)]
  unfold stackInfo
  dsimp only
  rw [hcount, hsi, hlines, List.filter_congr hended]

/-- What `vfs_pseudo_read` knows is what the tables hold. -/
theorem stackInfo_eq {k : Kernel} (hplain : ∀ p ∈ k.procs, Plain p) (hprocs : k.procs.length ≤ 64) (env : Env)
    (stale : Buf) : stackInfo env k stale = sysinfo env k := by
  have hall : entries 64 k.procs = k.procs.filter (·.present) :=
    List.take_of_length_le (Nat.le_trans (List.length_filter_le _ _) hprocs)
  have hcount : (procListInto 64 k.procs 0 stale).2 = (entries 64 k.procs).length := by
    simpa using procListInto_count 64 k.procs 0 stale
  have hlines := procListInto_read (G := procLine) (fun b b' i => infoLine_congr)
    (fun p hp b n => put_line (hplain p hp) b n) 64 0 stale
  have hstates := procListInto_read (F := fun b i => b.numberAt (80 * i + 68) 4) (G := fun p => p.state.code)
    (fun b b' i h => Buf.numberAt_congr fun j hj => by simpa [Nat.add_assoc] using h (68 + j) (by omega))
    (fun p (_ : p ∈ k.procs) b n => put_state b n p) 64 0 stale
  have hprocesses : (sysinfoInto env k (stale.drop (64 * sizeofProcInfo))).numberAt 28 4 =
      (k.procs.filter (·.present)).length := by
    have hlt : (k.procs.filter (·.present)).length < 256 ^ 4 :=
      Nat.lt_of_le_of_lt (Nat.le_trans (List.length_filter_le _ _) hprocs) (by decide)
    unfold sysinfoInto
    rw [Buf.numberAt_write hlt]
  have hterminated : ((List.range (entries 64 k.procs).length).filter fun i =>
      (procListInto 64 k.procs 0 stale).1.numberAt (80 * i + 68) 4 = 4).length =
        (k.procs.filter fun p => p.present && p.state = .terminated).length := by
    have hcode : ∀ p : Process, decide (p.state.code = 4) = decide (p.state = .terminated) := fun p => by
      cases p.state <;> rfl
    have hfiltered := congrArg (fun l => (l.filter fun c => decide (c = 4)).length) hstates
    simp only [List.filter_map, List.length_map, ← List.range_eq_range', hall, List.filter_filter] at hfiltered
    simpa [hall, Function.comp_def, hcode, Bool.and_comm] using hfiltered
  unfold stackInfo sysinfo
  rw [← List.range_eq_range'] at hlines
  simp only [hcount, hprocesses, hterminated]
  rw [hlines]
  rfl

end Siathos.Syscall
