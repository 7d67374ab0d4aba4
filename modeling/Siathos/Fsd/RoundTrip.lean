import Mathlib.Data.List.TakeDrop
import Siathos.Fs.Files
import Siathos.Fsd.Mediation
import Siathos.Fsd.Store

/-!
# Writing a file and reading it back (`spud_fs_write`, `spud_fs_read`)

A client asks 'fsd', and the kernel where there is no 'fsd'. A request to write has 383 bytes for the path and
the data, and the service tells nobody that something was cut.
-/

open Lib Siathos.Nomos Siathos.Fs Siathos.Syscall Siathos.Session
open Siathos.Ipc (Message)

namespace Siathos.Fsd

/-! ## The client -/

/-- The bytes of `req` in `spud_fsd_write` that are not its last. -/
def packMax : Nat := 256 + 128 - 1

/-- The request of `spud_fsd_write`. -/
def pack (path : CStr) (data : List UInt8) : List UInt8 := (path ++ 0x0A :: data).take packMax

/-- When the service works on a request that the client does not wait for. -/
inductive Turn
  /-- Before the client goes on. -/
  | before
  /-- After the call, and before the file is read. -/
  | after
  | never
  deriving DecidableEq, Repr

/-- How an rpc goes. `spud_ipc_send` refuses the request, or the first message that the client finds in its
mailbox within the tries of `spud_ipc_recv_retry` is the answer, or it is another one, or there is none. -/
inductive Course
  | unsent
  | answered
  | missed (turn : Turn) (first : Option Message)
  deriving DecidableEq, Repr

/-- The service works on a request: what it leaves, and the answer. -/
def serviced (env : Env) (w : World) (cur client type : Nat) (payload : List UInt8) : World × List UInt8 :=
  match w.fsd with
  | none => (w, [])
  | some s =>
    let r := handle env w.sys.kernel cur client s type (request payload)
    (⟨{ w.sys with kernel := { w.sys.kernel with nodes := r.2.1 } }, some r.1⟩, r.2.2.bytes)

/-- `spud_fsd_rpc`, with room for `outMax` bytes. `w.fsd` is what `spud_svc_query_retry` finds. -/
def spudFsdRpc (env : Env) (w : World) (cur client type : Nat) (payload : List UInt8) (outMax : Nat) (c : Course) :
    World × Option (List UInt8) :=
  if w.fsd.isNone then (w, none)
  else match c with
  | .unsent => (w, none)
  | .answered =>
    let r := serviced env w cur client type payload
    (r.1, some (r.2.take (outMax - 1)))
  | .missed turn first =>
    let w' := if turn = .before then (serviced env w cur client type payload).1 else w
    match first with
    | none => (w', none)
    | some m =>
      if m.type ≠ type ∨ m.sender ≠ (w.sys.kernel.proc cur).pid then (w', none)
      else (w', some (m.payload.take (outMax - 1)))

/-- The client writes by `SYS_FS_WRITE`. -/
def fallback (env : Env) (w : World) (client : Nat) (path : CStr) (data : List UInt8) : World × Bool :=
  let r := callWrite env w.sys.kernel client path data
  ({ w with sys := { w.sys with kernel := { w.sys.kernel with nodes := r.1 } } }, r.2)

/-- `spud_fs_write`, and whether it returns 0. The service meets `senv`. -/
def spudFsWrite (env senv : Env) (w : World) (cur client : Nat) (path : CStr) (data : List UInt8) (c : Course) :
    World × Bool :=
  match spudFsdRpc senv w cur client ipcTypeFsWrite (pack path data) 16 c with
  | (w', some out) => (w', decide (out.head? = some 0x31))
  | (w', none) => fallback env w' client path data

/-- The service works on a request to write after the client has gone on. -/
def servicedLate (senv : Env) (w : World) (cur client : Nat) (path : CStr) (data : List UInt8) : Course → World
  | .missed .after _ => (serviced senv w cur client ipcTypeFsWrite (pack path data)).1
  | _ => w

/-- The system after `spud_fs_write`, when the file is read. -/
def afterWrite (env senv : Env) (w : World) (cur client : Nat) (path : CStr) (data : List UInt8) (c : Course) : World :=
  servicedLate senv (spudFsWrite env senv w cur client path data c).1 cur client path data c

/-- `spud_fs_read`: what it leaves in `out`, as long as it returns. -/
def spudFsRead (env senv : Env) (w : World) (cur client : Nat) (path : CStr) (max : Nat) (c : Course) :
    Option (List UInt8) :=
  match spudFsdRpc senv w cur client ipcTypeRead path max c with
  | (_, some out) => some out
  | (w', none) => callRead env w'.sys.kernel client path max

/-! ## The kernel -/

variable {env env' : Env} {k : Kernel} {cur client : Nat}

/-- The file that a call is about. -/
def callTarget (k : Kernel) (cur : Nat) (need : Rights) (path : CStr) : Option CStr :=
  (sysPath k cur need path).bind (vfsPath (policy cur k) root · need)

/-- What a call to write leaves in which file. One that fails may leave the file empty that it has made. -/
def leftByCall (env : Env) (k : Kernel) (i : Nat) (path : CStr) (data : List UInt8) : Option (CStr × List UInt8) :=
  (callTarget k i capFsWrite path).bind fun p =>
    if (callWrite env k i path data).2 then some (p, data)
    else if fileAt k.nodes p = none ∧ fileAt (callWrite env k i path data).1 p = some [] then some (p, [])
    else none

/-- What is left in the file that is looked for. -/
def found (left : Option (CStr × List UInt8)) (target : Option CStr) : Option (List UInt8) :=
  left.bind fun f => if target = some f.1 then some f.2 else none

theorem found_none (left : Option (CStr × List UInt8)) : found left none = none := by
  cases left <;> simp [found]

theorem leftByCall_ok {i : Nat} {path : CStr} {data : List UInt8} (h : (callWrite env k i path data).2 = true) :
    leftByCall env k i path data = (callTarget k i capFsWrite path).map (·, data) := by
  unfold leftByCall
  cases callTarget k i capFsWrite path with
  | none => rfl
  | some p => simp [h]

theorem files_of_found {ns ns' : Nodes} {norm : CStr} {d : List UInt8} (hpseudo : vfsIsPseudo norm = false)
    (hfiles : ∀ q, fileAt ns' q = if q = norm then some d else fileAt ns q) :
    (∀ q, fileAt ns' q = (found (some (norm, d)) (some q)).or (fileAt ns q)) ∧
    ∀ f ∈ some (norm, d), vfsIsPseudo f.1 = false := by
  refine ⟨fun q => ?_, fun f hf => ?_⟩
  · rw [hfiles]
    by_cases hq : q = norm <;> simp [found, hq]
  · obtain rfl := Option.some.inj hf
    exact hpseudo

theorem callWrite_left (env : Env) (k : Kernel) (i : Nat) (path : CStr) (data : List UInt8) :
    (∀ q, fileAt (callWrite env k i path data).1 q =
      (found (leftByCall env k i path data) (some q)).or (fileAt k.nodes q)) ∧
    ∀ f ∈ leftByCall env k i path data, vfsIsPseudo f.1 = false := by
  cases htarget : callTarget k i capFsWrite path with
  | none =>
    have hcall : (callWrite env k i path data).1 = k.nodes := by
      unfold callTarget at htarget
      unfold callWrite vfsWrite
      cases hsys : sysPath k i capFsWrite path with
      | none => rfl
      | some p =>
        rw [hsys, Option.bind_some] at htarget
        simp [htarget]
    have hnone : leftByCall env k i path data = none := by simp [leftByCall, htarget]
    rw [hnone, hcall]
    exact ⟨fun q => by simp [found], by simp⟩
  | some norm =>
    obtain ⟨p, hsys, hvfs⟩ := Option.bind_eq_some_iff.mp htarget
    have hcall : callWrite env k i path data = vfsWrite env.kmallocOk (policy i k) k.nodes root p data := by
      unfold callWrite
      simp only [hsys]
    rcases vfsWrite_cases hvfs with heq | ⟨hpseudo, ⟨ns, heq, -, hfiles⟩ | ⟨ns, heq, hnew, hfiles⟩⟩
    · have hnone : leftByCall env k i path data = none := by
        unfold leftByCall
        rw [htarget, hcall, heq, Option.bind_some]
        simp only [Bool.false_eq_true, if_false]
        exact if_neg fun h => by simp [h.1] at h
      rw [hnone, hcall, heq]
      exact ⟨fun q => by simp [found], by simp⟩
    · have hleft : leftByCall env k i path data = some (norm, data) := by
        rw [leftByCall_ok (by rw [hcall, heq]), htarget]
        rfl
      rw [hleft, hcall, heq]
      exact files_of_found hpseudo hfiles
    · have hleft : leftByCall env k i path data = some (norm, []) := by
        unfold leftByCall
        rw [htarget, hcall, heq, Option.bind_some]
        simp [hnew, hfiles]
      rw [hleft, hcall, heq]
      exact files_of_found hpseudo hfiles

theorem callTarget_of_ok {i : Nat} {path : CStr} {data : List UInt8} (h : (callWrite env k i path data).2 = true) :
    (callTarget k i capFsWrite path).isSome = true := by
  by_contra hnone
  rw [Option.not_isSome_iff_eq_none] at hnone
  unfold callTarget at hnone
  unfold callWrite vfsWrite at h
  cases hsys : sysPath k i capFsWrite path with
  | none => simp [hsys] at h
  | some p =>
    rw [hsys, Option.bind_some] at hnone
    simp [hsys, hnone] at h

theorem callRead_target (env : Env) (k : Kernel) (i : Nat) (q : CStr) (max : Nat) :
    callRead env k i q max = (callTarget k i capFsRead q).bind fun p =>
      if vfsIsPseudo p then
        if (pseudoText (sysinfo env k) p max).length > 0 then some (pseudoText (sysinfo env k) p max) else none
      else (fileAt k.nodes p).map (·.take max) := by
  unfold callRead callTarget vfsRead
  cases sysPath k i capFsRead q with
  | none => rfl
  | some path =>
    rw [Option.bind_some, Option.bind_some]
    simp only [fsRead_eq]

theorem callRead_after (env env' : Env) (k : Kernel) (i j : Nat) (path q : CStr) (data : List UInt8) (max : Nat) :
    callRead env' { k with nodes := (callWrite env k i path data).1 } j q max =
      ((found (leftByCall env k i path data) (callTarget k j capFsRead q)).map (·.take max)).or
        (callRead env' k j q max) := by
  obtain ⟨hfiles, hpseudo⟩ := callWrite_left env k i path data
  have htarget : callTarget { k with nodes := (callWrite env k i path data).1 } j capFsRead q =
    callTarget k j capFsRead q := rfl
  have hinfo : sysinfo env' { k with nodes := (callWrite env k i path data).1 } = sysinfo env' k := rfl
  rw [callRead_target, callRead_target, htarget, hinfo]
  cases callTarget k j capFsRead q with
  | none =>
    rw [found_none]
    rfl
  | some p =>
    rw [Option.bind_some, Option.bind_some]
    by_cases hp : vfsIsPseudo p = true
    · have hnone : found (leftByCall env k i path data) (some p) = none := by
        cases hleft : leftByCall env k i path data with
        | none => rfl
        | some f =>
          refine if_neg fun heq => ?_
          rw [Option.some.inj heq, hpseudo f hleft] at hp
          cases hp
      rw [hnone, if_pos hp, if_pos hp]
      rfl
    · rw [if_neg hp, if_neg hp]
      dsimp only
      rw [hfiles]
      cases found (leftByCall env k i path data) (some p) <;> rfl

/-! ## The service -/

/-- What the store has at a path that the service owns, and what it gets of the kernel for another. -/
def held (env : Env) (k : Kernel) (cur : Nat) (st : Store) (path : CStr) : Option (List UInt8) :=
  if fsdStOwns path then stored st path else callRead env k cur path (respMax - 1)

/-- The text that answers a request to read. -/
def told (env : Env) (k : Kernel) (cur : Nat) (st : Store) (path : CStr) : List UInt8 :=
  if path = [] then ascii "erro: path vazio" else (held env k cur st path).getD (ascii "erro: nao encontrado")

theorem handleRead_told (env : Env) (k : Kernel) (cur : Nat) (s : Service) (sender : Nat) (req : CStr) :
    (handleRead env k cur s sender req).2.2.bytes = told env k cur s.store req := by
  unfold handleRead told
  by_cases hreq : req = []
  · simp [hreq, Reply.bytes]
  rw [if_neg hreq, if_neg hreq]
  unfold held
  dsimp only
  split
  · have hstore : (audited s 'r' sender req).store = s.store := rfl
    rw [hstore]
    cases hfind : fsdStFind s.store req with
    | none => simp [stored_missing hfind, Reply.bytes]
    | some i =>
      rw [stored_found hfind]
      rfl
  · cases callRead env k cur req (respMax - 1) <;> rfl

theorem handleRead_nodes (env : Env) (k : Kernel) (cur : Nat) (s : Service) (sender : Nat) (req : CStr) :
    (handleRead env k cur s sender req).2.1 = k.nodes ∧ (handleRead env k cur s sender req).1.store = s.store := by
  unfold handleRead
  dsimp only
  split_ifs
  · exact ⟨rfl, rfl⟩
  · split <;> exact ⟨rfl, rfl⟩
  · split <;> exact ⟨rfl, rfl⟩

/-! ## The request -/

section

variable {path : CStr} (data : List UInt8)

theorem line_split (path : CStr) (data : List UInt8) :
    path ++ 0x0A :: data = writePath path ++ 0x0A :: writeData (path ++ 0x0A :: data) := by
  unfold writePath writeData
  induction path with
  | nil => simp
  | cons b path ih =>
    by_cases hb : b = 0x0A
    · simp [hb]
    · have hne : (b != 0x0A) = true := by simpa using hb
      simpa [hne] using ih

theorem writePath_line {p : CStr} (hp : 0x0A ∉ p) (rest : CStr) : writePath (p ++ 0x0A :: rest) = p := by
  unfold writePath
  rw [List.takeWhile_append_of_pos (all_ne hp)]
  simp

theorem writeData_line {p : CStr} (hp : 0x0A ∉ p) (rest : CStr) : writeData (p ++ 0x0A :: rest) = rest :=
  skipLine_line hp rest

theorem writePath_of_not_mem {p : CStr} (hp : 0x0A ∉ p) : writePath p = p ∧ writeData p = [] := by
  unfold writePath writeData
  rw [List.takeWhile_eq_self_iff.mpr (all_ne hp), List.dropWhile_eq_nil_iff.mpr (all_ne hp)]
  exact ⟨rfl, rfl⟩

theorem newline_not_mem_writePath (path : CStr) : 0x0A ∉ writePath path := by
  intro h
  have hne := List.mem_takeWhile_imp h
  simp at hne

/-- The room that a path leaves for the data. -/
def room (path : CStr) : Nat := packMax - 1 - (writePath path).length

theorem request_pack (h0 : 0 ∉ path) :
    request (pack path data) =
      if (writePath path).length < packMax then
        writePath path ++ 0x0A :: ((writeData (path ++ 0x0A :: data)).take (room path)).takeWhile (· != 0)
      else (writePath path).take packMax := by
  have hzero : ∀ b ∈ writePath path, (b != 0) = true :=
    all_ne fun h => h0 ((List.takeWhile_sublist _).subset h)
  have htake : (pack path data).take 512 = pack path data :=
    List.take_of_length_le (Nat.le_trans (List.length_take_le _ _) (by decide))
  unfold request
  rw [htake]
  unfold pack room
  have hline := line_split path data
  generalize writeData (path ++ 0x0A :: data) = rest at hline ⊢
  rw [hline, List.take_append]
  split_ifs with hlen
  · have hsub : packMax - (writePath path).length = (packMax - 1 - (writePath path).length) + 1 := by omega
    rw [List.take_of_length_le (Nat.le_of_lt hlen), hsub, List.take_succ_cons, List.takeWhile_append_of_pos hzero]
    simp
  · have hsub : packMax - (writePath path).length = 0 := by omega
    rw [hsub, List.take_zero, List.append_nil, List.takeWhile_eq_self_iff]
    exact fun b hb => hzero b (List.mem_of_mem_take hb)

theorem pack_parts (h0 : 0 ∉ path) :
    writePath (request (pack path data)) = (writePath path).take packMax ∧
      writeData (request (pack path data)) =
        ((writeData (path ++ 0x0A :: data)).take (room path)).takeWhile (· != 0) := by
  have hnl := newline_not_mem_writePath path
  rw [request_pack data h0]
  split_ifs with hlen
  · rw [writePath_line hnl, writeData_line hnl, List.take_of_length_le (Nat.le_of_lt hlen)]
    exact ⟨rfl, rfl⟩
  · have hroom : room path = 0 := by
      unfold room
      omega
    obtain ⟨hpath, hdata⟩ := writePath_of_not_mem fun h => hnl (List.mem_of_mem_take h)
    rw [hpath, hdata, hroom]
    exact ⟨rfl, rfl⟩

theorem shortPath_pack (h0 : 0 ∉ path) :
    shortPath (writePath (request (pack path data))) = shortPath (writePath path) := by
  rw [(pack_parts data h0).1]
  unfold shortPath cut
  rw [List.take_take]
  rfl

/-- The data gets to the service as it is. Behind a path with a newline, this is data that begins with the
rest of the path, and goes on like this for as long as there is room. -/
def Carried (path : CStr) (data : List UInt8) : Prop :=
  0 ∉ data ∧
    if 0x0A ∈ path then data = (writeData path ++ 0x0A :: data).take (room path) else data.length ≤ room path

instance (path : CStr) (data : List UInt8) : Decidable (Carried path data) := inferInstanceAs (Decidable (_ ∧ _))

theorem writeData_append {path : CStr} (h : 0x0A ∈ path) (rest : CStr) :
    writeData (path ++ rest) = writeData path ++ rest := by
  unfold writeData
  induction path with
  | nil => simp at h
  | cons b path ih =>
    by_cases hb : b = 0x0A
    · simp [hb]
    · have hne : (b != 0x0A) = true := by simpa using hb
      have hmem : 0x0A ∈ path := by simpa [Ne.symm hb] using h
      simpa [hne] using ih hmem

theorem takeWhile_take_eq {l data : List UInt8} (hl : 0 ∉ data → 0 ∉ l) {n : Nat} :
    (l.take n).takeWhile (· != 0) = data ↔ 0 ∉ data ∧ data = l.take n := by
  constructor
  · rintro rfl
    have hzero : 0 ∉ (l.take n).takeWhile (· != 0) := by
      intro h
      simpa using List.mem_takeWhile_imp h
    refine ⟨hzero, List.takeWhile_eq_self_iff.mpr (all_ne fun h => ?_)⟩
    exact hl hzero (List.mem_of_mem_take h)
  · rintro ⟨hzero, rfl⟩
    exact List.takeWhile_eq_self_iff.mpr (all_ne hzero)

theorem carried_iff (h0 : 0 ∉ path) : writeData (request (pack path data)) = data ↔ Carried path data := by
  rw [(pack_parts data h0).2]
  unfold Carried
  split_ifs with hnl
  · rw [writeData_append hnl]
    refine takeWhile_take_eq fun hzero hmem => ?_
    simp only [List.mem_append, List.mem_cons] at hmem
    rcases hmem with hmem | hmem | hmem
    · exact h0 ((List.dropWhile_suffix _).subset (List.mem_of_mem_drop hmem))
    · simp at hmem
    · exact hzero hmem
  · rw [writeData_line hnl, takeWhile_take_eq id]
    refine and_congr_right fun _ => ?_
    exact List.take_self_eq_iff data

end

/-! ## What writes leave -/

section

variable {path : CStr}

theorem request_cstr (h0 : 0 ∉ path) : request path = path.take 512 :=
  List.takeWhile_eq_self_iff.mpr (all_ne fun h => h0 (List.mem_of_mem_take h))

theorem owns_short (h0 : 0 ∉ path) (h : fsdStOwns (request path) = true) :
    fsdStOwns (shortPath (writePath path)) = true := by
  have hroot : ∀ dir : CStr, shortPath (writePath dir) = dir → dir.length < 512 → path.take 512 = dir →
      shortPath (writePath path) = dir := by
    intro dir hdir hlen heq
    have hpath : path.take 512 = path := by
      rw [List.take_eq_self_iff]
      have hlength := congrArg List.length heq
      rw [List.length_take] at hlength
      omega
    rw [← hpath, heq, hdir]
  have hbelow : ∀ dir : CStr, 0x0A ∉ dir → dir.length ≤ 63 → dir.isPrefixOf (path.take 512) = true →
      dir.isPrefixOf (shortPath (writePath path)) = true := by
    intro dir hnl hlen hdir
    rw [List.isPrefixOf_iff_prefix] at hdir ⊢
    obtain ⟨rest, hrest⟩ := hdir.trans (List.take_prefix _ _)
    unfold shortPath cut writePath
    rw [← hrest, List.takeWhile_append_of_pos (all_ne hnl), List.take_append, List.take_of_length_le hlen]
    exact List.prefix_append _ _
  rw [request_cstr h0] at h
  unfold fsdStOwns at h ⊢
  simp only [Bool.or_eq_true, decide_eq_true_eq] at h ⊢
  rcases h with ((h | h) | h) | h
  · exact Or.inl (Or.inl (Or.inl (hroot _ (by decide) (by decide) h)))
  · exact Or.inl (Or.inl (Or.inr (hroot _ (by decide) (by decide) h)))
  · exact Or.inl (Or.inr (hbelow _ (by decide) (by decide) h))
  · exact Or.inr (hbelow _ (by decide) (by decide) h)

/-- What the store tells after `fsd_st_set`. -/
theorem told_set (env' : Env) {st st' : Store} {d : List UInt8} (h0 : 0 ∉ path)
    (howns : fsdStOwns (shortPath (writePath path)) = true) (hlen : d.length < stData)
    (hset : fsdStSet st (shortPath (writePath path)) d = some st') :
    told env' k cur st' (request path) =
      if 0x0A ∉ path ∧ path.length < stPath then d else told env' k cur st (request path) := by
  rw [request_cstr h0]
  split_ifs with hseen
  · obtain ⟨hnl, hshort⟩ := hseen
    have hpath : shortPath (writePath path) = path := by
      rw [(writePath_of_not_mem hnl).1]
      exact List.take_of_length_le (Nat.le_trans (Nat.le_of_lt hshort) (by decide))
    have htake : path.take 512 = path := List.take_of_length_le (Nat.le_trans (Nat.le_of_lt hshort) (by decide))
    rw [hpath] at hset howns
    have hcut : cut stData d = d := List.take_of_length_le (Nat.le_pred_of_lt hlen)
    rw [htake]
    simp [told, fsdStOwns_ne_nil howns, held, howns, stored_set_same hshort hset, hcut]
  · have hsame : stored st' (path.take 512) = stored st (path.take 512) := by
      by_cases hlong : stPath ≤ (path.take 512).length
      · rw [stored_long hlong, stored_long hlong]
      -- a short path with a newline is longer than its first line
      have hshort : path.length < stPath := by
        rw [List.length_take] at hlong
        unfold stPath at hlong ⊢
        omega
      have htake : path.take 512 = path := List.take_of_length_le (Nat.le_trans (Nat.le_of_lt hshort) (by decide))
      have hnl : 0x0A ∈ path := by
        by_contra hnl
        exact hseen ⟨hnl, hshort⟩
      have hline : (writePath path).length < path.length := by
        refine Nat.lt_of_le_of_ne (List.takeWhile_sublist _).length_le fun heq => ?_
        have hall : writePath path = path := (List.takeWhile_sublist _).eq_of_length heq
        exact newline_not_mem_writePath path (by rwa [hall])
      have hf : (shortPath (writePath path)).length ≤ (writePath path).length := List.length_take_le' _ _
      have hcut : (cut stPath (shortPath (writePath path))).length ≤ (shortPath (writePath path)).length :=
        List.length_take_le' _ _
      rw [htake]
      refine stored_set_other (fun heq => ?_) (fun heq => ?_) hset
      all_goals
        have hlength := congrArg List.length heq
        omega
    unfold told held
    rw [hsame]

/-- Who reads the file: the service or, for the client, the kernel. -/
inductive ReadBy
  | service
  | kernel
  deriving DecidableEq, Repr

/-- The file of the kernel that the reader looks for. -/
def ReadBy.target (k : Kernel) (cur client : Nat) (path : CStr) : ReadBy → Option CStr
  | .service => if path = [] ∨ fsdStOwns (request path) then none else callTarget k cur capFsRead (request path)
  | .kernel => callTarget k client capFsRead path

/-- What the service tells of the path. -/
def toldBy (env : Env) (w : World) (cur : Nat) (path : CStr) : List UInt8 :=
  match w.fsd with
  | none => []
  | some s => told env w.sys.kernel cur s.store (request path)

/-- A write leaves this for the readers. -/
structure Leaves (cur client : Nat) (path : CStr) (w w' : World) (left : ReadBy → Option (List UInt8)) : Prop where
  fsd : w'.fsd.isSome = w.fsd.isSome
  same : ∃ nodes, w'.sys.kernel = { w.sys.kernel with nodes }
  told : w.fsd.isSome = true → ∀ env, toldBy env w' cur path =
    ((left .service).map (·.take (respMax - 1))).getD (toldBy env w cur path)
  read : ∀ env max, callRead env w'.sys.kernel client path max =
    ((left .kernel).map (·.take max)).or (callRead env w.sys.kernel client path max)

variable {client : Nat} {w w' w'' : World} {left left' : ReadBy → Option (List UInt8)}

theorem Leaves.refl (cur client : Nat) (path : CStr) (w : World) : Leaves cur client path w w fun _ => none :=
  ⟨rfl, ⟨w.sys.kernel.nodes, rfl⟩, fun _ _ => rfl, fun _ _ => rfl⟩

theorem Leaves.trans (h : Leaves cur client path w w' left) (h' : Leaves cur client path w' w'' left') :
    Leaves cur client path w w'' fun r => (left' r).or (left r) := by
  refine ⟨h'.fsd.trans h.fsd, ?_, fun hfsd env => ?_, fun env max => ?_⟩
  · obtain ⟨nodes, hnodes⟩ := h.same
    obtain ⟨nodes', hnodes'⟩ := h'.same
    exact ⟨nodes', by rw [hnodes', hnodes]⟩
  · rw [h'.told (h.fsd.trans hfsd), h.told hfsd]
    cases left' .service <;> rfl
  · rw [h'.read, h.read]
    cases left' .kernel <;> rfl

theorem Leaves.congr (h : Leaves cur client path w w' left) (heq : ∀ r, left r = left' r) :
    Leaves cur client path w w' left' :=
  funext heq ▸ h

theorem Leaves.ite {p : Prop} [Decidable p] (h : p → Leaves cur client path w w' left) :
    Leaves cur client path w (if p then w' else w) fun r => if p then left r else none := by
  by_cases hp : p
  · simpa only [if_pos hp] using h hp
  · simpa only [if_neg hp] using Leaves.refl cur client path w

theorem callWrite_told (env env' : Env) (i : Nat) {st : Store} {f : CStr} {d : List UInt8} (h0 : 0 ∉ path) :
    told env' { k with nodes := (callWrite env k i f d).1 } cur st (request path) =
      ((found (leftByCall env k i f d) (ReadBy.target k cur client path .service)).map (·.take (respMax - 1))).getD
        (told env' k cur st (request path)) := by
  have hnil : request path = [] ↔ path = [] := by
    rw [request_cstr h0]
    simp
  unfold told held ReadBy.target
  by_cases hpath : path = []
  · simp only [hpath, true_or, if_true, found_none]
    rfl
  by_cases howns : fsdStOwns (request path) = true
  · simp [hpath, hnil, howns, found_none]
  simp only [hnil, hpath, howns, if_false, or_self, Bool.false_eq_true]
  rw [callRead_after]
  cases found (leftByCall env k i f d) (callTarget k cur capFsRead (request path)) <;> rfl

theorem fallback_leaves (env : Env) (h0 : 0 ∉ path) {data : List UInt8} :
    Leaves cur client path w (fallback env w client path data).1 fun r =>
      found (leftByCall env w.sys.kernel client path data) (r.target w.sys.kernel cur client path) := by
  refine ⟨rfl, ⟨_, rfl⟩, fun hfsd env' => ?_,
    fun env' max => callRead_after env env' w.sys.kernel client client path path data max⟩
  obtain ⟨s, hs⟩ := Option.isSome_iff_exists.mp hfsd
  unfold toldBy fallback
  simp only [hs]
  exact callWrite_told env env' client h0

/-- What the service leaves of a request to write: it keeps 63 bytes of the first line of the path and 47 of the
path of its own file, and the data that arrives. -/
def ofService (senv : Env) (w : World) (cur client : Nat) (path : CStr) (data : List UInt8) (r : ReadBy) :
    Option (List UInt8) :=
  w.fsd.bind fun s =>
    let f := shortPath (writePath path)
    let d := writeData (request (pack path data))
    if fsdStOwns f then
      if r = .service ∧ 0x0A ∉ path ∧ path.length < stPath then (fsdStSet s.store f d).map fun _ => d else none
    else found (leftByCall senv w.sys.kernel cur f d) (r.target w.sys.kernel cur client path)

theorem length_writeData (h0 : 0 ∉ path) (data : List UInt8) :
    (writeData (request (pack path data))).length < stData := by
  rw [(pack_parts data h0).2]
  refine Nat.lt_of_le_of_lt (List.takeWhile_sublist _).length_le ?_
  refine Nat.lt_of_le_of_lt (List.length_take_le _ _) ?_
  unfold room packMax stData
  omega

theorem request_pack_ne_nil (h0 : 0 ∉ path) (data : List UInt8) : request (pack path data) ≠ [] := by
  rw [request_pack data h0]
  split_ifs with hlen
  · simp
  · intro hnil
    have hzero := congrArg List.length hnil
    rw [List.length_take, List.length_nil] at hzero
    unfold packMax at hlen hzero
    omega

theorem handleWrite_eq (senv : Env) (k : Kernel) (cur : Nat) (s : Service) (sender : Nat) (h0 : 0 ∉ path)
    (data : List UInt8) :
    let f := shortPath (writePath path)
    let d := writeData (request (pack path data))
    handleWrite senv k cur s sender (request (pack path data)) =
      if fsdStOwns f then ownAnswer k (audited s 'w' sender f) (fsdStSet s.store f d)
      else kernelAnswer (audited s 'w' sender f) (callWrite senv k cur f d) := by
  dsimp only
  rw [handleWrite, if_neg (request_pack_ne_nil h0 data), shortPath_pack data h0]
  rfl

theorem handle_write (env : Env) (k : Kernel) (cur client : Nat) (s : Service) (req : CStr) :
    handle env k cur client s ipcTypeFsWrite req = handleWrite env k cur s (k.proc client).pid req := rfl

theorem handle_read (env : Env) (k : Kernel) (cur client : Nat) (s : Service) (req : CStr) :
    handle env k cur client s ipcTypeRead req = handleRead env k cur s (k.proc client).pid req := rfl

theorem serviced_leaves (senv : Env) (h0 : 0 ∉ path) (data : List UInt8) :
    Leaves cur client path w (serviced senv w cur client ipcTypeFsWrite (pack path data)).1
      (ofService senv w cur client path data) := by
  obtain ⟨sys, fsd⟩ := w
  cases fsd with
  | none => exact Leaves.refl cur client path _
  | some s =>
    have hhandle := handleWrite_eq senv sys.kernel cur s (sys.kernel.proc client).pid h0 data
    unfold serviced
    simp only [handle_write]
    dsimp only at hhandle
    rw [hhandle]
    have hlen := length_writeData h0 data
    unfold ofService
    simp only [Option.bind_some]
    generalize writeData (request (pack path data)) = d at hlen
    by_cases howns : fsdStOwns (shortPath (writePath path)) = true
    · simp only [if_pos howns]
      cases hset : fsdStSet s.store (shortPath (writePath path)) d with
      | none =>
        simp only [Option.map_none, ite_self]
        exact ⟨rfl, ⟨_, rfl⟩, fun _ _ => rfl, fun _ _ => rfl⟩
      | some st =>
        refine ⟨rfl, ⟨_, rfl⟩, fun _ env => ?_, fun _ _ => rfl⟩
        refine (told_set env h0 howns hlen hset).trans ?_
        have htake : d.take (respMax - 1) = d := List.take_of_length_le (Nat.le_trans (Nat.le_of_lt hlen) (by decide))
        by_cases hseen : 0x0A ∉ path ∧ path.length < stPath
        · simp [hseen, htake]
        · rw [if_neg hseen, if_neg fun h => hseen h.2]
          rfl
    · simp only [if_neg howns]
      exact ⟨rfl, ⟨_, rfl⟩, fun _ env => callWrite_told senv env cur h0,
        fun env max => callRead_after senv env sys.kernel cur client _ path d max⟩

/-! ## Courses -/

/-- Who answers an rpc in the end: the service, the kernel in its place, or an earlier message of the service. -/
inductive Teller
  | service
  | kernel
  | earlier (payload : List UInt8)
  deriving DecidableEq, Repr

/-- A message is taken for the answer by its sender and its type. -/
def teller (w : World) (cur type : Nat) (c : Course) : Teller :=
  if w.fsd.isNone then .kernel
  else match c with
  | .unsent | .missed _ none => .kernel
  | .answered => .service
  | .missed _ (some m) =>
    if m.type ≠ type ∨ m.sender ≠ (w.sys.kernel.proc cur).pid then .kernel else .earlier m.payload

def Course.turn : Course → Turn
  | .unsent => .never
  | .answered => .before
  | .missed turn _ => turn

theorem spudFsdRpc_world (senv : Env) (w : World) (cur client type : Nat) (payload : List UInt8) (n : Nat)
    (c : Course) :
    (spudFsdRpc senv w cur client type payload n c).1 =
      if c.turn = .before then (serviced senv w cur client type payload).1 else w := by
  obtain ⟨sys, fsd⟩ := w
  cases fsd with
  | none =>
    simp only [spudFsdRpc, serviced, Option.isNone_none, if_true, ite_self]
  | some s =>
    cases c with
    | unsent => rfl
    | answered => rfl
    | missed turn first =>
      cases first with
      | none => rfl
      | some m =>
        simp only [spudFsdRpc, Option.isNone_some, Bool.false_eq_true, if_false]
        by_cases hm : m.type ≠ type ∨ m.sender ≠ (sys.kernel.proc cur).pid
        · rw [if_pos hm]
          rfl
        · rw [if_neg hm]
          rfl

theorem spudFsdRpc_bytes (senv : Env) (w : World) (cur client type : Nat) (payload : List UInt8) (n : Nat)
    (c : Course) :
    (spudFsdRpc senv w cur client type payload n c).2 =
      match teller w cur type c with
      | .service => some ((serviced senv w cur client type payload).2.take (n - 1))
      | .kernel => none
      | .earlier payload => some (payload.take (n - 1)) := by
  obtain ⟨sys, fsd⟩ := w
  cases fsd with
  | none => rfl
  | some s =>
    cases c with
    | unsent => rfl
    | answered => rfl
    | missed turn first =>
      cases first with
      | none => rfl
      | some m =>
        simp only [spudFsdRpc, teller, Option.isNone_some, Bool.false_eq_true, if_false]
        by_cases hm : m.type ≠ type ∨ m.sender ≠ (sys.kernel.proc cur).pid
        · rw [if_pos hm, if_pos hm]
        · rw [if_neg hm, if_neg hm]

theorem spudFsWrite_world (env senv : Env) (w : World) (cur client : Nat) (path : CStr) (data : List UInt8)
    (c : Course) :
    let w₁ := if c.turn = .before then (serviced senv w cur client ipcTypeFsWrite (pack path data)).1 else w
    (spudFsWrite env senv w cur client path data c).1 =
      if teller w cur ipcTypeFsWrite c = .kernel then (fallback env w₁ client path data).1 else w₁ := by
  have hworld := spudFsdRpc_world senv w cur client ipcTypeFsWrite (pack path data) 16 c
  have hbytes := spudFsdRpc_bytes senv w cur client ipcTypeFsWrite (pack path data) 16 c
  unfold spudFsWrite
  dsimp only
  rw [← hworld]
  generalize spudFsdRpc senv w cur client ipcTypeFsWrite (pack path data) 16 c = r at hbytes ⊢
  obtain ⟨w', out⟩ := r
  cases hteller : teller w cur ipcTypeFsWrite c <;> simp only [hteller] at hbytes <;> subst hbytes <;> simp

theorem spudFsWrite_fell (env senv : Env) (w : World) (cur client : Nat) (path : CStr) (data : List UInt8)
    (c : Course) :
    let w₁ := if c.turn = .before then (serviced senv w cur client ipcTypeFsWrite (pack path data)).1 else w
    teller w cur ipcTypeFsWrite c = .kernel →
      (spudFsWrite env senv w cur client path data c).2 = (callWrite env w₁.sys.kernel client path data).2 := by
  have hworld := spudFsdRpc_world senv w cur client ipcTypeFsWrite (pack path data) 16 c
  have hbytes := spudFsdRpc_bytes senv w cur client ipcTypeFsWrite (pack path data) 16 c
  intro w₁ hteller
  unfold spudFsWrite
  rw [hteller] at hbytes
  rw [show w₁ = _ from hworld.symm]
  generalize spudFsdRpc senv w cur client ipcTypeFsWrite (pack path data) 16 c = r at hbytes ⊢
  obtain ⟨w', out⟩ := r
  subst hbytes
  rfl

end

/-! ## Reading back -/

section

variable {path : CStr} {client : Nat} {w : World}

theorem fsd_of_teller {type : Nat} {c : Course} (h : teller w cur type c = .service) : w.fsd.isSome = true := by
  unfold teller at h
  split at h
  · cases h
  · next hfsd => simpa [Option.isSome_iff_ne_none] using hfsd

theorem Leaves.teller {w' : World} {left : ReadBy → Option (List UInt8)} (h : Leaves cur client path w w' left)
    (c : Course)
    (type : Nat) : Fsd.teller w' cur type c = Fsd.teller w cur type c := by
  obtain ⟨nodes, hnodes⟩ := h.same
  have hproc : w'.sys.kernel.proc cur = w.sys.kernel.proc cur := congrArg (fun k => k.proc cur) hnodes
  have hnone : w'.fsd.isNone = w.fsd.isNone := by
    rw [← Option.not_isSome, ← Option.not_isSome, h.fsd]
  unfold Fsd.teller
  rw [hnone, hproc]

/-- What the write leaves for a reader: last of all the service's, where it works on the request after the
client has gone on, before that the kernel's, where the client falls back to it, and first the service's. -/
def leftBehind (env senv : Env) (w : World) (cur client : Nat) (path : CStr) (data : List UInt8) (c : Course)
    (r : ReadBy) :
    Option (List UInt8) :=
  let fell := teller w cur ipcTypeFsWrite c = .kernel
  let w₁ := if fell then (fallback env w client path data).1 else w
  (if c.turn = .after then ofService senv w₁ cur client path data r else none).or
    ((if fell then
      found ((callTarget w.sys.kernel client capFsWrite path).map (·, data)) (r.target w.sys.kernel cur client path)
    else none).or
    (if c.turn = .before then ofService senv w cur client path data r else none))

/-- What was written is what is read: the last that was left for who answers the read is the data, or where
nothing was left it was the data before. A message of an earlier rpc may be taken for the answer. -/
def RoundTrips (env senv env' senv' : Env) (w : World) (cur client : Nat) (path : CStr) (data : List UInt8)
    (write read : Course) : Prop :=
  match teller w cur ipcTypeRead read with
  | .service =>
    match leftBehind env senv w cur client path data write .service with
    | some x => x.take (respMax - 1) = data
    | none => toldBy senv' w cur path = data
  | .kernel =>
    match leftBehind env senv w cur client path data write .kernel with
    | some x => x = data
    | none => ∀ max, data.length < max → callRead env' w.sys.kernel client path max = some data
  | .earlier payload => payload = data

theorem servicedLate_eq (senv : Env) (w : World) (cur client : Nat) (path : CStr) (data : List UInt8) (c : Course) :
    servicedLate senv w cur client path data c =
      if c.turn = .after then (serviced senv w cur client ipcTypeFsWrite (pack path data)).1 else w := by
  cases c with
  | unsent => rfl
  | answered => rfl
  | missed turn first => cases turn <;> rfl

/-- What `spud_fs_write` leaves behind, where it returns 0. -/
theorem afterWrite_leaves {env senv : Env} {data : List UInt8} {c : Course} (h0 : 0 ∉ path)
    (hok : (spudFsWrite env senv w cur client path data c).2 = true) :
    Leaves cur client path w (afterWrite env senv w cur client path data c)
      (leftBehind env senv w cur client path data c) := by
  have hworld := spudFsWrite_world env senv w cur client path data c
  have hfell := spudFsWrite_fell env senv w cur client path data c
  dsimp only at hworld hfell
  have hearly : Leaves cur client path w
      (if c.turn = .before then (serviced senv w cur client ipcTypeFsWrite (pack path data)).1 else w)
      fun r => if c.turn = .before then ofService senv w cur client path data r else none :=
    Leaves.ite fun _ => serviced_leaves senv h0 data
  have hwait : c.turn = .after →
      (if c.turn = .before then (serviced senv w cur client ipcTypeFsWrite (pack path data)).1 else w) = w := by
    intro hafter
    simp [hafter]
  generalize (if c.turn = .before then (serviced senv w cur client ipcTypeFsWrite (pack path data)).1 else w) = w₁
    at hworld hfell hearly hwait
  -- the system call finds the same files to write and to read, whatever the service has done
  obtain ⟨nodes, hnodes⟩ := hearly.same
  have hkernel : Leaves cur client path w₁
      (if teller w cur ipcTypeFsWrite c = .kernel then (fallback env w₁ client path data).1 else w₁)
      fun r => if teller w cur ipcTypeFsWrite c = .kernel then
        found ((callTarget w.sys.kernel client capFsWrite path).map (·, data)) (r.target w.sys.kernel cur client path)
      else none := by
    refine Leaves.ite fun hteller => ?_
    have hleaves : Leaves cur client path w₁ (fallback env w₁ client path data).1 _ := fallback_leaves env h0
    rw [leftByCall_ok (hfell hteller ▸ hok), hnodes] at hleaves
    exact hleaves
  rw [afterWrite, servicedLate_eq, hworld]
  refine ((hearly.trans hkernel).trans (Leaves.ite fun _ => serviced_leaves senv h0 data)).congr fun r => ?_
  unfold leftBehind
  dsimp only
  by_cases hafter : c.turn = .after
  · rw [if_pos hafter, if_pos hafter, hwait hafter]
  · rw [if_neg hafter, if_neg hafter]

theorem spudFsRead_teller (env senv : Env) (w : World) (cur client : Nat) (path : CStr) (max : Nat) (c : Course) :
    spudFsRead env senv w cur client path max c =
      match teller w cur ipcTypeRead c with
      | .service => some ((toldBy senv w cur path).take (max - 1))
      | .kernel => callRead env w.sys.kernel client path max
      | .earlier payload => some (payload.take (max - 1)) := by
  have hworld := spudFsdRpc_world senv w cur client ipcTypeRead path max c
  have hbytes := spudFsdRpc_bytes senv w cur client ipcTypeRead path max c
  have hserviced : (serviced senv w cur client ipcTypeRead path).1.sys.kernel = w.sys.kernel ∧
      (w.fsd.isSome = true → (serviced senv w cur client ipcTypeRead path).2 = toldBy senv w cur path) := by
    obtain ⟨sys, fsd⟩ := w
    cases fsd with
    | none => exact ⟨rfl, fun h => absurd h (by simp)⟩
    | some s =>
      unfold serviced toldBy
      simp only [handle_read, (handleRead_nodes senv sys.kernel cur s _ _).1, handleRead_told, implies_true, and_self]
  have hsame : (spudFsdRpc senv w cur client ipcTypeRead path max c).1.sys.kernel = w.sys.kernel := by
    rw [hworld]
    split_ifs
    · exact hserviced.1
    · rfl
  unfold spudFsRead
  generalize spudFsdRpc senv w cur client ipcTypeRead path max c = r at hbytes hsame ⊢
  obtain ⟨w', out⟩ := r
  cases hteller : teller w cur ipcTypeRead c with
  | service =>
    simp only [hteller] at hbytes
    subst hbytes
    dsimp only
    rw [hserviced.2 (fsd_of_teller hteller)]
  | kernel =>
    simp only [hteller] at hbytes
    subst hbytes
    dsimp only at hsame ⊢
    rw [hsame]
  | earlier payload =>
    simp only [hteller] at hbytes
    subst hbytes
    rfl

theorem take_eq_data {out data : List UInt8} {d : Nat} (hd : d ≤ 1) :
    (∀ max, data.length < max → some (out.take (max - d)) = some data) ↔ out = data := by
  constructor
  · intro h
    have hmax := h (out.length + data.length + 1) (by omega)
    rwa [Option.some.injEq, List.take_of_length_le (by omega)] at hmax
  · rintro rfl max hmax
    rw [List.take_of_length_le (by omega)]

/-- A file that was written with success reads back as the data exactly where `RoundTrips` tells so, however the
rpcs go. -/
theorem spud_fs_write_read (env senv env' senv' : Env) (w : World) (cur client : Nat) {path : CStr} (data : List UInt8)
    (write read : Course) (h0 : 0 ∉ path) (hok : (spudFsWrite env senv w cur client path data write).2 = true) :
    (∀ max, data.length < max →
      spudFsRead env' senv' (afterWrite env senv w cur client path data write) cur client path max read = some data) ↔
        RoundTrips env senv env' senv' w cur client path data write read := by
  have hleaves := afterWrite_leaves h0 hok
  have hteller : teller (afterWrite env senv w cur client path data write) cur ipcTypeRead read =
      teller w cur ipcTypeRead read := hleaves.teller read ipcTypeRead
  simp only [spudFsRead_teller, hteller, RoundTrips]
  cases hcase : teller w cur ipcTypeRead read with
  | service =>
    dsimp only
    rw [take_eq_data (Nat.le_refl 1), hleaves.told (fsd_of_teller hcase)]
    cases leftBehind env senv w cur client path data write .service <;> rfl
  | kernel =>
    dsimp only
    simp only [hleaves.read]
    cases leftBehind env senv w cur client path data write .kernel with
    | none => rfl
    | some x => exact take_eq_data (Nat.zero_le 1)
  | earlier payload => exact take_eq_data (Nat.le_refl 1)

/-! ## Where the service answers -/

/-- The service, or the kernel for it, reads the file that it wrote. It keeps 63 bytes of the path of a write
and 47 of the path of a file, and a newline ends the path of a write only. -/
def Seen (k : Kernel) (cur : Nat) (path : CStr) : Prop :=
  let f := shortPath (writePath path)
  if fsdStOwns f then 0x0A ∉ path ∧ path.length < stPath
  else path ≠ [] ∧ callTarget k cur capFsRead (request path) = callTarget k cur capFsWrite f

instance (k : Kernel) (cur : Nat) (path : CStr) : Decidable (Seen k cur path) :=
  inferInstanceAs (Decidable (if fsdStOwns (shortPath (writePath path)) then _ else _))

theorem roundTrips_answered {env senv env' senv' : Env} {s : Service} (hfsd : w.fsd = some s) {data : List UInt8}
    (h0 : 0 ∉ path) (hok : (spudFsWrite env senv w cur client path data .answered).2 = true) :
    RoundTrips env senv env' senv' w cur client path data .answered .answered ↔
      if Seen w.sys.kernel cur path then Carried path data
      else told senv' w.sys.kernel cur s.store (request path) = data := by
  obtain ⟨sys, fsd⟩ := w
  obtain rfl : fsd = some s := hfsd
  have hleft : leftBehind env senv ⟨sys, some s⟩ cur client path data .answered .service =
      ofService senv ⟨sys, some s⟩ cur client path data .service := rfl
  have hanswer : (handleWrite senv sys.kernel cur s (sys.kernel.proc client).pid
    (request (pack path data))).2.2.bytes.head? =
      some 0x31 := by
    have hhead : ((serviced senv ⟨sys, some s⟩ cur client ipcTypeFsWrite (pack path data)).2.take 15).head? =
      some 0x31 :=
      of_decide_eq_true hok
    rwa [List.head?_take, if_neg (by decide)] at hhead
  have hhandle := handleWrite_eq senv sys.kernel cur s (sys.kernel.proc client).pid h0 data
  dsimp only at hhandle
  rw [hhandle] at hanswer
  have hlen := length_writeData h0 data
  change (match leftBehind env senv ⟨sys, some s⟩ cur client path data .answered .service with
    | some x => x.take (respMax - 1) = data
    | none => told senv' sys.kernel cur s.store (request path) = data) ↔ _
  rw [hleft, ← carried_iff data h0]
  unfold ofService Seen
  simp only [Option.bind_some]
  generalize writeData (request (pack path data)) = d at hanswer hlen
  have htake : d.take (respMax - 1) = d := List.take_of_length_le (Nat.le_trans (Nat.le_of_lt hlen) (by decide))
  by_cases howns : fsdStOwns (shortPath (writePath path)) = true
  · simp only [if_pos howns] at hanswer ⊢
    cases hset : fsdStSet s.store (shortPath (writePath path)) d with
    | none => simp [hset, ownAnswer, Reply.bytes, ascii] at hanswer
    | some st =>
      by_cases hseen : 0x0A ∉ path ∧ path.length < stPath
      · simp [hseen, htake]
      · simp [hseen]
  · simp only [if_neg howns] at hanswer ⊢
    have hdone : (callWrite senv sys.kernel cur (shortPath (writePath path)) d).2 = true := by
      by_contra hfail
      rw [Bool.not_eq_true] at hfail
      simp [kernelAnswer, hfail, Reply.bytes, ascii] at hanswer
    obtain ⟨p, hp⟩ := Option.isSome_iff_exists.mp (callTarget_of_ok hdone)
    have hnot : ¬ fsdStOwns (request path) = true := fun h => howns (owns_short h0 h)
    rw [leftByCall_ok hdone, hp]
    by_cases hpath : path = []
    · simp [found, ReadBy.target, hpath]
    · by_cases htarget : callTarget sys.kernel cur capFsRead (request path) = some p
      · simp [found, ReadBy.target, hpath, hnot, htarget, htake]
      · simp [found, ReadBy.target, hpath, hnot, htarget]

end

theorem callRead_none {path : CStr} (h : (callTarget k client capFsRead path).isSome = false) (env : Env)
    (max : Nat) : callRead env k client path max = none := by
  rw [Option.isSome_eq_false_iff, Option.isNone_iff_eq_none] at h
  rw [callRead_target, h]
  rfl

def wtestPath : CStr := ascii "/paradosis/wtest.txt"

/-- What 'wtest' writes comes back. -/
theorem spud_fs_write_read_wtest :
    spudFsRead (callEnv [] 0) (callEnv [] 0)
      (afterWrite (callEnv [] 0) (callEnv [] 0) servedWorld 1 2 wtestPath (ascii "ola escrita 123\nsegunda linha\n")
        .answered) 1 2 wtestPath 127 .answered = some (ascii "ola escrita 123\nsegunda linha\n") := by
  have h0 : 0 ∉ wtestPath := by decide
  have hok : (spudFsWrite (callEnv [] 0) (callEnv [] 0) servedWorld 1 2 wtestPath
      (ascii "ola escrita 123\nsegunda linha\n") .answered).2 = true := by decide +kernel
  refine (spud_fs_write_read (callEnv [] 0) (callEnv [] 0) (callEnv [] 0) (callEnv [] 0) servedWorld 1 2
    (ascii "ola escrita 123\nsegunda linha\n") .answered .answered h0 hok).mpr ?_ 127 (by decide +kernel)
  exact (roundTrips_answered (show servedWorld.fsd = some seeded from rfl) h0 hok).mpr (by decide +kernel)

/-- 400 bytes are written with success, and 362 of them are there. -/
theorem spud_fs_write_cuts :
    ¬ ∀ (env senv env' senv' : Env) (w : World) (cur client : Nat) (path : CStr) (data : List UInt8)
      (write read : Course),
      0 ∉ path → (spudFsWrite env senv w cur client path data write).2 = true → ∀ max, data.length < max →
        spudFsRead env' senv' (afterWrite env senv w cur client path data write) cur client path max read =
          some data := by
  intro h
  have hread := h (callEnv [] 0) (callEnv [] 0) (callEnv [] 0) (callEnv [] 0) servedWorld 1 2 wtestPath
    (List.replicate 400 0x61) .answered .answered (by decide) (by decide +kernel) 512
    (by rw [List.length_replicate]; omega)
  exact absurd hread (by decide +kernel)

end Siathos.Fsd
