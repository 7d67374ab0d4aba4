import Mathlib.Data.List.TakeWhile
import Siathos.Fsd.Service
import Siathos.Ipc.Serve

/-!
# How `fsd_handler` fills the reply

The replies of the file service are built in one buffer. They are the answers of the handler, except for
a listing of the kernel that leaves no room for its NUL.
-/

open Lib Siathos.Fs Siathos.Syscall Siathos.Ipc

namespace Siathos.Fsd

/-! ## Listings -/

/-- One turn of a loop of `fsd_st_list`. -/
def putName (dir : CStr) (max : Nat) (kind : CStr) (o : Out) (p : CStr) : Out :=
  match entryName dir p with
  | none => o
  | some nome =>
    if o.used + 10 + nome.length < max then
      ((o.str max (ascii "  " ++ kind ++ ascii "   ")).str max nome).push 0x0A
    else o

def stListWriter (st : Store) (dir : CStr) (max : Nat) : Writer :=
  .build fun o =>
    st.dirs.foldl (putName dir max (ascii "<DIR>"))
      ((st.files.map (·.path)).foldl (putName dir max (ascii "<ARQ>")) o)

/-- Within `USER_STACK_SIZE` bytes from an array of the stack on, the stack ends. -/
def stackMax : Nat := 64 * 1024

/-- `SYS_FS_LIST` copies all of its array but the last byte, and `spud_len` looks for a NUL, also behind
the buffer. -/
def listed (text : CStr) : Writer := fun b =>
  let b := b.write 0 ((text ++ [0]).take (respMax - 1))
  (b, (b.cstr stackMax).length)

theorem text_putName {kind : CStr} (hkind : kind.length = 5) (dir : CStr) (max : Nat) (l : List CStr) (o : Out) :
    (l.foldl (putName dir max kind) o).text = stLines dir max kind o.text l := by
  have hlen : ∀ s : String, (ascii s).length = s.toList.length := fun s => List.length_map _
  induction l generalizing o with
  | nil => rfl
  | cons p rest ih =>
    rw [List.foldl_cons, ih, putName, stLines]
    cases entryName dir p with
    | none => rfl
    | some nome =>
      simp only [Out.length_text]
      split
      · next hroom =>
        have hlead : (ascii "  " ++ kind ++ ascii "   ").length = 10 := by simp [hlen, hkind]
        have hused : (o.str max (ascii "  " ++ kind ++ ascii "   ")).used = o.used + 10 := by
          rw [← Out.length_text, Out.text_str, List.length_append, Out.length_text, List.length_take, hlead]
          omega
        rw [Out.text_push, Out.text_str, Out.text_str, hused, List.take_of_length_le (by omega),
          List.take_of_length_le (by omega)]
        simp [ascii]
      · rfl

theorem stListWriter_writes (st : Store) (dir : CStr) (max : Nat) :
    (stListWriter st dir max).Writes (fsdStList st dir max) := by
  refine Writer.build_writes fun o ho => ?_
  rw [text_putName (by decide), text_putName (by decide), ho]
  rfl

/-- The listing fills all that the kernel copies. -/
def Full (text : CStr) : Prop := respMax - 1 ≤ (text.takeWhile (· != 0)).length

instance (text : CStr) : Decidable (Full text) := inferInstanceAs (Decidable (_ ≤ _))

theorem listed_split {text : CStr} (h : ¬ Full text) :
    ∃ r, (text ++ [0]).take (respMax - 1) = text.takeWhile (· != 0) ++ 0 :: r := by
  have hlt : (text.takeWhile (· != 0)).length < respMax - 1 := Nat.lt_of_not_le h
  have hsplit : ∃ r, text ++ [0] = text.takeWhile (· != 0) ++ 0 :: r := by
    clear hlt h
    induction text with
    | nil => exact ⟨[], rfl⟩
    | cons c cs ih =>
      obtain ⟨r, hr⟩ := ih
      by_cases hc : c = 0
      · exact ⟨cs ++ [0], by simp [hc]⟩
      · exact ⟨r, by simpa [hc] using hr⟩
  obtain ⟨r, hr⟩ := hsplit
  obtain ⟨k, hk⟩ : ∃ k, respMax - 1 - (text.takeWhile (· != 0)).length = k + 1 := ⟨_, (Nat.succ_pred (by omega)).symm⟩
  exact ⟨r.take k, by rw [hr, List.take_append, List.take_of_length_le (Nat.le_of_lt hlt), hk, List.take_succ_cons]⟩

theorem no_nul {text : CStr} {c : UInt8} (hc : c ∈ text.takeWhile (· != 0)) : (c != 0) = true :=
  List.mem_takeWhile_imp (p := (· != 0)) hc

theorem takeWhile_text (text : CStr) : (text.takeWhile (· != 0)).takeWhile (· != 0) = text.takeWhile (· != 0) :=
  List.takeWhile_eq_self_iff.mpr fun _ hc => no_nul hc

theorem listed_writes {text : CStr} (h : ¬ Full text) : (listed text).Writes (text.takeWhile (· != 0)) := by
  obtain ⟨r, hr⟩ := listed_split h
  have hlen : (text.takeWhile (· != 0)).length + 1 + r.length ≤ stackMax := by
    have hsize := congrArg List.length hr
    simp only [List.length_take, List.length_append, List.length_cons, List.length_nil] at hsize
    have hmax : respMax ≤ stackMax := by decide
    omega
  intro b
  have hcstr := Buf.cstr_write r hlen b
  rw [takeWhile_text] at hcstr
  simp only [Writer.reply, listed, hr, hcstr]
  exact Buf.bytes_write_self b _ _

theorem listed_full {text : CStr} (h : Full text) (b : Buf) :
    (listed text b).2 = respMax - 1 + ((b.drop (respMax - 1)).cstr (stackMax - (respMax - 1))).length := by
  unfold Full at h
  have hcopied : (text ++ [0]).take (respMax - 1) = (text.takeWhile (· != 0)).take (respMax - 1) := by
    obtain ⟨rest, hrest⟩ := List.takeWhile_prefix (l := text) (· != 0)
    conv_lhs => rw [← hrest, List.append_assoc, List.take_append_of_le_length h]
  have hlen : ((text ++ [0]).take (respMax - 1)).length = respMax - 1 := by
    rw [hcopied, List.length_take, Nat.min_eq_left h]
  have hnul : ∀ c ∈ (text ++ [0]).take (respMax - 1), (c != 0) = true := by
    rw [hcopied]
    exact fun c hc => no_nul (List.mem_of_mem_take hc)
  have hbehind : (b.bytes stackMax).drop (respMax - 1) = (b.drop (respMax - 1)).bytes (stackMax - (respMax - 1)) :=
    Buf.bytes_drop b (respMax - 1) (stackMax - (respMax - 1))
  simp only [listed, Buf.cstr]
  rw [Buf.bytes_write_drop b (by rw [hlen]; decide), hlen, hbehind, List.takeWhile_append_of_pos hnul,
    List.length_append, hlen]

theorem listed_clean_iff (text : CStr) : (listed text).Clean ↔ ¬ Full text := by
  refine ⟨fun hclean hfull => ?_, fun h => (listed_writes h).clean⟩
  have hsame := congrArg List.length (hclean (fun _ => 0) fun _ => 1)
  rw [Writer.reply, Writer.reply, Buf.length_bytes, Buf.length_bytes, listed_full hfull, listed_full hfull] at hsame
  have hbehind : 1 ≤ ((Buf.drop (fun _ => 1) (respMax - 1)).cstr (stackMax - (respMax - 1))).length :=
    (Buf.le_length_cstr (by decide)).mpr fun i _ => by simp [Buf.drop]
  have hnone : ¬ 1 ≤ ((Buf.drop (fun _ => 0) (respMax - 1)).cstr (stackMax - (respMax - 1))).length := by
    rw [Buf.le_length_cstr (by decide)]
    exact fun h => h 0 (by decide) rfl
  omega

/-! ## The trail -/

def putEntry (o : Out) (e : AuditEntry) : Out :=
  if o.used + 8 + auditPath + 1 < respMax then
    ((o.pushes ([if e.op = 0 then 0x20 else e.op] ++ ascii "pid" ++
      [UInt8.ofNat (0x30 + e.sender % 10)] ++ ascii " ")).str
      respMax (e.path.take (auditPath - 1))).push 0x0A
  else o

def auditWriter (trail : List AuditEntry) : Writer := .build fun o => trail.reverse.foldl putEntry o

/-! ## The handler -/

def readWriter (env : Env) (k : Kernel) (cur : Nat) (s : Service) (req : CStr) : Writer :=
  if req = [] then .ncpy respMax (ascii "erro: path vazio") 16
  else if fsdStOwns req then
    match fsdStFind s.store req with
    | none => .ncpy respMax (ascii "erro: nao encontrado") 20
    | some i => .copied ((s.store.files[i]?.map (·.data)).getD [])
  else
    match callRead env k cur req (respMax - 1) with
    | none => .ncpy respMax (ascii "erro: nao encontrado") 20
    | some data => .copied data

def listWriter (k : Kernel) (cur : Nat) (s : Service) (req : CStr) : Writer :=
  if req = [] then .ncpy respMax (ascii "erro: dir invalido") 18
  else if fsdStOwns req then stListWriter s.store req (respMax - 1)
  else
    match callList k cur req with
    | none => .ncpy respMax (ascii "erro: dir invalido") 18
    | some text => listed text

/-- What the process is in while it handles a request. -/
structure Around where
  env : Env
  kernel : Kernel
  cur : Nat

def fsdWriter (a : Around) (s : Service) (type : Nat) (req : CStr) (answer : Reply) : Writer :=
  if type = ipcTypePing then .ncpy respMax (ascii "pong") 4
  else if type = ipcTypeRead then readWriter a.env a.kernel a.cur s req
  else if type = ipcTypeList then listWriter a.kernel a.cur s req
  else if type = ipcTypeFsAudit then auditWriter s.trail
  else match answer with
    | .flag ok => .flag ok
    | _ => .ncpy respMax (ascii "?") 1

/-- `fsd_handler`, with the buffer of its reply. -/
def fsdServed (a : Around) (s : Service) (sender type : Nat) (req : CStr) : Service × Writer :=
  let handled := fsdHandler a.env a.kernel a.cur s sender type req
  (handled.1, fsdWriter a s type req handled.2.2)

/-! ## What the replies depend on -/

/-- The request lists a folder of the kernel, whose text fills the reply. -/
def FullListing (a : Around) (type : Nat) (req : CStr) : Prop :=
  type = ipcTypeList ∧ req ≠ [] ∧ fsdStOwns req = false ∧
  (callList a.kernel a.cur req).any (fun text => decide (Full text)) = true

theorem auditWriter_clean (trail : List AuditEntry) : (auditWriter trail).Clean := by
  refine Writer.build_clean (Out.Steady.foldl (fun e => ?_) _)
  exact (((Out.Steady.pushes _).comp (Out.Steady.str _ _)).comp (Out.Steady.pushes [0x0A])).room
    fun used => used + 8 + auditPath + 1 < respMax

theorem readWriter_clean (env : Env) (k : Kernel) (cur : Nat) (s : Service) (req : CStr) :
    (readWriter env k cur s req).Clean := by
  unfold readWriter
  split
  · exact Writer.ncpy_clean (by decide)
  split
  · split
    · exact Writer.ncpy_clean (by decide)
    · exact (Writer.copied_writes _).clean
  · split
    · exact Writer.ncpy_clean (by decide)
    · exact (Writer.copied_writes _).clean

theorem fsdWriter_clean_iff (a : Around) (s : Service) (type : Nat) (req : CStr) (answer : Reply) :
    (fsdWriter a s type req answer).Clean ↔ ¬ FullListing a type req := by
  unfold fsdWriter FullListing
  by_cases hlist : type = ipcTypeList
  · subst hlist
    simp only [ipcTypeList, ipcTypePing, ipcTypeRead, Nat.reduceEqDiff, if_false, if_true, true_and, listWriter]
    split
    · next hreq => simpa [hreq] using Writer.ncpy_clean (by decide)
    next hreq =>
    cases howns : fsdStOwns req with
    | true => simpa using (stListWriter_writes s.store req (respMax - 1)).clean
    | false =>
      cases hcall : callList a.kernel a.cur req with
      | none => simpa using Writer.ncpy_clean (by decide)
      | some text => simpa [hreq] using listed_clean_iff text
  · simp only [hlist, false_and, not_false_iff, iff_true, if_false]
    split
    · exact Writer.ncpy_clean (by decide)
    split
    · exact readWriter_clean _ _ _ _ _
    split
    · exact auditWriter_clean _
    · split
      · exact Writer.flag_clean _
      · exact Writer.ncpy_clean (by decide)

/-! ## The answers of the handler -/

/-- The trail has paths as `audit_push` cuts them. -/
def Kept (trail : List AuditEntry) : Prop := ∀ e ∈ trail, e.path.length < auditPath

theorem Kept.push {trail : List AuditEntry} (h : Kept trail) (op : UInt8) (sender : Nat) (path : CStr) :
    Kept (auditPush trail op sender path) := by
  have hlen : (cut auditPath path).length < auditPath := cut_lt (by decide) path
  unfold auditPush
  intro e he
  split at he
  · rcases List.mem_append.mp he with he | he
    · exact h e he
    · exact List.mem_singleton.mp he ▸ hlen
  · rcases List.mem_or_eq_of_mem_set he with he | he
    · exact h e he
    · exact he ▸ hlen

theorem text_putEntry {e : AuditEntry} (h : e.path.length < auditPath) (o : Out) :
    (putEntry o e).text = if o.text.length + 8 + auditPath + 1 < respMax then o.text ++ auditLine e else o.text := by
  unfold putEntry
  rw [Out.length_text]
  split
  · next hroom =>
    have hmax : auditPath = 44 ∧ respMax = 4096 := ⟨rfl, rfl⟩
    have hpath : e.path.take (auditPath - 1) = e.path := List.take_of_length_le (by omega)
    have hused : (o.pushes ([if e.op = 0 then 0x20 else e.op] ++ ascii "pid" ++ [UInt8.ofNat (0x30 + e.sender % 10)] ++
        ascii " ")).used = o.used + 6 := by
      rw [← Out.length_text, Out.text_pushes, List.length_append, Out.length_text]
      rfl
    rw [Out.text_push, Out.text_str, Out.text_pushes, hused, hpath, List.take_of_length_le (by omega), auditLine]
    simp [ascii]
  · rfl

theorem auditWriter_writes {trail : List AuditEntry} (h : Kept trail) :
    (auditWriter trail).Writes (auditText trail) := by
  have hfold : ∀ l : List AuditEntry, Kept l → ∀ o : Out, (l.foldl putEntry o).text =
      l.foldl (fun used e => if used.length + 8 + auditPath + 1 < respMax then used ++
        auditLine e else used) o.text := by
    intro l
    induction l with
    | nil => exact fun _ _ => rfl
    | cons e es ih =>
      intro hl o
      rw [List.foldl_cons, List.foldl_cons, ih fun e he => hl e (List.mem_cons_of_mem _ he),
        text_putEntry (hl e (List.mem_cons_self ..))]
  refine Writer.build_writes fun o ho => ?_
  rw [hfold _ fun e he => h e (List.mem_reverse.mp he), ho]
  rfl

theorem readWriter_writes (env : Env) (k : Kernel) (cur : Nat) (s : Service) (sender : Nat) (req : CStr) :
    (readWriter env k cur s req).Writes (handleRead env k cur s sender req).2.2.bytes := by
  unfold readWriter handleRead
  by_cases hreq : req = []
  · simp only [hreq, if_true]
    exact Writer.ncpy_text rfl (by decide)
  simp only [hreq, if_false, audited]
  cases fsdStOwns req with
  | true =>
    cases fsdStFind s.store req with
    | none => exact Writer.ncpy_text rfl (by decide)
    | some i => exact Writer.copied_writes _
  | false =>
    cases callRead env k cur req (respMax - 1) with
    | none => exact Writer.ncpy_text rfl (by decide)
    | some data => exact Writer.copied_writes _

theorem listWriter_writes {k : Kernel} {cur : Nat} {req : CStr}
    (h : ∀ text, callList k cur req = some text → text.length < respMax - 1 ∧ 0 ∉ text) (s : Service) (sender : Nat) :
    (listWriter k cur s req).Writes (handleList k cur s sender req).2.2.bytes := by
  unfold listWriter handleList
  by_cases hreq : req = []
  · simp only [hreq, if_true]
    exact Writer.ncpy_text rfl (by decide)
  simp only [hreq, if_false, audited]
  cases fsdStOwns req with
  | true => exact stListWriter_writes _ _ _
  | false =>
    cases hcall : callList k cur req with
    | none => exact Writer.ncpy_text rfl (by decide)
    | some text =>
      obtain ⟨hlen, hnul⟩ := h text hcall
      have hall : text.takeWhile (· != 0) = text :=
        List.takeWhile_eq_self_iff.mpr fun c hc => by simpa using fun h0 : c = 0 => hnul (h0 ▸ hc)
      have hroom : ¬ Full text := by
        unfold Full
        rw [hall]
        omega
      have hwrites := listed_writes hroom
      rw [hall] at hwrites
      simpa [Reply.bytes, List.take_of_length_le (Nat.le_of_lt hlen)] using hwrites

theorem answer_flag (k : Kernel) (s : Service) (owned : Bool) (st : Option Store) (r : Nodes × Bool) :
    ∃ ok, (if owned then ownAnswer k s st else kernelAnswer s r).2.2 = .flag ok := by
  cases owned with
  | false => exact ⟨_, rfl⟩
  | true =>
    cases st with
    | none => exact ⟨_, rfl⟩
    | some st => exact ⟨_, rfl⟩

theorem fsdHandler_flag (env : Env) (k : Kernel) (cur : Nat) (s : Service) (sender : Nat) (req : CStr) {type : Nat}
    (h : type = ipcTypeFsCreate ∨ type = ipcTypeFsWrite ∨ type = ipcTypeFsRemove ∨ type = ipcTypeFsMkdir) :
    ∃ ok, (fsdHandler env k cur s sender type req).2.2 = .flag ok := by
  rcases h with rfl | rfl | rfl | rfl
  · exact answer_flag _ _ _ _ _
  · show ∃ ok, (handleWrite env k cur s sender req).2.2 = .flag ok
    unfold handleWrite
    split
    · exact ⟨_, rfl⟩
    · exact answer_flag _ _ _ _ _
  · exact answer_flag _ _ _ _ _
  · exact answer_flag _ _ _ _ _

theorem fsdServed_writes (a : Around) {s : Service} (htrail : Kept s.trail) (sender type : Nat) {req : CStr}
    (hlist : ∀ text, callList a.kernel a.cur req = some text → text.length < respMax - 1 ∧ 0 ∉ text) :
    (fsdServed a s sender type req).2.Writes (fsdHandler a.env a.kernel a.cur s sender type req).2.2.bytes := by
  unfold fsdServed fsdWriter
  by_cases hping : type = ipcTypePing
  · subst hping
    exact Writer.ncpy_text rfl (by decide)
  by_cases hread : type = ipcTypeRead
  · subst hread
    exact readWriter_writes _ _ _ _ _ _
  by_cases hlisting : type = ipcTypeList
  · subst hlisting
    exact listWriter_writes hlist _ _
  by_cases haudit : type = ipcTypeFsAudit
  · subst haudit
    exact auditWriter_writes htrail
  simp only [hping, hread, hlisting, haudit, if_false]
  by_cases hchange : type = ipcTypeFsCreate ∨ type = ipcTypeFsWrite ∨ type = ipcTypeFsRemove ∨ type = ipcTypeFsMkdir
  · obtain ⟨ok, hok⟩ := fsdHandler_flag a.env a.kernel a.cur s sender req hchange
    rw [hok]
    cases ok <;> exact Writer.flag_writes _
  · simp only [not_or] at hchange
    obtain ⟨hcreate, hwrite, hremove, hmkdir⟩ := hchange
    simp only [fsdHandler, hping, hread, hlisting, hcreate, hwrite, hremove, hmkdir, haudit, if_false]
    exact Writer.ncpy_text rfl (by decide)

end Siathos.Fsd
