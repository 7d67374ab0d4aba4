import Mathlib.Data.List.Induction
import Siathos.Fsd.Replies

/-!
# The trail of requests (`audit_push`)

The trail is a ring of sixteen entries. Its counter stops at sixteen, so that from then on each entry takes the place
of the one before.
-/

open Lib Siathos.Nomos Siathos.Fs Siathos.Syscall Siathos.Ipc

namespace Siathos.Fsd

/-! ## The ring -/

/-- The entry as it is kept. -/
def AuditEntry.kept (e : AuditEntry) : AuditEntry := { e with path := cut auditPath e.path }

/-- The trail after these requests. -/
def pushAll (ops : List AuditEntry) : List AuditEntry :=
  ops.foldl (fun trail e => auditPush trail e.op e.sender e.path) []

/-- The last sixteen requests, the latest first. -/
def latest (ops : List AuditEntry) : List AuditEntry := ops.reverse.take auditMax

/-- What is left of more than sixteen requests: the sixteenth down to the second, and the latest. -/
def stuck (ops : List AuditEntry) : List AuditEntry := (ops.take auditMax).tail.reverse ++ ops.getLast?.toList

theorem pushAll_snoc (ops : List AuditEntry) (e : AuditEntry) :
    pushAll (ops ++ [e]) = auditPush (pushAll ops) e.op e.sender e.path :=
  List.foldl_append

theorem pushAll_few {ops : List AuditEntry} (h : ops.length ≤ auditMax) : pushAll ops = ops.map AuditEntry.kept := by
  induction ops using List.reverseRecOn with
  | nil => rfl
  | append_singleton ops e ih =>
    rw [List.length_append, List.length_singleton] at h
    rw [pushAll_snoc, ih (by omega), auditPush, if_pos (by rw [List.length_map]; omega), List.map_append]
    rfl

theorem auditPush_full {trail : List AuditEntry} (h : trail.length = auditMax) (e : AuditEntry) :
    auditPush trail e.op e.sender e.path = e.kept :: trail.tail := by
  obtain ⟨d, rest, rfl⟩ := List.exists_cons_of_length_pos (by rw [h]; decide : 0 < trail.length)
  unfold auditPush
  rw [h]
  rfl

theorem pushAll_many {ops : List AuditEntry} (h : auditMax ≤ ops.length) (e : AuditEntry) :
    pushAll (ops ++ [e]) = e.kept :: (ops.take auditMax).tail.map AuditEntry.kept := by
  induction ops using List.reverseRecOn generalizing e with
  | nil => exact absurd h (by decide)
  | append_singleton ops d ih =>
    rw [List.length_append, List.length_singleton] at h
    rw [pushAll_snoc]
    by_cases hfew : ops.length < auditMax
    · have hlen : (ops ++ [d]).length = auditMax := by
        rw [List.length_append, List.length_singleton]
        omega
      rw [pushAll_few (Nat.le_of_eq hlen), List.take_of_length_le (Nat.le_of_eq hlen),
        auditPush_full (by rw [List.length_map, hlen]), List.map_tail]
    · have hmany : auditMax ≤ ops.length := Nat.le_of_not_lt hfew
      have hlen : (pushAll (ops ++ [d])).length = auditMax := by
        rw [ih hmany]
        simp only [List.length_cons, List.length_map, List.length_tail, List.length_take]
        simp only [auditMax] at hmany ⊢
        omega
      rw [auditPush_full hlen, ih hmany, List.tail_cons, List.take_append_of_le_length hmany]

theorem pushAll_reverse (ops : List AuditEntry) :
    (pushAll ops).reverse = (if ops.length ≤ auditMax then latest ops else stuck ops).map AuditEntry.kept := by
  split
  · rename_i hfew
    rw [pushAll_few hfew, latest, List.take_of_length_le (by rwa [List.length_reverse]), List.map_reverse]
  · rename_i hmany
    obtain ⟨ops, e, rfl⟩ := (List.eq_nil_or_concat ops).resolve_left (by rintro rfl; exact hmany (by decide))
    rw [List.concat_eq_append, List.length_append, List.length_singleton] at hmany
    have hfull : auditMax ≤ ops.length := by omega
    rw [List.concat_eq_append, pushAll_many hfull, stuck, List.take_append_of_le_length hfull]
    simp

/-! ## The text -/

/-- The line of a request, as the trail would show it. -/
def AuditEntry.line (e : AuditEntry) : CStr := auditLine e.kept

/-- The only mark of the process in the line. -/
def pidMark (pid : Nat) : UInt8 := UInt8.ofNat (0x30 + pid % 10)

theorem pidMark_inj {p q : Nat} : pidMark p = pidMark q ↔ p % 10 = q % 10 := by
  constructor
  · intro h
    have hnat := congrArg UInt8.toNat h
    simp only [pidMark, UInt8.toNat_ofNat'] at hnat
    omega
  · intro h
    rw [pidMark, pidMark, h]

theorem length_line (e : AuditEntry) : e.line.length ≤ 50 := by
  have hcut : (cut auditPath e.path).length < 44 := cut_lt (by decide) e.path
  simp [AuditEntry.line, auditLine, AuditEntry.kept, ascii]
  omega

theorem auditText_eq {trail ops : List AuditEntry} (hlen : ops.length ≤ auditMax)
    (htrail : trail.reverse = ops.map AuditEntry.kept) : auditText trail = (ops.map AuditEntry.line).flatten := by
  have hfold : ∀ (l : List AuditEntry) (used : CStr), used.length + 50 * l.length ≤ 800 →
      (l.map AuditEntry.kept).foldl
        (fun used e => if used.length + 8 + auditPath + 1 < respMax then used ++ auditLine e else used) used =
          used ++ (l.map AuditEntry.line).flatten := by
    intro l
    induction l with
    | nil => simp
    | cons e l ih =>
      intro used hroom
      rw [List.length_cons] at hroom
      have hline : (auditLine e.kept).length ≤ 50 := length_line e
      have hfits : used.length + 8 + auditPath + 1 < respMax := by
        simp only [auditPath, respMax]
        omega
      rw [List.map_cons, List.foldl_cons, if_pos hfits, ih _ (by rw [List.length_append]; omega)]
      simp [AuditEntry.line]
  simp only [auditMax] at hlen
  unfold auditText
  rw [htrail, hfold ops [] (by rw [List.length_nil]; omega)]
  rfl

/-! ## The requests -/

/-- The request as `fsd_handler` notes it, if it does. -/
def fsdAudit (m : Call Around) : Option AuditEntry :=
  let req := svcRequest m.payload
  if m.type = ipcTypeRead then some ⟨0x72, m.sender, if req = [] then ascii "?" else req⟩
  else if m.type = ipcTypeList then some ⟨0x6C, m.sender, if req = [] then ascii "?" else req⟩
  else if m.type = ipcTypeFsCreate then some ⟨0x63, m.sender, shortPath req⟩
  else if m.type = ipcTypeFsWrite then
    some ⟨0x77, m.sender, if req = [] then ascii "?" else shortPath (writePath req)⟩
  else if m.type = ipcTypeFsRemove then some ⟨0x64, m.sender, shortPath req⟩
  else if m.type = ipcTypeFsMkdir then some ⟨0x6D, m.sender, shortPath req⟩
  else none

def pushed (trail : List AuditEntry) (e : Option AuditEntry) : List AuditEntry :=
  e.elim trail fun e => auditPush trail e.op e.sender e.path

theorem ownAnswer_trail (k : Kernel) (s : Service) (st : Option Store) : (ownAnswer k s st).1.trail = s.trail := by
  cases st <;> rfl

theorem answer_trail (k : Kernel) (s : Service) (owned : Bool) (st : Option Store) (r : Nodes × Bool) :
    (if owned then ownAnswer k s st else kernelAnswer s r).1.trail = s.trail := by
  cases owned
  · rfl
  · exact ownAnswer_trail k s st

theorem handleRead_trail (env : Env) (k : Kernel) (cur : Nat) (s : Service) (sender : Nat) (req : CStr) :
    (handleRead env k cur s sender req).1.trail =
      auditPush s.trail 0x72 sender (if req = [] then ascii "?" else req) := by
  unfold handleRead
  split
  · rfl
  · dsimp only
    repeat' split
    all_goals rfl

theorem handleList_trail (k : Kernel) (cur : Nat) (s : Service) (sender : Nat) (req : CStr) :
    (handleList k cur s sender req).1.trail = auditPush s.trail 0x6C sender (if req = [] then ascii "?" else req) := by
  unfold handleList
  split
  · rfl
  · dsimp only
    repeat' split
    all_goals rfl

theorem handleWrite_trail (env : Env) (k : Kernel) (cur : Nat) (s : Service) (sender : Nat) (req : CStr) :
    (handleWrite env k cur s sender req).1.trail =
      auditPush s.trail 0x77 sender (if req = [] then ascii "?" else shortPath (writePath req)) := by
  unfold handleWrite
  split
  · rfl
  · exact answer_trail ..

theorem fsdServed_trail (s : Service) (m : Call Around) :
    (answerOf fsdServed s m).1.trail = pushed s.trail (fsdAudit m) := by
  obtain ⟨⟨env, k, cur⟩, sender, type, payload⟩ := m
  change (fsdHandler env k cur s sender type (svcRequest payload)).1.trail = _
  unfold fsdHandler fsdAudit
  dsimp only
  generalize svcRequest payload = req
  by_cases hping : type = ipcTypePing
  · subst hping
    rfl
  rw [if_neg hping]
  split
  · exact handleRead_trail ..
  split
  · exact handleList_trail ..
  split
  · exact answer_trail ..
  split
  · exact handleWrite_trail ..
  split
  · exact answer_trail ..
  split
  · exact answer_trail ..
  · split <;> rfl

theorem fsdServed_trailAll (s : Serving Service) (hs : s.service.trail = []) (ms : List (Call Around)) :
    (serveAll fsdServed s ms).service.trail = pushAll (ms.filterMap fsdAudit) := by
  induction ms using List.reverseRecOn with
  | nil => exact hs
  | append_singleton ms m ih =>
    have hstep : (serveAll fsdServed s (ms ++ [m])).service =
        (answerOf fsdServed (serveAll fsdServed s ms).service m).1 := by
      rw [serveAll, List.foldl_append]
      exact (serve_eq fsdServed _ m).1
    rw [hstep, fsdServed_trail, ih, List.filterMap_append]
    cases hm : fsdAudit m with
    | none => simp [hm, pushed]
    | some e => simp [hm, pushed, pushAll]

/-! ## What the trail shows -/

/-- The lines are those of the last sixteen requests, the latest first, and processes have the same mark only if they
are the same. -/
structure FsdShows (ops : List AuditEntry) (lines : List CStr) : Prop where
  lines_eq : lines = (latest ops).map AuditEntry.line
  marks : ∀ e ∈ latest ops, ∀ e' ∈ latest ops, pidMark e.sender = pidMark e'.sender ↔ e.sender = e'.sender

/-- The lines of the reply. -/
def auditLines (trail : List AuditEntry) : List CStr := trail.reverse.map auditLine

theorem auditLines_pushAll (ops : List AuditEntry) :
    auditLines (pushAll ops) = (if ops.length ≤ auditMax then latest ops else stuck ops).map AuditEntry.line := by
  rw [auditLines, pushAll_reverse, List.map_map]
  rfl

/-- The requests look as if the trail were that of the first sixteen with the latest in the first place. -/
def LooksAlike (line : AuditEntry → CStr) (ops : List AuditEntry) : Prop := (stuck ops).map line = (latest ops).map line

theorem shown_iff (line : AuditEntry → CStr) (ops : List AuditEntry) :
    (if ops.length ≤ auditMax then latest ops else stuck ops).map line = (latest ops).map line ↔
      ops.length ≤ auditMax ∨ LooksAlike line ops := by
  split
  · rename_i hfew
    simp [hfew]
  · rename_i hmany
    simp [hmany, LooksAlike]

theorem fsdShows_iff (ops : List AuditEntry) :
    FsdShows ops (auditLines (pushAll ops)) ↔
      (ops.length ≤ auditMax ∨ LooksAlike AuditEntry.line ops) ∧
        ∀ e ∈ latest ops, ∀ e' ∈ latest ops, e.sender % 10 = e'.sender % 10 → e.sender = e'.sender := by
  rw [← shown_iff, ← auditLines_pushAll]
  constructor
  · exact fun ⟨hlines, hmarks⟩ => ⟨hlines, fun e he e' he' h => (hmarks e he e' he').mp (pidMark_inj.mpr h)⟩
  · exact fun ⟨hlines, hmarks⟩ => ⟨hlines, fun e he e' he' =>
      ⟨fun h => hmarks e he e' he' (pidMark_inj.mp h), fun h => by rw [h]⟩⟩

theorem kept_pushAll (ops : List AuditEntry) : Kept (pushAll ops) := by
  induction ops using List.reverseRecOn with
  | nil => exact fun _ he => absurd he List.not_mem_nil
  | append_singleton ops e ih =>
    rw [pushAll_snoc]
    exact ih.push e.op e.sender e.path

theorem length_shown (ops : List AuditEntry) :
    (if ops.length ≤ auditMax then latest ops else stuck ops).length ≤ auditMax := by
  split
  · exact List.length_take_le ..
  · have hlast : ops.getLast?.toList.length ≤ 1 := by cases ops.getLast? <;> simp
    simp only [stuck, List.length_append, List.length_reverse, List.length_tail, List.length_take, auditMax]
    omega

theorem length_pushAll (ops : List AuditEntry) : (pushAll ops).length ≤ auditMax := by
  rw [← List.length_reverse, pushAll_reverse, List.length_map]
  exact length_shown ops

theorem auditText_pushAll (ops : List AuditEntry) : auditText (pushAll ops) = (auditLines (pushAll ops)).flatten := by
  rw [auditText_eq (length_shown ops) (pushAll_reverse ops), auditLines_pushAll]

theorem fsd_audit_reply (store : Store) (req resp : Buf) (ms : List (Call Around)) (a : Around) (sender : Nat)
    (payload : List UInt8) :
    (serve fsdServed (serveAll fsdServed ⟨⟨store, []⟩, req, resp⟩ ms) ⟨a, sender, ipcTypeFsAudit, payload⟩).2 =
      (auditLines (serveAll fsdServed ⟨⟨store, []⟩, req, resp⟩ ms).service.trail).flatten := by
  have htrail := fsdServed_trailAll ⟨⟨store, []⟩, req, resp⟩ rfl ms
  generalize serveAll fsdServed ⟨⟨store, []⟩, req, resp⟩ ms = s at htrail ⊢
  have hwriter : (answerOf fsdServed s.service ⟨a, sender, ipcTypeFsAudit, payload⟩).2 =
    auditWriter s.service.trail := rfl
  rw [(serve_eq fsdServed s _).2, hwriter, htrail, auditWriter_writes (kept_pushAll _), auditText_pushAll]

end Siathos.Fsd
