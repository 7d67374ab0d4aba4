import Siathos.Fsd.Trail
import Siathos.Lib.Modify
import Siathos.Synd.Service

/-!
# The trail of requests (`synd_aud_push`)

'synd' keeps its trail as 'fsd' does, and shows no mark of the process.
-/

open Lib Siathos.Ipc Siathos.Fsd

namespace Siathos.Synd

/-- The request as `synd_handler` notes it, if it does. The contracts have the paths `caminhos`. -/
def syndAudit (caminhos : List CStr) (m : Call Unit) : Option AuditEntry :=
  let req := svcRequest m.payload
  if m.type = ipcTypeSynList then some ⟨0x6C, m.sender, cut 48 req⟩
  else if req ∉ caminhos then none
  else if m.type = ipcTypeSynRead then some ⟨0x72, m.sender, req⟩
  else if m.type = ipcTypeSynConsent then some ⟨0x63, m.sender, req⟩
  else if m.type = ipcTypeSynRevoke then some ⟨0x72, m.sender, req⟩
  else none

def paths (s : Contracts) : List CStr := s.cts.map (·.caminho)

theorem syndFind_none {s : Contracts} {path : CStr} : syndFind s path = none ↔ path ∉ paths s := by
  simp [syndFind, paths, List.findIdx?_eq_none_iff]

theorem syndGet_none {s : Contracts} {path : CStr} : syndGet s path = none ↔ path ∉ paths s := by
  rw [← syndFind_none]
  unfold syndGet
  cases hi : syndFind s path with
  | none => simp
  | some i =>
    obtain ⟨hlt, -⟩ := List.findIdx?_eq_some_iff_getElem.mp hi
    simp [List.getElem?_eq_getElem hlt]

theorem paths_setConsent (s : Contracts) (i : Nat) (b : Bool) : paths (setConsent s i b) = paths s := by
  apply map_modify_same
  exact fun _ => rfl

theorem handleRead_trail (s : Contracts) (sender : Nat) (req : CStr) :
    (handleRead s sender req).1.trail = pushed s.trail (if req ∉ paths s then none else some ⟨0x72, sender, req⟩) ∧
      paths (handleRead s sender req).1 = paths s := by
  unfold handleRead
  cases hc : syndGet s req with
  | none =>
    rw [if_pos (syndGet_none.mp hc)]
    exact ⟨rfl, rfl⟩
  | some c =>
    have hmem : ¬req ∉ paths s := fun h => by simp [syndGet_none.mpr h] at hc
    rw [if_neg hmem]
    exact ⟨rfl, rfl⟩

theorem handleConsent_trail (s : Contracts) (op : Char) (b : Bool) (sender : Nat) (req : CStr) :
    (handleConsent s op b sender req).1.trail =
        pushed s.trail (if req ∉ paths s then none else some ⟨UInt8.ofNat op.toNat, sender, req⟩) ∧
      paths (handleConsent s op b sender req).1 = paths s := by
  unfold handleConsent
  cases hi : syndFind s req with
  | none =>
    rw [if_pos (syndFind_none.mp hi)]
    exact ⟨rfl, rfl⟩
  | some i =>
    have hmem : ¬req ∉ paths s := fun h => by simp [syndFind_none.mpr h] at hi
    rw [if_neg hmem]
    exact ⟨rfl, paths_setConsent (audited s op sender req) i b⟩

theorem syndHandler_trail (s : Contracts) (m : Call Unit) :
    (answerOf syndHandler s m).1.trail = pushed s.trail (syndAudit (paths s) m) ∧
      paths (answerOf syndHandler s m).1 = paths s := by
  obtain ⟨⟨⟩, sender, type, payload⟩ := m
  change (syndHandler () s sender type (svcRequest payload)).1.trail = _ ∧ paths (syndHandler () s sender type _).1 = _
  unfold syndHandler syndAudit
  dsimp only
  generalize svcRequest payload = req
  by_cases hping : type = ipcTypePing
  · subst hping
    refine ⟨?_, rfl⟩
    simp [pushed, ipcTypePing, ipcTypeSynList, ipcTypeSynRead, ipcTypeSynConsent, ipcTypeSynRevoke]
  rw [if_neg hping]
  by_cases hlist : type = ipcTypeSynList
  · rw [if_pos hlist, if_pos hlist]
    exact ⟨rfl, rfl⟩
  rw [if_neg hlist, if_neg hlist]
  by_cases hread : type = ipcTypeSynRead
  · rw [if_pos hread, if_pos hread]
    exact handleRead_trail s sender req
  rw [if_neg hread, if_neg hread]
  by_cases hconsent : type = ipcTypeSynConsent
  · rw [if_pos hconsent, if_pos hconsent]
    exact handleConsent_trail s 'c' true sender req
  rw [if_neg hconsent, if_neg hconsent]
  by_cases hrevoke : type = ipcTypeSynRevoke
  · rw [if_pos hrevoke, if_pos hrevoke]
    exact handleConsent_trail s 'r' false sender req
  rw [if_neg hrevoke, if_neg hrevoke, ite_self]
  split <;> exact ⟨rfl, rfl⟩

theorem syndHandler_trailAll (s : Serving Contracts) (hs : s.service.trail = []) (ms : List (Call Unit)) :
    (serveAll syndHandler s ms).service.trail = pushAll (ms.filterMap (syndAudit (paths s.service))) ∧
      paths (serveAll syndHandler s ms).service = paths s.service := by
  induction ms using List.reverseRecOn with
  | nil => exact ⟨hs, rfl⟩
  | append_singleton ms m ih =>
    have hstep : (serveAll syndHandler s (ms ++ [m])).service =
        (answerOf syndHandler (serveAll syndHandler s ms).service m).1 := by
      rw [serveAll, List.foldl_append]
      exact (serve_eq syndHandler _ m).1
    obtain ⟨htrail, hpaths⟩ := syndHandler_trail (serveAll syndHandler s ms).service m
    rw [hstep, htrail, hpaths, ih.1, ih.2, List.filterMap_append]
    refine ⟨?_, rfl⟩
    cases hm : syndAudit (paths s.service) m with
    | none => simp [hm, pushed]
    | some e => simp [hm, pushed, Fsd.pushAll]

/-! ## What the trail shows -/

def entryLine (e : AuditEntry) : CStr := [if e.op = 0 then 0x20 else e.op, 0x20] ++ e.path ++ [0x0A]

/-- The lines of the reply. -/
def syndLines (trail : List AuditEntry) : List CStr := trail.reverse.map entryLine

/-- The line of a request, as the trail would show it. -/
def syndLine (e : AuditEntry) : CStr := entryLine e.kept

/-- The lines are those of the last sixteen requests, the latest first. -/
def SyndShows (ops : List AuditEntry) (lines : List CStr) : Prop := lines = (latest ops).map syndLine

theorem text_putEntry {e : AuditEntry} (h : e.path.length < auditPath) {o : Out} (hroom : o.text.length ≤ 800) :
    (putEntry o e).text = o.text ++ entryLine e := by
  simp only [Out.length_text] at hroom
  simp only [auditPath] at h
  have hfits : o.used + 2 + Fsd.auditPath < Ipc.respMax := by
    simp only [auditPath, Ipc.respMax]
    omega
  have hused : (o.pushes [if e.op = 0 then 0x20 else e.op, 0x20]).used = o.used + 2 := by
    rw [← Out.length_text, Out.text_pushes, List.length_append, Out.length_text]
    rfl
  have hpath : e.path.length ≤ Ipc.respMax - 1 - (o.used + 2) := by
    simp only [Ipc.respMax]
    omega
  unfold putEntry
  rw [if_pos hfits, Out.text_push, Out.text_str, Out.text_pushes, hused, List.take_of_length_le hpath, entryLine]
  simp

theorem auditReply_writes {s : Contracts} (hkept : Kept s.trail) (hlen : s.trail.length ≤ auditMax) :
    (auditReply s).Writes (syndLines s.trail).flatten := by
  have hfold : ∀ l : List AuditEntry, Kept l → ∀ o : Out, o.text.length + 50 * l.length ≤ 800 →
      (l.foldl putEntry o).text = o.text ++ (l.map entryLine).flatten := by
    intro l
    induction l with
    | nil => simp
    | cons e l ih =>
      intro hl o hroom
      rw [List.length_cons] at hroom
      have he : e.path.length < auditPath := hl e List.mem_cons_self
      have hline : (entryLine e).length ≤ 50 := by
        simp only [auditPath] at he
        simp only [entryLine, List.length_append, List.length_cons, List.length_nil]
        omega
      have htext := text_putEntry he (o := o) (by omega)
      rw [List.foldl_cons, ih (fun d hd => hl d (List.mem_cons_of_mem _ hd)) _
        (by rw [htext, List.length_append]; omega),
        htext]
      simp
  refine Writer.build_writes fun o ho => ?_
  have hroom : o.text.length + 50 * s.trail.reverse.length ≤ 800 := by
    simp only [auditMax] at hlen
    rw [ho, List.length_nil, List.length_reverse]
    omega
  rw [hfold _ (fun e he => hkept e (List.mem_reverse.mp he)) o hroom, ho]
  rfl

theorem synd_audit_reply (cts : List SyndCt) (req resp : Buf) (ms : List (Call Unit)) (sender : Nat)
    (payload : List UInt8) :
    (serve syndHandler (serveAll syndHandler ⟨⟨cts, []⟩, req, resp⟩ ms) ⟨(), sender, ipcTypeSynAudit, payload⟩).2 =
      (syndLines (serveAll syndHandler ⟨⟨cts, []⟩, req, resp⟩ ms).service.trail).flatten := by
  have htrail := (syndHandler_trailAll ⟨⟨cts, []⟩, req, resp⟩ rfl ms).1
  generalize serveAll syndHandler ⟨⟨cts, []⟩, req, resp⟩ ms = s at htrail ⊢
  have hreply : (answerOf syndHandler s.service ⟨(), sender, ipcTypeSynAudit, payload⟩).2 = auditReply s.service := rfl
  have hwrites : (auditReply s.service).Writes (syndLines s.service.trail).flatten := by
    refine auditReply_writes ?_ ?_
    · rw [htrail]
      exact kept_pushAll _
    · rw [htrail]
      exact length_pushAll _
  rw [(serve_eq syndHandler s _).2, hreply, hwrites]

theorem syndShows_iff (ops : List AuditEntry) :
    SyndShows ops (syndLines (pushAll ops)) ↔ ops.length ≤ auditMax ∨ LooksAlike syndLine ops := by
  have hlines : syndLines (pushAll ops) = (if ops.length ≤ auditMax then latest ops else stuck ops).map syndLine := by
    rw [syndLines, pushAll_reverse, List.map_map]
    rfl
  rw [SyndShows, hlines, shown_iff]

/-! ## Both services -/

/-- The trails show the latest requests until there are more than sixteen, and later only by chance. -/
theorem audit_latest_iff (req resp : Buf) :
    (∀ (store : Store) (ms : List (Call Around)) (a : Around) (sender : Nat) (payload : List UInt8),
      (serve fsdServed (serveAll fsdServed ⟨⟨store, []⟩, req, resp⟩ ms) ⟨a, sender, ipcTypeFsAudit, payload⟩).2 =
          (auditLines (serveAll fsdServed ⟨⟨store, []⟩, req, resp⟩ ms).service.trail).flatten ∧
        (FsdShows (ms.filterMap fsdAudit) (auditLines (serveAll fsdServed ⟨⟨store, []⟩, req, resp⟩ ms).service.trail) ↔
          ((ms.filterMap fsdAudit).length ≤ 16 ∨ LooksAlike AuditEntry.line (ms.filterMap fsdAudit)) ∧
            ∀ e ∈ latest (ms.filterMap fsdAudit), ∀ e' ∈ latest (ms.filterMap fsdAudit),
              e.sender % 10 = e'.sender % 10 → e.sender = e'.sender)) ∧
    ∀ (cts : List SyndCt) (ms : List (Call Unit)) (sender : Nat) (payload : List UInt8),
      (serve syndHandler (serveAll syndHandler ⟨⟨cts, []⟩, req, resp⟩ ms) ⟨(), sender, ipcTypeSynAudit, payload⟩).2 =
          (syndLines (serveAll syndHandler ⟨⟨cts, []⟩, req, resp⟩ ms).service.trail).flatten ∧
        (SyndShows (ms.filterMap (syndAudit (cts.map (·.caminho))))
            (syndLines (serveAll syndHandler ⟨⟨cts, []⟩, req, resp⟩ ms).service.trail) ↔
          (ms.filterMap (syndAudit (cts.map (·.caminho)))).length ≤ 16 ∨
            LooksAlike syndLine (ms.filterMap (syndAudit (cts.map (·.caminho))))) := by
  constructor
  · intro store ms a sender payload
    refine ⟨fsd_audit_reply store req resp ms a sender payload, ?_⟩
    rw [fsdServed_trailAll _ rfl]
    exact fsdShows_iff _
  · intro cts ms sender payload
    refine ⟨synd_audit_reply cts req resp ms sender payload, ?_⟩
    rw [(syndHandler_trailAll _ rfl ms).1]
    exact syndShows_iff _

/-- Seventeen requests to list, each with a filter of its own. -/
def seventeen : List (Call Unit) := (List.range 17).map fun i => ⟨(), 5, ipcTypeSynList, [UInt8.ofNat (0x61 + i)]⟩

/-- The seventeenth request is shown last, and that before it first. And two processes have one mark. -/
theorem audit_misses_latest :
    ¬SyndShows (seventeen.filterMap (syndAudit []))
        (syndLines (serveAll syndHandler ⟨⟨[], []⟩, fun _ => 0, fun _ => 0⟩ seventeen).service.trail) ∧
      ¬FsdShows [⟨0x72, 3, ascii "/nomos/a"⟩, ⟨0x72, 13, ascii "/nomos/a"⟩]
        (auditLines (pushAll [⟨0x72, 3, ascii "/nomos/a"⟩, ⟨0x72, 13, ascii "/nomos/a"⟩])) := by
  constructor
  · unfold SyndShows
    decide +kernel
  · intro h
    have hmarks := h.marks ⟨0x72, 3, ascii "/nomos/a"⟩ (by decide) ⟨0x72, 13, ascii "/nomos/a"⟩ (by decide)
    revert hmarks
    decide

end Siathos.Synd
