import Mathlib.Data.Nat.Digits.Defs
import Siathos.Authd.Store
import Siathos.Device.Decoders
import Siathos.Fsd.Mediation
import Siathos.Fsd.Replies
import Siathos.Synd.Seed
import Siathos.Syscall.Arrays

/-!
# The bounds of a service

What one turn of `spud_svc_serve` writes into `req` and `resp`. The handlers keep their own limits, so
that all hangs on the NUL behind the request.
-/

open Lib

namespace Siathos.Ipc

section

variable {ε σ : Type}

/-- A turn writes into `req` and `resp` only, the handler finds a NUL in `req`, and the reply lies in
`resp`. -/
structure TurnInside (handler : Handler ε σ) (s : Serving σ) (m : Call ε) : Prop where
  req : ∀ b j, reqMax ≤ j → receive m.payload b j = b j
  resp : ∀ b j, respMax ≤ j → ((answerOf handler s.service m).2 b).1 j = b j
  terminated : ∃ i < reqMax, (serve handler s m).1.req i = 0
  reply : ((answerOf handler s.service m).2 s.resp).2 ≤ respMax

theorem receive_end (payload : List UInt8) (b : Buf) : receive payload b (min payload.length reqMax) = 0 := by
  have hlen : 0 + (payload.take reqMax).length = min payload.length reqMax := by
    rw [List.length_take, Nat.zero_add, Nat.min_comm]
  rw [receive, Buf.write_append, hlen]
  simp [Buf.write]

theorem receive_inside_iff (payload : List UInt8) :
    (∀ b j, reqMax ≤ j → receive payload b j = b j) ↔ payload.length < reqMax := by
  constructor
  · intro hall
    by_contra hlong
    have hend := receive_end payload fun _ => 1
    rw [Nat.min_eq_right (Nat.le_of_not_lt hlong), hall (fun _ => 1) reqMax (Nat.le_refl _)] at hend
    exact absurd hend (by decide)
  · intro hlt b j hj
    refine Buf.write_after ?_ b
    simp only [List.length_append, List.length_take, List.length_singleton]
    omega

theorem turn_inside_iff (handler : Handler ε σ) (s : Serving σ) (m : Call ε)
    (hresp : ∀ b j, respMax ≤ j → ((answerOf handler s.service m).2 b).1 j = b j) :
    TurnInside handler s m ↔
      m.payload.length < reqMax ∧ ((answerOf handler s.service m).2 s.resp).2 ≤ respMax := by
  constructor
  · exact fun h => ⟨(receive_inside_iff m.payload).mp h.req, h.reply⟩
  · rintro ⟨hlt, hreply⟩
    refine ⟨(receive_inside_iff m.payload).mpr hlt, hresp, ⟨m.payload.length, hlt, ?_⟩, hreply⟩
    have hend := receive_end m.payload s.req
    rwa [Nat.min_eq_left (Nat.le_of_lt hlt)] at hend

theorem turn_fits_iff (handler : Handler ε σ) (s : Serving σ) (m : Call ε)
    (h : (answerOf handler s.service m).2.Fits respMax) : TurnInside handler s m ↔ m.payload.length < reqMax := by
  rw [turn_inside_iff handler s m h.within]
  exact and_iff_left (h.short s.resp)

end

theorem shortReply_fits (text : CStr) {k : Nat} (hk : k ≤ 16) : (Writer.ncpy respMax text k).Fits respMax :=
  Writer.ncpy_fits (Nat.le_refl _) (by decide) (Nat.le_trans hk (by decide)) text

end Siathos.Ipc

/-! ## fsd -/

namespace Siathos.Fsd

open Siathos.Fs Siathos.Syscall

theorem putName_extends (dir : CStr) (max : Nat) (kind : CStr) (o : Out) (p : CStr) :
    Out.Extends o (putName dir max kind o p) := by
  unfold putName
  split
  · exact Out.Extends.refl o
  · split
    · exact ((Out.Extends.str _ _ _).trans (Out.Extends.str _ _ _)).trans (Out.Extends.push _ _)
    · exact Out.Extends.refl o

theorem putName_used {kind : CStr} (hkind : kind.length = 5) (dir : CStr) (max : Nat) (o : Out) (p : CStr)
    (ho : o.used < max + 1) :
    (putName dir max kind o p).used < max + 1 := by
  unfold putName
  split
  · exact ho
  next nome _ =>
  split
  · next hroom =>
    have hlen : ∀ s : String, (ascii s).length = s.toList.length := fun s => List.length_map _
    have hlead : (ascii "  " ++ kind ++ ascii "   ").length = 10 := by simp [hlen, hkind]
    have hfirst := Out.used_str_le max o (ascii "  " ++ kind ++ ascii "   ")
    have hsecond := Out.used_str_le max (o.str max (ascii "  " ++ kind ++ ascii "   ")) nome
    rw [Out.used_push]
    omega
  · exact ho

theorem stListWriter_fits (st : Store) (dir : CStr) : (stListWriter st dir (respMax - 1)).Fits respMax := by
  refine Writer.build_fits (fun o => ?_) fun b => ?_
  · exact (Out.Extends.foldl (putName_extends dir _ _) _ o).trans (Out.Extends.foldl (putName_extends dir _ _) _ _)
  · exact Out.used_foldl_lt (fun o p _ => putName_used (by decide) dir (respMax - 1) o p)
      (Out.used_foldl_lt (fun o p _ => putName_used (by decide) dir (respMax - 1) o p) (Nat.zero_lt_succ _))

theorem auditWriter_fits (trail : List AuditEntry) : (auditWriter trail).Fits respMax := by
  refine Writer.build_fits (fun o => Out.Extends.foldl (fun o e => ?_) _ o) fun b => Out.used_foldl_lt
    (fun o e _ ho => ?_) (Nat.zero_lt_succ 4095)
  · unfold putEntry
    split
    · exact ((Out.Extends.pushes _ _).trans (Out.Extends.str _ _ _)).trans (Out.Extends.push _ _)
    · exact Out.Extends.refl o
  · unfold putEntry
    split
    · next hroom =>
      have hpath : (e.path.take (auditPath - 1)).length ≤ auditPath - 1 := List.length_take_le _ _
      have hlead : ([if e.op = 0 then 0x20 else e.op] ++ ascii "pid" ++
        [UInt8.ofNat (0x30 + e.sender % 10)] ++ ascii " ").length = 6 := by
        simp only [List.length_append, List.length_singleton]
        rfl
      have hstr := Out.used_str_le respMax
        (o.pushes ([if e.op = 0 then 0x20 else e.op] ++ ascii "pid" ++
          [UInt8.ofNat (0x30 + e.sender % 10)] ++ ascii " "))
        (e.path.take (auditPath - 1))
      rw [Out.used_pushes, hlead] at hstr
      rw [Out.used_push]
      simp only [auditPath] at hroom hpath hstr ⊢
      omega
    · exact ho

theorem listed_within (text : CStr) : ∀ b j, respMax ≤ j → (listed text b).1 j = b j := by
  intro b j hj
  refine Buf.write_after ?_ b
  rw [List.length_take]
  omega

theorem listed_short_iff (text : CStr) (b : Buf) :
    (listed text b).2 ≤ respMax ↔ ¬ (Full text ∧ b (respMax - 1) ≠ 0 ∧ b respMax ≠ 0) := by
  by_cases hfull : Full text
  · have hlong : 2 ≤ ((b.drop (respMax - 1)).cstr (stackMax - (respMax - 1))).length ↔
      ∀ i < 2, b.drop (respMax - 1) i ≠ 0 :=
      Buf.le_length_cstr (by decide)
    have htwo : (∀ i < 2, b.drop (respMax - 1) i ≠ 0) ↔ b (respMax - 1) ≠ 0 ∧ b respMax ≠ 0 :=
      ⟨fun h => ⟨h 0 (by decide), h 1 (by decide)⟩, fun h i hi => by
        obtain rfl | rfl : i = 0 ∨ i = 1 := by omega
        · exact h.1
        · exact h.2⟩
    rw [listed_full hfull, ← htwo, ← hlong]
    simp only [hfull, true_and, respMax]
    omega
  · have hshort : (listed text b).2 = (text.takeWhile (· != 0)).length := by
      have hlen := congrArg List.length (listed_writes hfull b)
      rwa [Writer.reply, Buf.length_bytes] at hlen
    simp only [hfull, false_and, not_false_iff, iff_true, hshort]
    have hlt : (text.takeWhile (· != 0)).length < respMax - 1 := Nat.lt_of_not_le hfull
    omega

theorem callRead_short {env : Env} {k : Kernel} {cur : Nat} {path : CStr} {max : Nat} {data : List UInt8}
    (hmax : 0 < max)
    (h : callRead env k cur path max = some data) : data.length ≤ max := by
  unfold callRead vfsRead at h
  obtain ⟨p, -, h⟩ := Option.bind_eq_some_iff.mp h
  obtain ⟨norm, -, h⟩ := Option.bind_eq_some_iff.mp h
  split at h
  · split at h
    · obtain rfl := Option.some.inj h
      exact Nat.le_of_lt (appendLines_lt hmax _)
    · simp at h
  · unfold fsRead at h
    split at h
    · simp at h
    · split at h
      · simp at h
      · obtain rfl := Option.some.inj h
        exact List.length_take_le _ _

theorem readWriter_fits (env : Env) (k : Kernel) (cur : Nat) (s : Service) (req : CStr) :
    (readWriter env k cur s req).Fits respMax := by
  unfold readWriter
  split
  · exact Writer.ncpy_fits (Nat.le_refl _) (by decide) (by decide) _
  split
  · split
    · exact Writer.ncpy_fits (Nat.le_refl _) (by decide) (by decide) _
    next i _ =>
    refine Writer.copied_fits ?_
    cases s.store.files[i]? with
    | none => decide
    | some f => exact Nat.lt_trans f.data_lt (by decide)
  · split
    · exact Writer.ncpy_fits (Nat.le_refl _) (by decide) (by decide) _
    next data hdata =>
    have hlen := callRead_short (by decide) hdata
    exact Writer.copied_fits (Nat.lt_of_le_of_lt hlen (by decide))

/-- The request lists a folder of the kernel, whose text fills the buffer but for its last byte, and no NUL stands
there and behind the buffer. -/
def RunsOn (a : Around) (b : Buf) (type : Nat) (req : CStr) : Prop :=
  FullListing a type req ∧ b (respMax - 1) ≠ 0 ∧ b respMax ≠ 0

theorem fsdWriter_fits {type : Nat} (htype : type ≠ ipcTypeList) (a : Around) (s : Service) (req : CStr)
    (answer : Reply) :
    (fsdWriter a s type req answer).Fits respMax := by
  unfold fsdWriter
  rw [if_neg htype]
  split
  · exact Writer.ncpy_fits (Nat.le_refl _) (by decide) (by decide) _
  split
  · exact readWriter_fits _ _ _ _ _
  split
  · exact auditWriter_fits _
  · split
    · exact Writer.flag_fits (by decide) _
    · exact Writer.ncpy_fits (Nat.le_refl _) (by decide) (by decide) _

theorem listWriter_spec (k : Kernel) (cur : Nat) (s : Service) (req : CStr) :
    ((listWriter k cur s req).Fits respMax ∧ (req = [] ∨ fsdStOwns req = true ∨ callList k cur req = none)) ∨
      (req ≠ [] ∧ fsdStOwns req = false ∧ ∃ text, callList k cur req = some text ∧
      listWriter k cur s req = listed text) := by
  unfold listWriter
  split
  · next hreq => exact Or.inl ⟨Writer.ncpy_fits (Nat.le_refl _) (by decide) (by decide) _, Or.inl hreq⟩
  next hreq =>
  cases howns : fsdStOwns req with
  | true => exact Or.inl ⟨stListWriter_fits s.store req, Or.inr (Or.inl rfl)⟩
  | false =>
    cases hcall : callList k cur req with
    | none => exact Or.inl ⟨Writer.ncpy_fits (Nat.le_refl _) (by decide) (by decide) _, Or.inr (Or.inr rfl)⟩
    | some text => exact Or.inr ⟨hreq, rfl, text, rfl, rfl⟩

theorem fsd_inside_iff (s : Ipc.Serving Service) (m : Ipc.Call Around) :
    Ipc.TurnInside fsdServed s m ↔
      m.payload.length < Ipc.reqMax ∧ ¬ RunsOn m.env s.resp m.type (Ipc.svcRequest m.payload) := by
  have hanswer : (Ipc.answerOf fsdServed s.service m).2 = fsdWriter m.env s.service m.type (Ipc.svcRequest m.payload)
      (fsdHandler m.env.env m.env.kernel m.env.cur s.service m.sender m.type (Ipc.svcRequest m.payload)).2.2 := rfl
  generalize hreq : Ipc.svcRequest m.payload = req at *
  by_cases htype : m.type = ipcTypeList
  · have hwriter : ∀ answer,
      fsdWriter m.env s.service m.type req answer = listWriter m.env.kernel m.env.cur s.service req := by
      intro answer
      simp [fsdWriter, htype, ipcTypeList, ipcTypePing, ipcTypeRead]
    rw [hwriter] at hanswer
    rcases listWriter_spec m.env.kernel m.env.cur s.service req with ⟨hfits, hnone⟩ | ⟨hne, howns, text, hcall, hlisted⟩
    · rw [Ipc.turn_fits_iff fsdServed s m (by rw [hanswer]; exact hfits)]
      refine (and_iff_left ?_).symm
      rintro ⟨⟨-, hne, howns, hany⟩, -⟩
      rcases hnone with hnil | hown | hcall
      · exact hne hnil
      · simp [howns] at hown
      · simp [hcall] at hany
    · rw [hlisted] at hanswer
      rw [Ipc.turn_inside_iff fsdServed s m (by rw [hanswer]; exact listed_within text), hanswer, RunsOn, FullListing]
      have hshort := listed_short_iff text s.resp
      simp only [htype, hne, howns, hcall, Option.any_some, decide_eq_true_eq, ne_eq, not_false_eq_true, true_and]
      exact and_congr_right fun _ => hshort
  · rw [Ipc.turn_fits_iff fsdServed s m (by rw [hanswer]; exact fsdWriter_fits htype _ _ _ _)]
    simp [RunsOn, FullListing, htype]

end Siathos.Fsd

/-! ## authd -/

namespace Siathos.Authd

theorem listReply_fits (s : Accounts) : (listReply s).Fits Ipc.respMax := by
  unfold listReply
  split
  · exact Writer.ncpy_fits (Nat.le_refl _) (by decide) (by decide) _
  · refine Writer.build_fits (fun o => Out.Extends.foldl (fun o line => ?_) _ o)
      fun b => Out.used_foldl_lt (fun o line _ ho => ?_) (Nat.zero_lt_succ 4095)
    · unfold putLine
      split
      · exact Out.Extends.pushes o line
      · exact Out.Extends.refl o
    · unfold putLine
      split
      · next hroom => rwa [Out.used_pushes]
      · exact ho

theorem countReply_fits {s : Accounts} (h : s.accts.length ≤ authMax) : (countReply s).Fits Ipc.respMax := by
  refine Writer.copied_fits ?_
  have hdigits : (Nat.toDigits 10 s.accts.length).length ≤ 2 :=
    Nat.toDigits_length 10 _ 2 (by decide) (Nat.lt_of_le_of_lt h (by decide))
  simp only [decimal, digits, List.length_map, Ipc.respMax]
  omega

theorem authd_inside_iff {s : Ipc.Serving Accounts} (hs : s.service.accts.length ≤ authMax) (m : Ipc.Call Env) :
    Ipc.TurnInside authdHandler s m ↔ m.payload.length < Ipc.reqMax := by
  refine Ipc.turn_fits_iff authdHandler s m ?_
  have hflag : ∀ r : Accounts × Bool, (flagged r).2.Fits Ipc.respMax := fun r => Writer.flag_fits (by decide) r.2
  simp only [Ipc.answerOf, authdHandler]
  split
  · exact Ipc.shortReply_fits _ (by decide)
  split
  · exact countReply_fits hs
  split
  · exact listReply_fits _
  split
  · exact hflag _
  split
  · unfold handleLogin
    split
    · split
      · exact Ipc.shortReply_fits _ (by decide)
      · split
        · exact Ipc.shortReply_fits _ (by decide)
        · exact Ipc.shortReply_fits _ (by decide)
    · exact Ipc.shortReply_fits _ (by decide)
  split
  · exact hflag _
  split
  · exact hflag _
  split
  · exact hflag _
  · exact Ipc.shortReply_fits _ (by decide)

end Siathos.Authd

/-! ## synd -/

namespace Siathos.Synd

open Siathos.Ipc

/-- The sizes of the arrays of the service. -/
structure Sized (s : Contracts) : Prop where
  cts : s.cts.length ≤ syndMax
  nome : ∀ c ∈ s.cts, c.nome.length ≤ 63
  trail : ∀ e ∈ s.trail, e.path.length < Fsd.auditPath

theorem seedLoop_sized (fuel room : Nat) (p : CStr) :
    (seedLoop fuel room p).length ≤ room ∧ ∀ c ∈ seedLoop fuel room p, c.nome.length ≤ 63 := by
  induction fuel generalizing room p with
  | zero => simp [seedLoop]
  | succ fuel ih =>
    unfold seedLoop
    split
    · simp
    next hgo =>
    dsimp only
    split
    · exact ih _ _
    · split
      · exact ih _ _
      next c hentry =>
      obtain ⟨em, rp, -, -, hnome, -⟩ := seedEntry_some hentry
      have hroom : room - 1 + 1 = room := by omega
      rw [List.length_cons, List.forall_mem_cons]
      refine ⟨hroom ▸ Nat.succ_le_succ (ih (room - 1) _).1, ?_, (ih (room - 1) _).2⟩
      rw [hnome, List.length_take]
      omega

theorem auditPush_short {trail : List Fsd.AuditEntry} (h : ∀ e ∈ trail, e.path.length < Fsd.auditPath) (op : UInt8)
    (sender : Nat)
    (path : CStr) : ∀ e ∈ Fsd.auditPush trail op sender path, e.path.length < Fsd.auditPath := by
  have hcut : (cut Fsd.auditPath path).length < Fsd.auditPath := Fsd.cut_lt (by decide) path
  intro e he
  unfold Fsd.auditPush at he
  split at he
  · rcases List.mem_append.mp he with he | he
    · exact h e he
    · exact List.mem_singleton.mp he ▸ hcut
  · rcases List.mem_or_eq_of_mem_set he with he | rfl
    · exact h e he
    · exact hcut

namespace Sized

theorem seed (text : CStr) : Sized (syndStSeed text) :=
  ⟨(seedLoop_sized _ _ _).1, (seedLoop_sized _ _ _).2, by simp [syndStSeed]⟩

variable {s : Contracts}

theorem audited (h : Sized s) (op : Char) (sender : Nat) (path : CStr) : Sized (audited s op sender path) :=
  ⟨h.cts, h.nome, auditPush_short h.trail _ _ _⟩

theorem setConsent (h : Sized s) (i : Nat) (b : Bool) : Sized (setConsent s i b) := by
  refine ⟨?_, fun c hc => ?_, h.trail⟩
  · simpa [Synd.setConsent] using h.cts
  · rcases mem_modify hc with ⟨d, hd, rfl⟩ | ⟨j, -, hj⟩
    · exact h.nome d (List.mem_of_getElem? hd)
    · exact h.nome c (List.mem_of_getElem? hj)

theorem consented (h : Sized s) (op : Char) (b : Bool) (sender : Nat) (req : CStr) :
    Sized (handleConsent s op b sender req).1 := by
  unfold handleConsent
  split
  · exact h
  · exact (h.audited _ _ _).setConsent _ _

theorem handler (h : Sized s) (sender type : Nat) (req : CStr) : Sized (syndHandler () s sender type req).1 := by
  unfold syndHandler
  split
  · exact h
  split
  · exact h.audited _ _ _
  split
  · unfold handleRead
    split
    · exact h
    · exact h.audited _ _ _
  split
  · exact h.consented _ _ _ _
  split
  · exact h.consented _ _ _ _
  split
  · exact h
  · exact h

theorem serveAll {s : Serving Contracts} (h : Sized s.service) (ms : List (Call Unit)) :
    Sized (serveAll syndHandler s ms).service := by
  induction ms generalizing s with
  | nil => exact h
  | cons m ms ih => exact ih (h.handler m.sender m.type _)

end Sized

theorem listLine_extends (o : Out) (c : SyndCt) : Out.Extends o (listLine o c) :=
  ((Out.Extends.pushes _ _).trans (Out.Extends.str _ _ _)).trans (Out.Extends.pushes _ _)

theorem listLine_used {c : SyndCt} (hc : c.nome.length ≤ 63) (o : Out) : (listLine o c).used ≤ o.used + 74 := by
  have hstr := Out.used_str_le respMax (o.pushes (ascii "  ")) c.nome
  have hlead : (ascii "  ").length = 2 := rfl
  rw [Out.used_pushes, hlead] at hstr
  simp only [listLine, Out.used_pushes, List.length_cons, List.length_nil]
  omega

theorem listReply_fits {s : Contracts} (h : Sized s) (filtro : CStr) : (listReply s filtro).Fits respMax := by
  refine Writer.build_fits (fun o => Out.Extends.foldl (fun o c => ?_) _ o) fun b => ?_
  · unfold putContract
    split
    · split
      · exact listLine_extends o c
      · exact Out.Extends.refl o
    · exact Out.Extends.refl o
  · have hturn : ∀ o, ∀ c ∈ s.cts, (putContract filtro o c).used ≤ o.used + 74 := by
      intro o c hc
      unfold putContract
      split
      · split
        · exact listLine_used (h.nome c hc) o
        · omega
      · omega
    have hall : (s.cts.foldl (putContract filtro) ⟨b, 0⟩).used ≤ 0 + s.cts.length * 74 := Out.used_foldl_le hturn ⟨b, 0⟩
    have hcts := h.cts
    simp only [syndMax] at hcts
    simp only [respMax]
    omega

theorem readReply_fits {c : SyndCt} (hc : c.nome.length ≤ 63) : (readReply c).Fits respMax := by
  have hused : ∀ b : Buf, (readLine c ⟨b, 0⟩).used ≤ 75 := by
    intro b
    have hstr := Out.used_str_le respMax ((⟨b, 0⟩ : Out).pushes (ascii "  ")) c.nome
    have hlead : (ascii "  ").length = 2 := rfl
    rw [Out.used_pushes, hlead] at hstr
    simp only [readLine, Out.used_pushes, List.length_cons, List.length_nil] at hstr ⊢
    omega
  have hext : ∀ b : Buf, Out.Extends ⟨b, 0⟩ (readLine c ⟨b, 0⟩) := fun b =>
    ((Out.Extends.pushes _ _).trans (Out.Extends.str _ _ _)).trans (Out.Extends.pushes _ _)
  constructor
  · intro b j hj
    have hlt := hused b
    simp only [respMax] at hj
    exact (Function.update_of_ne (by omega) _ _).trans ((hext b).2 j (by omega))
  · intro b
    have hlt := hused b
    simp only [readReply, respMax]
    omega

theorem auditReply_fits {s : Contracts} (h : Sized s) : (auditReply s).Fits respMax := by
  refine Writer.build_fits (fun o => Out.Extends.foldl (fun o e => ?_) _ o) fun b => Out.used_foldl_lt
    (fun o e he ho => ?_)
    (Nat.zero_lt_succ 4095)
  · unfold putEntry
    split
    · exact ((Out.Extends.pushes _ _).trans (Out.Extends.str _ _ _)).trans (Out.Extends.push _ _)
    · exact Out.Extends.refl o
  · unfold putEntry
    split
    · next hroom =>
      have hpath := h.trail e (List.mem_reverse.mp he)
      have hstr := Out.used_str_le respMax (o.pushes [if e.op = 0 then 0x20 else e.op, 0x20]) e.path
      rw [Out.used_pushes] at hstr
      simp only [List.length_cons, List.length_nil, Fsd.auditPath] at hstr hpath hroom
      rw [Out.used_push]
      omega
    · exact ho

theorem consentReply_fits (s : Contracts) (op : Char) (b : Bool) (sender : Nat) (req : CStr) :
    (handleConsent s op b sender req).2.Fits respMax := by
  unfold handleConsent
  split <;> exact shortReply_fits _ (by decide)

theorem synd_inside_iff {s : Serving Contracts} (hs : Sized s.service) (m : Call Unit) :
    TurnInside syndHandler s m ↔ m.payload.length < reqMax := by
  refine turn_fits_iff syndHandler s m ?_
  simp only [answerOf, syndHandler]
  split
  · exact shortReply_fits _ (by decide)
  split
  · exact listReply_fits hs _
  split
  · unfold handleRead
    split
    · exact shortReply_fits _ (by decide)
    next c hget =>
    refine readReply_fits (hs.nome c ?_)
    obtain ⟨i, -, hi⟩ := Option.bind_eq_some_iff.mp hget
    exact List.mem_of_getElem? hi
  split
  · exact consentReply_fits _ _ _ _ _
  split
  · exact consentReply_fits _ _ _ _ _
  split
  · exact auditReply_fits hs
  · exact shortReply_fits _ (by decide)

end Siathos.Synd

/-! ## kbd -/

namespace Siathos.Device

open Siathos.Ipc

def ipcTypeKbdGet : Nat := 10

/-- `kbd_handler`. The port is as the controller has it at the time of the request. -/
def kbdServed (port : Port) (r : Reader) (_sender type : Nat) (_ : CStr) : Reader × Writer :=
  if type = ipcTypeKbdGet then
    let answer := Odigos.kbdHandler { r with port }
    (answer.2, fun b => (b.write 0 [answer.1.getD 0], 1))
  else (r, fun b => (b.write 0 [0x3F], 1))

theorem kbd_inside_iff (s : Serving Reader) (m : Call Port) : TurnInside kbdServed s m ↔ m.payload.length < reqMax := by
  refine turn_fits_iff kbdServed s m ?_
  have hbyte : ∀ c : UInt8, Writer.Fits respMax fun b => (b.write 0 [c], 1) := by
    intro c
    refine ⟨fun b j hj => Buf.write_after ?_ b, fun _ => (by decide : 1 ≤ respMax)⟩
    simp only [respMax] at hj
    simp only [List.length_singleton]
    omega
  simp only [answerOf, kbdServed]
  split
  · exact hbyte _
  · exact hbyte _

end Siathos.Device

namespace Siathos.Ipc

open Siathos.Authd Siathos.Synd Siathos.Fsd Siathos.Device

/-- A turn stays in its buffers exactly if the message leaves room for the NUL, or a listing of the kernel does. -/
theorem turn_inside_services (req resp : Buf) :
    (∀ (s : Serving Service) (m : Call Around), TurnInside fsdServed s m ↔
      m.payload.length < reqMax ∧ ¬ RunsOn m.env s.resp m.type (svcRequest m.payload)) ∧
    (∀ before m, TurnInside authdHandler (serveAll authdHandler ⟨authdInit, req, resp⟩ before) m ↔
      m.payload.length < reqMax) ∧
    (∀ text before m, TurnInside syndHandler (serveAll syndHandler ⟨syndStSeed text, req, resp⟩ before) m ↔
      m.payload.length < reqMax) ∧
    ∀ (s : Serving Reader) (m : Call Port), TurnInside kbdServed s m ↔ m.payload.length < reqMax := by
  refine ⟨fsd_inside_iff, fun before m => ?_, fun text before m => ?_, kbd_inside_iff⟩
  · have hinv : StoreInv (serveAll authdHandler ⟨authdInit, req, resp⟩ before).service :=
      (storeInv_serveAll (s := ⟨authdInit, req, resp⟩) StoreInv.init before).1
    have hbound := hinv.bound
    rw [idents, List.length_map] at hbound
    exact authd_inside_iff hbound m
  · exact synd_inside_iff (Sized.serveAll (s := ⟨syndStSeed text, req, resp⟩) (Sized.seed text) before) m

/-- Of a message of 512 bytes all are received, and the NUL goes behind the array. -/
theorem request_overflows :
    ¬ ∀ (req resp : Buf) (m : Call Unit), m.payload.length ≤ 4096 →
    TurnInside syndHandler ⟨syndStSeed [], req, resp⟩ m := by
  intro hall
  have hinside := hall (fun _ => 1) (fun _ => 1) ⟨(), 5, ipcTypeSynList, List.replicate 512 0x61⟩
    (Nat.le_trans (Nat.le_of_eq List.length_replicate) (by decide))
  have hkept := hinside.req (fun _ => 1) 512 (Nat.le_refl _)
  revert hkept
  decide +kernel

end Siathos.Ipc
