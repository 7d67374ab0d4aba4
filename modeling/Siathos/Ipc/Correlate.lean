import Siathos.Ipc.Rpc

/-!
# An rpc returns its own reply

All messages of one kind between a client and a service that are on their way while the client
waits belong to the request that it waits for.
-/

open Lib

namespace Siathos.Ipc

/-- While the client waits for `id`: its next message is of no use, or all that can come from the
service with this type is the answer. -/
def Waits (s : Sys) (c svc type id : Nat) : Prop :=
  Doomed s c svc type ∨
    (∀ m ∈ queueOf s.mailboxes c, m.sender = svc → m.type = type → m.id = id) ∧
    (∀ m ∈ queueOf s.mailboxes svc, m.sender = c → m.type = type → m.id = id) ∧
    (∀ r ∈ s.hand svc, r.sender = c → r.type = type → r.id = id)

def ClientOk (s : Sys) (c : Nat) : Client → Prop
  | .idle => True
  | .found svc _ _ _ => s.serves svc = true ∧ svc ≠ 0
  | .waiting svc type id _ _ =>
    c ≠ 0 ∧ s.serves c = false ∧ svc ≠ 0 ∧ s.serves svc = true ∧ Waits s c svc type id

structure Inv (s : Sys) : Prop where
  registry : Registered (fun p => s.serves p = true) s.svcTable
  clients : ∀ c, ClientOk s c (s.client c)
  correlated : ∀ e ∈ s.log, e.Correlated

theorem inv_boot (serves canIpc : Nat → Bool) : Inv (boot serves canIpc) :=
  ⟨registered_init _, fun _ => trivial, fun _ h => absurd h List.not_mem_nil⟩

theorem ne_of_serves {serves : Nat → Bool} {p q : Nat} (hp : serves p = true) (hq : serves q = false) :
    p ≠ q := by
  rintro rfl
  rw [hp] at hq
  exact Bool.noConfusion hq

theorem ClientOk.move {s t : Sys} {c : Nat} {v : Client} (h : ClientOk s c v)
    (hserves : t.serves = s.serves)
    (hw : ∀ svc type id, c ≠ 0 → s.serves c = false → svc ≠ 0 → s.serves svc = true →
      Waits s c svc type id → Waits t c svc type id) : ClientOk t c v := by
  cases v with
  | idle => trivial
  | found svc type payload outMax =>
    show t.serves svc = true ∧ svc ≠ 0
    rw [hserves]
    exact h
  | waiting svc type id outMax tries =>
    obtain ⟨hc, hcs, hsvc, hss, hwait⟩ := h
    exact ⟨hc, hserves ▸ hcs, hsvc, hserves ▸ hss, hw svc type id hc hcs hsvc hss hwait⟩

theorem clientOk_update {t : Sys} {f : Nat → Client} {c : Nat} {v : Client} (hv : ClientOk t c v)
    (hother : ∀ d, d ≠ c → ClientOk t d (f d)) (d : Nat) :
    ClientOk t d (Function.update f c v d) := by
  by_cases hd : d = c
  · subst hd
    rwa [Function.update_self]
  · rw [Function.update_of_ne hd]
    exact hother d hd

/-! ## What keeps a client waiting -/

theorem Waits.keep {s t : Sys} {c svc type id : Nat} (h : Waits s c svc type id)
    (hclient : queueOf t.mailboxes c = queueOf s.mailboxes c ∨
      ∃ m, queueOf t.mailboxes c = queueOf s.mailboxes c ++ [m] ∧
        (m.sender = svc → m.type = type → ∃ r ∈ s.hand svc, r.sender = c ∧ r.type = type ∧ m.id = r.id))
    (hsvc : ∀ m ∈ queueOf t.mailboxes svc, m.sender = c → m ∈ queueOf s.mailboxes svc)
    (hhand : ∀ r ∈ t.hand svc, r ∈ s.hand svc ∨
      ∃ m ∈ queueOf s.mailboxes svc, r = ⟨m.sender, m.type, m.id⟩) :
    Waits t c svc type id := by
  rcases h with ⟨m, hm, hno⟩ | ⟨hqc, hqs, hh⟩
  · refine Or.inl ⟨m, ?_, hno⟩
    rcases hclient with heq | ⟨n, heq, -⟩
    · rwa [heq]
    · rw [heq, List.head?_append, hm, Option.some_or]
  · refine Or.inr ⟨?_, fun m hm hs => hqs m (hsvc m hm hs) hs, ?_⟩
    · intro m hm hs ht
      rcases hclient with heq | ⟨n, heq, hn⟩
      · exact hqc m (heq ▸ hm) hs ht
      · rw [heq, List.mem_append, List.mem_singleton] at hm
        rcases hm with hm | rfl
        · exact hqc m hm hs ht
        · obtain ⟨r, hr, hrs, hrt, hid⟩ := hn hs ht
          rw [hid]
          exact hh r hr hrs hrt
    · intro r hr hs ht
      rcases hhand r hr with hr | ⟨m, hm, rfl⟩
      · exact hh r hr hs ht
      · exact hqs m hm hs ht

theorem Waits.same {s t : Sys} {c svc type id : Nat} (h : Waits s c svc type id)
    (hmb : t.mailboxes = s.mailboxes) (hhand : ∀ r ∈ t.hand svc, r ∈ s.hand svc) :
    Waits t c svc type id := by
  refine h.keep (Or.inl (by rw [hmb])) (fun m hm _ => hmb ▸ hm) fun r hr => Or.inl (hhand r hr)

theorem Waits.send {s t : Sys} {c svc type id p q ty i : Nat} {data : List UInt8}
    (h : Waits s c svc type id) (hc : c ≠ 0) (hsvc : svc ≠ 0) (hcp : p ≠ c) (hcq : q ≠ c)
    (hsend : doSend s.mailboxes (s.canIpc p) p q ty data i = some t.mailboxes)
    (hhand : t.hand = s.hand) : Waits t c svc type id := by
  refine h.keep (Or.inl ((doSend_queueOf hsend hc).1 (Ne.symm hcq))) ?_
    fun r hr => Or.inl (hhand ▸ hr)
  intro m hm hs
  by_cases hq : svc = q
  · subst hq
    rcases (doSend_queueOf hsend hsvc).2 with heq | hzero | heq
    · exact heq ▸ hm
    · exact absurd hzero hsvc
    · rw [heq, List.mem_append, List.mem_singleton] at hm
      rcases hm with hm | rfl
      · exact hm
      · exact absurd hs hcp
  · rwa [(doSend_queueOf hsend hsvc).1 hq] at hm

theorem Waits.receive {s t : Sys} {c svc type id p : Nat} {canIpc : Bool} (h : Waits s c svc type id)
    (hc : c ≠ 0) (hsvc : svc ≠ 0) (hp : p ≠ 0) (hcp : c ≠ p) (hsp : svc ≠ p)
    (hrecv : t.mailboxes = (ipcTryReceive s.mailboxes canIpc p).1) (hhand : t.hand = s.hand) :
    Waits t c svc type id := by
  have hother := (ipcTryReceive_queueOf s.mailboxes canIpc hp).1
  rw [← hrecv] at hother
  refine h.keep (Or.inl (hother c hc hcp)) (fun m hm _ => ?_) fun r hr => Or.inl (hhand ▸ hr)
  rwa [hother svc hsvc hsp] at hm

/-! ## The steps of a client -/

theorem Inv.rpcFind {s : Sys} (h : Inv s) (c : Nat) (name : List UInt8) (type : Nat)
    (payload : List UInt8) (outMax : Nat) : Inv (rpcFind s c name type payload outMax) := by
  obtain ⟨htable, hpid⟩ : Registered (fun p => s.serves p = true) (svcQuery s.alive s.svcTable name).1 ∧
      ∀ pid ∈ (svcQuery s.alive s.svcTable name).2, s.serves pid = true :=
    svcQuery_registered h.registry
  have hkeep : ∀ d, ClientOk { s with svcTable := (svcQuery s.alive s.svcTable name).1 } d (s.client d) :=
    fun d => (h.clients d).move rfl fun _ _ _ _ _ _ _ hw => hw.same rfl fun _ => id
  unfold Ipc.rpcFind
  simp only
  split
  · exact ⟨htable, hkeep, h.correlated⟩
  rename_i svc hsvc
  split
  · exact ⟨htable, hkeep, h.correlated⟩
  rename_i hne
  refine ⟨htable, clientOk_update ⟨hpid svc hsvc, hne⟩ fun d _ => ?_, h.correlated⟩
  exact (h.clients d).move rfl fun _ _ _ _ _ _ _ hw => hw.same rfl fun _ => id

theorem waits_of_send {s t : Sys} {c svc type : Nat} {payload : List UInt8} (hc : c ≠ 0)
    (hsvc : svc ≠ 0) (hne : svc ≠ c) (hok : NoneOutstanding s c svc type ∨ Doomed s c svc type)
    (hsend : doSend s.mailboxes (s.canIpc c) c svc type payload s.nextId = some t.mailboxes)
    (hhand : t.hand = s.hand) : Waits t c svc type s.nextId := by
  have hclient := (doSend_queueOf hsend hc).1 (Ne.symm hne)
  rcases hok with ⟨hqc, hqs, hh⟩ | ⟨m, hm, hno⟩
  · refine Or.inr ⟨?_, ?_, ?_⟩
    · intro m hm hs ht
      exact absurd ht (hqc m (hclient ▸ hm) hs)
    · intro m hm hs ht
      rcases (doSend_queueOf hsend hsvc).2 with heq | hzero | heq
      · exact absurd ht (hqs m (heq ▸ hm) hs)
      · exact absurd hzero hsvc
      · rw [heq, List.mem_append, List.mem_singleton] at hm
        rcases hm with hm | rfl
        · exact absurd ht (hqs m hm hs)
        · rfl
    · intro r hr hs ht
      exact absurd ht (hh r (hhand ▸ hr) hs)
  · exact Or.inl ⟨m, hclient ▸ hm, hno⟩

theorem Inv.rpcSend {s : Sys} (h : Inv s) {c : Nat} (ha : Allowed s (.send c))
    (hok : Orderly s (.send c)) : Inv (rpcSend s c) := by
  obtain ⟨hc, -, hcs⟩ := ha
  unfold Ipc.rpcSend
  split
  case h_2 => exact h
  rename_i svc type payload outMax hcl
  obtain ⟨hsvc, hsvc0⟩ : s.serves svc = true ∧ svc ≠ 0 := by
    have := h.clients c
    rwa [hcl] at this
  have hne : svc ≠ c := ne_of_serves hsvc hcs
  simp only [Orderly, hcl] at hok
  split
  · refine ⟨h.registry, clientOk_update trivial fun d _ => ?_, h.correlated⟩
    exact (h.clients d).move rfl fun _ _ _ _ _ _ _ hw => hw.same rfl fun _ => id
  rename_i mailboxes hsend
  refine ⟨h.registry, clientOk_update ?_ fun d hdc => ?_, h.correlated⟩
  · exact ⟨hc, hcs, hsvc0, hsvc, waits_of_send hc hsvc0 hne hok hsend rfl⟩
  · refine (h.clients d).move rfl fun svc' type' id hd hds hs0 hss hw => ?_
    exact hw.send hd hs0 (Ne.symm hdc) (ne_of_serves hsvc hds) hsend rfl

theorem Inv.others_receive {s t : Sys} (h : Inv s) {c : Nat} (hc : c ≠ 0) (hcs : s.serves c = false)
    (hserves : t.serves = s.serves) (hhand : t.hand = s.hand)
    (hrecv : t.mailboxes = (ipcTryReceive s.mailboxes (s.canIpc c) c).1) {d : Nat} (hdc : d ≠ c) :
    ClientOk t d (s.client d) :=
  (h.clients d).move hserves fun _ _ _ hd _ hs0 hss hw =>
    hw.receive hd hs0 hc hdc (ne_of_serves hss hcs) hrecv hhand

theorem Inv.rpcRecv {s : Sys} (h : Inv s) {c : Nat} (ha : Allowed s (.recv c)) :
    Inv (rpcRecv s c) := by
  obtain ⟨hc, -, hcs⟩ := ha
  unfold Ipc.rpcRecv
  split
  case h_2 => exact h
  rename_i svc type id outMax tries hcl
  obtain ⟨-, -, hsvc0, hsvc, hw⟩ : ClientOk s c (.waiting svc type id outMax tries) := hcl ▸ h.clients c
  obtain ⟨hother, hown⟩ := ipcTryReceive_queueOf s.mailboxes (s.canIpc c) hc
  cases hgot : (ipcTryReceive s.mailboxes (s.canIpc c) c).2 with
  | none =>
    simp only [hgot] at hown ⊢
    refine ⟨h.registry, clientOk_update ?_ fun d hdc => ?_, h.correlated⟩
    case refine_2 => refine h.others_receive hc hcs ?_ ?_ ?_ hdc <;> rfl
    split
    · refine ⟨hc, hcs, hsvc0, hsvc, hw.keep (Or.inl hown) (fun m hm _ => ?_) fun r => Or.inl⟩
      rwa [hother svc hsvc0 (ne_of_serves hsvc hcs)] at hm
    · trivial
  | some m =>
    simp only [hgot] at hown ⊢
    have hclients : ∀ (log : List Event) d, ClientOk { s with
        mailboxes := (ipcTryReceive s.mailboxes (s.canIpc c) c).1
        client := Function.update s.client c .idle
        log } d (Function.update s.client c .idle d) := by
      intro log
      refine clientOk_update trivial fun d hdc => ?_
      refine h.others_receive hc hcs ?_ ?_ ?_ hdc <;> rfl
    split
    · exact ⟨h.registry, hclients s.log, h.correlated⟩
    rename_i hmatch
    obtain ⟨htype, hsender⟩ := not_or.mp hmatch
    have htype := not_not.mp htype
    have hsender := not_not.mp hsender
    refine ⟨h.registry, hclients _, List.forall_mem_cons.mpr ⟨⟨hsender, htype, ?_, outMax - 1, rfl⟩,
      h.correlated⟩⟩
    rcases hw with ⟨n, hn, hno⟩ | ⟨hqc, -, -⟩
    · rw [hown, List.head?_cons] at hn
      obtain rfl := Option.some.inj hn
      exact absurd ⟨hsender, htype⟩ hno
    · exact hqc m (by rw [hown]; exact List.mem_cons_self) hsender htype

/-! ## SYS_READ -/

theorem Inv.keyResult {s : Sys} (h : Inv s) (c : Nat) (source : Option (Nat × Message)) (ch : UInt8)
    (bufOk : Bool) (hok : ch ≠ 0 → bufOk = true → (Event.keyChar c source ch).Correlated) :
    Inv (keyResult s c source ch bufOk) := by
  unfold Ipc.keyResult
  split
  · exact h
  rename_i hch
  obtain ⟨hne, hbuf⟩ := not_or.mp hch
  refine ⟨h.registry, fun d => ?_, List.forall_mem_cons.mpr ⟨hok hne (by simpa using hbuf),
    h.correlated⟩⟩
  exact (h.clients d).move rfl fun _ _ _ _ _ _ _ hw => hw.same rfl fun _ => id

theorem head?_of_headD {l : List UInt8} (h : (l.take 8).headD 0 ≠ 0) :
    l.head? = some ((l.take 8).headD 0) := by
  cases l with
  | nil => exact absurd rfl h
  | cons x l => rfl

theorem Inv.sysRead {s : Sys} (h : Inv s) {c : Nat} {port : Option UInt8} {bufOk : Bool}
    (ha : Allowed s (.read c port bufOk)) (hok : Orderly s (.read c port bufOk)) :
    Inv (sysRead s c port bufOk) := by
  obtain ⟨hc, -, hcs, hidle⟩ := ha
  obtain ⟨htable, hpid⟩ : Registered (fun p => s.serves p = true)
      (svcQuery s.alive s.svcTable kbdName).1 ∧
      ∀ pid ∈ (svcQuery s.alive s.svcTable kbdName).2, s.serves pid = true :=
    svcQuery_registered h.registry
  have hsame : Inv { s with svcTable := (svcQuery s.alive s.svcTable kbdName).1 } :=
    ⟨htable, fun d => (h.clients d).move rfl fun _ _ _ _ _ _ _ hw => hw.same rfl fun _ => id,
      h.correlated⟩
  have hports : port.getD 0 = 0 ∨ bufOk = false →
      Inv (Ipc.keyResult { s with svcTable := (svcQuery s.alive s.svcTable kbdName).1 } c none
        (port.getD 0) bufOk) := by
    intro hno
    refine hsame.keyResult c none _ bufOk fun hch hbuf => ?_
    rcases hno with hno | hno
    · exact absurd hno hch
    · rw [hbuf] at hno
      exact Bool.noConfusion hno
  unfold Ipc.sysRead
  simp only [Orderly] at hok
  simp only
  split
  case h_1 hq =>
    rw [hq] at hok
    exact hports hok
  rename_i k hq
  split
  case isTrue hzero =>
    subst hzero
    rw [hq] at hok
    exact hports hok
  rename_i hk
  have hfilter : (svcQuery s.alive s.svcTable kbdName).2.filter (· ≠ 0) = some k := by
    simp [hq, Option.filter, hk]
  rw [hfilter] at hok
  have hkc : k ≠ c := ne_of_serves (hpid k hq) hcs
  split
  · exact hsame
  rename_i mailboxes hsend
  have hcan : s.canIpc c = true ∧ (mailboxFor s.mailboxes k).isSome = true := by
    obtain ⟨_, hcan, hsend⟩ := Option.bind_eq_some_iff.mp hsend
    obtain ⟨mid, hmid, -⟩ := Option.bind_eq_some_iff.mp hsend
    exact ⟨by simpa [guard] using hcan, by rw [hmid]; rfl⟩
  -- The request goes to 'kbd', and the message comes from the caller's own mailbox.
  have hsent : ∀ d, d ≠ c → ClientOk { s with mailboxes } d (s.client d) := by
    intro d hdc
    refine (h.clients d).move rfl fun svc type id hd hds hs0 hss hw => ?_
    exact hw.send hd hs0 (Ne.symm hdc) (ne_of_serves (hpid k hq) hds) hsend rfl
  have hclient : queueOf mailboxes c = queueOf s.mailboxes c :=
    (doSend_queueOf hsend hc).1 (Ne.symm hkc)
  obtain ⟨hother, hown⟩ := ipcTryReceive_queueOf mailboxes (s.canIpc c) hc
  have hclients : ∀ (log : List Event) d, ClientOk { s with
      svcTable := (svcQuery s.alive s.svcTable kbdName).1
      mailboxes := (ipcTryReceive mailboxes (s.canIpc c) c).1
      nextId := s.nextId + 1
      log } d (s.client d) := by
    intro log d
    by_cases hdc : d = c
    · subst hdc
      rw [hidle]
      trivial
    · refine (hsent d hdc).move rfl fun svc type id hd hds hs0 hss hw => ?_
      exact hw.receive hd hs0 hc hdc (ne_of_serves hss hcs) rfl rfl
  cases hgot : (ipcTryReceive mailboxes (s.canIpc c) c).2 with
  | none => exact ⟨htable, hclients s.log, h.correlated⟩
  | some m =>
    simp only [hgot] at hown ⊢
    have hfirst : m.sender = k ∧ m.type = ipcTypeKbdGet := by
      refine hok hcan.1 hcan.2 m ?_
      rw [← hclient, hown]
      rfl
    have hpopped : (Event.keyPopped c k m).Correlated := hfirst
    refine Inv.keyResult ⟨htable, hclients _, List.forall_mem_cons.mpr ⟨hpopped, h.correlated⟩⟩
      _ _ _ _ ?_
    intro hch _
    exact ⟨k, m, rfl, hfirst.1, hfirst.2, head?_of_headD hch⟩

/-! ## The steps of a service -/

theorem Inv.svcTake {s : Sys} (h : Inv s) {p : Nat} (ha : Allowed s (.take p)) :
    Inv (svcTake s p) := by
  obtain ⟨hp, -, hps, -⟩ := ha
  obtain ⟨hother, hown⟩ := ipcTryReceive_queueOf s.mailboxes (s.canIpc p) hp
  refine ⟨h.registry, fun d => ?_, h.correlated⟩
  refine (h.clients d).move rfl fun svc type id hd hds hs0 hss hw => ?_
  refine hw.keep (Or.inl (hother d hd (Ne.symm (ne_of_serves hps hds)))) (fun m hm _ => ?_) fun r hr => ?_
  · by_cases hsp : svc = p
    · subst hsp
      simp only [Ipc.svcTake] at hm
      cases hgot : (ipcTryReceive s.mailboxes (s.canIpc svc) svc).2 with
      | none =>
        simp only [hgot] at hown
        rwa [← hown]
      | some first =>
        simp only [hgot] at hown
        rw [hown]
        exact List.mem_cons_of_mem _ hm
    · exact hother svc hs0 hsp ▸ hm
  · by_cases hsp : svc = p
    · subst hsp
      simp only [Ipc.svcTake, Function.update_self, Option.mem_def, Option.map_eq_some_iff] at hr
      obtain ⟨m, hgot, rfl⟩ := hr
      simp only [hgot] at hown
      exact Or.inr ⟨m, by rw [hown]; exact List.mem_cons_self, rfl⟩
    · simp only [Ipc.svcTake, Function.update_of_ne hsp] at hr
      exact Or.inl hr

theorem Inv.dropHand {s : Sys} (h : Inv s) (p : Nat) :
    Inv { s with hand := Function.update s.hand p none } := by
  refine ⟨h.registry, fun d => ?_, h.correlated⟩
  refine (h.clients d).move rfl fun svc type id _ _ _ _ hw => hw.same rfl fun r hr => ?_
  by_cases hsp : svc = p
  · subst hsp
    simp at hr
  · simpa [Function.update_of_ne hsp] using hr

theorem Inv.svcAnswer {s : Sys} (h : Inv s) {p : Nat} {resp : Option (List UInt8)}
    (ha : Allowed s (.answer p resp)) : Inv (svcAnswer s p resp) := by
  obtain ⟨hp, -, hps⟩ := ha
  unfold Ipc.svcAnswer
  split
  case h_2 => exact h.dropHand p
  rename_i r resp hr
  simp only
  split
  · exact h.dropHand p
  rename_i mailboxes hsend
  refine ⟨h.registry, fun d => ?_, h.correlated⟩
  refine (h.clients d).move rfl fun svc type id hd hds hs0 hss hw => ?_
  refine hw.keep ?_ (fun m hm hs => ?_) fun r' hr' => Or.inl ?_
  · by_cases hto : d = r.sender
    · subst hto
      rcases (doSend_queueOf hsend hd).2 with heq | hzero | heq
      · exact Or.inl heq
      · exact absurd hzero hd
      · refine Or.inr ⟨_, heq, ?_⟩
        rintro rfl rfl
        exact ⟨r, hr, rfl, rfl, rfl⟩
    · exact Or.inl ((doSend_queueOf hsend hd).1 hto)
  · by_cases hto : svc = r.sender
    · rcases hto with rfl
      rcases (doSend_queueOf hsend hs0).2 with heq | hzero | heq
      · exact heq ▸ hm
      · exact absurd hzero hs0
      · rw [heq, List.mem_append, List.mem_singleton] at hm
        rcases hm with hm | rfl
        · exact hm
        · exact absurd hs (ne_of_serves hps hds)
    · exact (doSend_queueOf hsend hs0).1 hto ▸ hm
  · by_cases hsp : svc = p
    · subst hsp
      simp at hr'
    · simpa [Function.update_of_ne hsp] using hr'

/-! ## Runs -/

theorem Inv.step {s t : Sys} {o : Op} (h : Inv s) (hstep : Guarded Orderly Step s o t) : Inv t := by
  obtain ⟨hok, ha, rfl⟩ := hstep
  have hkeep : ∀ {s' : Sys}, s'.mailboxes = s.mailboxes → s'.hand = s.hand → s'.serves = s.serves →
      ∀ d, ClientOk s' d (s.client d) := by
    intro s' hmb hhand hserves d
    exact (h.clients d).move hserves fun _ _ _ _ _ _ _ hw => hw.same hmb fun r hr => hhand ▸ hr
  cases o with
  | spawn p => exact ⟨h.registry, hkeep rfl rfl rfl, h.correlated⟩
  | exit p =>
    have hdrop := h.dropHand p
    exact ⟨h.registry, clientOk_update trivial fun d _ => hdrop.clients d, h.correlated⟩
  | register p name =>
    refine ⟨?_, hkeep rfl rfl rfl, h.correlated⟩
    cases hreg : svcRegister s.svcTable name p with
    | none => simpa [apply, hreg] using h.registry
    | some t' => simpa [apply, hreg] using svcRegister_registered ha.2.2 hreg h.registry
  | find c name type payload outMax => exact h.rpcFind c name type payload outMax
  | send c => exact h.rpcSend ha hok
  | recv c => exact h.rpcRecv ha
  | read c port bufOk => exact h.sysRead ha hok
  | take p => exact h.svcTake ha
  | answer p resp => exact h.svcAnswer ha

instance (s : Sys) (c svc type : Nat) : Decidable (NoneOutstanding s c svc type) :=
  inferInstanceAs (Decidable (_ ∧ _ ∧ _))

instance (s : Sys) (c svc type : Nat) : Decidable (Doomed s c svc type) :=
  decidable_of_iff (∃ m ∈ (queueOf s.mailboxes c).head?, ¬ (m.sender = svc ∧ m.type = type)) Iff.rfl

instance (s : Sys) : (o : Op) → Decidable (Orderly s o)
  | .send c => by dsimp only [Orderly]; split <;> infer_instance
  | .read c port bufOk => by dsimp only [Orderly]; split <;> infer_instance
  | .spawn _ | .exit _ | .register .. | .find .. | .recv _ | .take _ | .answer .. => isTrue trivial

/-- In every orderly run, an rpc returns the reply to its own request, and keys come from 'kbd'. -/
theorem rpc_correlated (serves canIpc : Nat → Bool) {ops : List Op} {s : Sys}
    (h : Run (Guarded Orderly Step) (boot serves canIpc) ops s) : ∀ e ∈ s.log, e.Correlated :=
  (h.invariant (fun _ _ _ hi hstep => hi.step hstep) (inv_boot serves canIpc)).correlated

/-- Process 1 is a client, 2 is 'fsd' and 3 is 'kbd'. -/
def startServices : List Op :=
  [.spawn 1, .spawn 2, .spawn 3, .register 2 [0x66, 0x73, 0x64], .register 3 kbdName]

def askFsd : List Op := [.find 1 [0x66, 0x73, 0x64] 2 [0x2F] 64, .send 1]

def fsdAnswers : List Op := [.take 2, .answer 2 (some [0x41])]

def kbdAnswers : List Op := [.take 3, .answer 3 (some [0x62])]

/-- An rpc to 'fsd', and two polls of the keyboard. -/
def oneRpc : List Op :=
  askFsd ++ fsdAnswers ++ [.recv 1, .read 1 none true] ++ kbdAnswers ++ [.read 1 none true]

theorem rpc_correlated_once :
    ((startServices ++ oneRpc).foldl apply
      (boot (fun p => p = 2 ∨ p = 3) fun _ => true)).log.length = 3 ∧
    ∀ e ∈ ((startServices ++ oneRpc).foldl apply
      (boot (fun p => p = 2 ∨ p = 3) fun _ => true)).log, e.Correlated :=
  ⟨by decide +kernel,
    rpc_correlated (fun p => p = 2 ∨ p = 3) (fun _ => true) (Run.of_admits_guarded (by decide +kernel))⟩

/-- The key that a poll asked for makes the first rpc fail, and the second one gets its answer. -/
def staleReply : List Op :=
  [.read 1 none true] ++ kbdAnswers ++ askFsd ++ [.recv 1] ++ fsdAnswers ++ askFsd ++ [.recv 1]

theorem rpc_stale_reply :
    ¬ ∀ (serves canIpc : Nat → Bool) (ops : List Op) (s : Sys),
      Run Step (boot serves canIpc) ops s → ∀ e ∈ s.log, e.Correlated := by
  intro h
  have hall := h (fun p => p = 2 ∨ p = 3) (fun _ => true) (startServices ++ staleReply) _
    (Run.of_admits (by decide +kernel))
  have hlog : ((startServices ++ staleReply).foldl apply
      (boot (fun p => p = 2 ∨ p = 3) fun _ => true)).log =
      [.rpcValue 1 2 2 2 ⟨2, 1, 2, [0x41], 1⟩ [0x41]] := by decide +kernel
  rw [hlog] at hall
  have hid := (hall _ (List.mem_singleton_self _)).2.2.1
  exact absurd hid (by decide)

end Siathos.Ipc
