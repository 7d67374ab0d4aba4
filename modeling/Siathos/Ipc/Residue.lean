import Siathos.Authd.Service
import Siathos.Fsd.Replies
import Siathos.Synd.Service

/-!
# What a reply shows of earlier requests

The services answer all clients out of one buffer. A reply is fresh where it depends on nothing that was
left there: only the state of the service and the request count.
-/

open Lib

namespace Siathos.Ipc

variable {ε σ : Type}

/-- Whatever the arrays held and whatever requests came before, one state of the service has one reply to the
request. -/
def Fresh (handler : Handler ε σ) (service : σ) (m : Call ε) : Prop :=
  ∀ (s s' : Serving σ) (ms ms' : List (Call ε)),
    (serveAll handler s ms).service = service → (serveAll handler s' ms').service = service →
    (serve handler (serveAll handler s ms) m).2 = (serve handler (serveAll handler s' ms') m).2

theorem fresh_iff (handler : Handler ε σ) (service : σ) (m : Call ε) :
    Fresh handler service m ↔ (answerOf handler service m).2.Clean := by
  constructor
  · intro h b b'
    have hsame := h ⟨service, b, b⟩ ⟨service, b', b'⟩ [] [] rfl rfl
    rwa [(serve_eq ..).2, (serve_eq ..).2] at hsame
  · intro h s s' ms ms' hs hs'
    rw [(serve_eq ..).2, (serve_eq ..).2, hs, hs']
    exact h _ _

/-! ## The account service -/

section

open Siathos.Authd

theorem putLine_steady (line : CStr) : Out.Steady (putLine · line) :=
  (Out.Steady.pushes line).room fun used => used + line.length < respMax

theorem authdHandler_clean (env : Env) (s : Accounts) (sender type : Nat) (req : CStr) :
    (authdHandler env s sender type req).2.Clean := by
  have hlist : (listReply s).Clean := by
    unfold listReply
    split
    · exact Writer.ncpy_clean (by decide)
    · exact Writer.build_clean (Out.Steady.foldl putLine_steady _)
  have hlogin : ∀ f, (handleLogin env s f).2.Clean := by
    intro f
    unfold handleLogin
    split
    · split
      · exact Writer.ncpy_clean (by decide)
      · split
        · exact Writer.ncpy_clean (by simp [cut, tokenHex, respMax])
        · exact Writer.ncpy_clean (by decide)
    · exact Writer.ncpy_clean (by decide)
  unfold authdHandler
  dsimp only
  split
  · exact Writer.ncpy_clean (by decide)
  split
  · exact (Writer.copied_writes _).clean
  split
  · exact hlist
  split
  · exact Writer.flag_clean _
  split
  · exact hlogin _
  split
  · exact Writer.flag_clean _
  split
  · exact Writer.flag_clean _
  split
  · exact Writer.flag_clean _
  · exact Writer.ncpy_clean (by decide)

end

/-! ## The contract service -/

section

open Siathos.Synd

/-- What `IPC_TYPE_SYN_READ` writes. -/
def readText (c : SyndCt) : List UInt8 :=
  ascii "  " ++ c.nome.take (respMax - 3) ++
    [0x20, mark c.leitura 'r', mark c.escrita 'w', 0x20, mark c.execucao 'x', mark c.voluntario 'v',
      mark c.revogavel 'g', 0x20, mark c.ativo 'a', digit c.consentido]

theorem readReply_eq (c : SyndCt) (b : Buf) : (readReply c).reply b = readText c ++ [b (readText c).length] := by
  have htext : ∀ o : Out, o.text = [] → (readLine c o).text = readText c := by
    intro o ho
    have hused : (o.pushes (ascii "  ")).used = 2 := by
      rw [← Out.length_text, Out.text_pushes, ho]
      rfl
    rw [readLine, Out.text_pushes, Out.text_str, Out.text_pushes, hused, ho]
    rfl
  have hextends : Out.Extends ⟨b, 0⟩ (readLine c ⟨b, 0⟩) :=
    ((Out.Extends.pushes _ _).trans (Out.Extends.str _ _ _)).trans (Out.Extends.pushes _ _)
  have hreply : (readReply c).reply b = (readLine c ⟨b, 0⟩).buf.bytes ((readLine c ⟨b, 0⟩).used + 1) :=
    Buf.bytes_congr fun _ hi => Function.update_of_ne (Nat.ne_of_lt hi) _ _
  rw [hreply, Buf.bytes_succ, hextends.2 _ (Nat.le_refl _)]
  have hfull := htext ⟨b, 0⟩ rfl
  rw [← hfull, Out.length_text]
  rfl

theorem readReply_unclean (c : SyndCt) : ¬ (readReply c).Clean := by
  intro h
  have hsame := h (fun _ => 0) fun _ => 1
  rw [readReply_eq, readReply_eq] at hsame
  exact absurd (List.append_cancel_left hsame) (by decide)

theorem listReply_clean (s : Contracts) (filtro : CStr) : (listReply s filtro).Clean := by
  refine Writer.build_clean (Out.Steady.foldl (fun c => ?_) _)
  unfold putContract
  have hline : Out.Steady (listLine · c) :=
    ((Out.Steady.pushes _).comp (Out.Steady.str _ _)).comp (Out.Steady.pushes _)
  refine Out.Steady.room (f := fun o => if matching filtro c then listLine o c else o) ?_ fun used => used + 1 < respMax
  split
  · exact hline
  · exact fun _ _ h => h

theorem auditReply_clean (s : Contracts) : (auditReply s).Clean := by
  refine Writer.build_clean (Out.Steady.foldl (fun e => ?_) _)
  exact (((Out.Steady.pushes _).comp (Out.Steady.str _ _)).comp (Out.Steady.pushes [0x0A])).room
    fun used => used + 2 + Fsd.auditPath < respMax

/-- The request reads a contract that the service has. -/
def ReadsContract (s : Contracts) (m : Call Unit) : Prop :=
  m.type = ipcTypeSynRead ∧ (syndGet s (svcRequest m.payload)).isSome = true

theorem syndHandler_clean_iff (s : Contracts) (m : Call Unit) :
    (answerOf syndHandler s m).2.Clean ↔ ¬ ReadsContract s m := by
  unfold answerOf syndHandler ReadsContract
  by_cases hread : m.type = ipcTypeSynRead
  · simp only [hread, ipcTypeSynRead, ipcTypePing, ipcTypeSynList, Nat.reduceEqDiff, if_false, if_true, true_and,
      handleRead]
    cases syndGet s (svcRequest m.payload) with
    | none => simpa using Writer.ncpy_clean (by decide)
    | some c => simpa using readReply_unclean c
  · simp only [hread, if_false, false_and, not_false_iff, iff_true]
    split
    · exact Writer.ncpy_clean (by decide)
    split
    · exact listReply_clean _ _
    split
    · unfold handleConsent
      split <;> exact Writer.ncpy_clean (by decide)
    split
    · unfold handleConsent
      split <;> exact Writer.ncpy_clean (by decide)
    split
    · exact auditReply_clean _
    · exact Writer.ncpy_clean (by decide)

end

/-! ## All three -/

open Siathos.Authd (Accounts authdHandler)
open Siathos.Fsd (Around Service fsdServed FullListing)
open Siathos.Synd (Contracts syndHandler)

/-- Replies are fresh, but for a contract that 'synd' reads out and a listing that fills the reply of 'fsd'. -/
theorem svc_reply_fresh (accounts : Accounts) (toAuthd : Call Authd.Env) (files : Service) (toFsd : Call Around)
    (contracts : Contracts) (toSynd : Call Unit) :
    Fresh authdHandler accounts toAuthd ∧
    (Fresh fsdServed files toFsd ↔ ¬ FullListing toFsd.env toFsd.type (svcRequest toFsd.payload)) ∧
    (Fresh syndHandler contracts toSynd ↔ ¬ ReadsContract contracts toSynd) := by
  refine ⟨?_, ?_, ?_⟩
  · rw [fresh_iff]
    exact authdHandler_clean _ _ _ _ _
  · rw [fresh_iff]
    exact Fsd.fsdWriter_clean_iff _ _ _ _ _
  · rw [fresh_iff]
    exact syndHandler_clean_iff contracts toSynd

open Siathos.Synd

def pactoA : SyndCt := ⟨ascii "/idios", ascii "a.pacto", true, false, false, true, true, true, false⟩

def zeroed : Serving Contracts := ⟨⟨[pactoA], []⟩, fun _ => 0, fun _ => 0⟩

def looked : Call Unit := ⟨(), 7, ipcTypeSynList, ascii "segredo-do-cliente-sete"⟩

def afterAudit : Serving Contracts := serveAll syndHandler zeroed [looked, ⟨(), 8, ipcTypeSynAudit, []⟩]

def afterPing : Serving Contracts := serveAll syndHandler zeroed [looked, ⟨(), 8, ipcTypePing, []⟩]

def readOut : Call Unit := ⟨(), 9, ipcTypeSynRead, ascii "/idios"⟩

/-- The last byte of the reply is one of an earlier reply. -/
theorem synd_reply_residue :
    afterAudit.service = afterPing.service ∧
    (serve syndHandler afterAudit readOut).2 = readText pactoA ++ ascii "e" ∧
    (serve syndHandler afterPing readOut).2 ≠ (serve syndHandler afterAudit readOut).2 := by
  decide +kernel

end Siathos.Ipc
