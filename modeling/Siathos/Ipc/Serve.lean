import Siathos.Lib.Buffer
import Siathos.Lib.Run

/-!
# The loop of a service (`spud_svc_serve`)

One buffer for requests and one for replies serve all clients.
-/

open Lib

namespace Siathos.Ipc

def reqMax : Nat := 512
def respMax : Nat := 4096

/-- A message to a service, and what the handler meets outside of it. -/
structure Call (ε : Type) where
  env : ε
  sender : Nat
  type : Nat
  payload : List UInt8

/-- The state of the service, with the arrays `req` and `resp`. -/
structure Serving (σ : Type) where
  service : σ
  req : Buf
  resp : Buf

/-- A handler reads `req` up to its NUL. -/
abbrev Handler (ε σ : Type) := ε → σ → (sender type : Nat) → CStr → σ × Writer

/-- `spud_ipc_recv`, and the NUL behind what it got. -/
def receive (payload : List UInt8) (req : Buf) : Buf := req.write 0 (payload.take reqMax ++ [0])

/-- The request as the handler reads it. -/
def svcRequest (payload : List UInt8) : CStr := (payload.take reqMax).takeWhile (· != 0)

theorem cstr_receive (payload : List UInt8) (req : Buf) :
    (receive payload req).cstr (reqMax + 1) = svcRequest payload :=
  Buf.cstr_write [] (by rw [List.length_take, List.length_nil]; omega) req

variable {ε σ : Type}

/-- One turn of the loop: the next state and the reply. -/
def serve (handler : Handler ε σ) (s : Serving σ) (m : Call ε) : Serving σ × List UInt8 :=
  let req := receive m.payload s.req
  let answer := handler m.env s.service m.sender m.type (req.cstr (reqMax + 1))
  (⟨answer.1, req, (answer.2 s.resp).1⟩, answer.2.reply s.resp)

def serveAll (handler : Handler ε σ) (s : Serving σ) (ms : List (Call ε)) : Serving σ :=
  ms.foldl (fun s m => (serve handler s m).1) s

/-- The handler, as `serve` calls it. -/
def answerOf (handler : Handler ε σ) (service : σ) (m : Call ε) : σ × Writer :=
  handler m.env service m.sender m.type (svcRequest m.payload)

theorem serve_eq (handler : Handler ε σ) (s : Serving σ) (m : Call ε) :
    (serve handler s m).1.service = (answerOf handler s.service m).1 ∧
      (serve handler s m).2 = (answerOf handler s.service m).2.reply s.resp := by
  simp only [serve, answerOf, cstr_receive, and_self]

end Siathos.Ipc
