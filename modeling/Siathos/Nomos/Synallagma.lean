import Siathos.Lib.CStr

/-!
# Contracts and consent (`synallagma.c`)
-/

open Lib

namespace Siathos.Nomos

def maxContracts : Nat := 32

/-- `contract_t`. -/
structure Contract where
  nome : CStr
  caminho : CStr
  leitura : Bool
  escrita : Bool
  execucao : Bool
  voluntario : Bool
  revogavel : Bool
  ativo : Bool
  capsReq : BitVec 64
  deriving DecidableEq, Repr

/-- `contracts[0..contract_count)` and `consented`. -/
structure Synallagma where
  contracts : List Contract
  consented : List Bool
  deriving DecidableEq, Repr

def synallagmaInit : Synallagma := ⟨[], List.replicate maxContracts false⟩

def consentGrant (s : Synallagma) (idx : Nat) : Synallagma :=
  { s with consented := s.consented.set idx true }

/-- The loop of `SYS_SESSION_LOGIN` over the active contracts. -/
def consentAll (s : Synallagma) : Synallagma :=
  (List.range s.contracts.length).foldl
    (fun s i => if (s.contracts[i]?).any (·.ativo) then consentGrant s i else s) s

/-- The path is the protected folder or lies below it. -/
def Contract.guards (c : Contract) (path : CStr) : Bool :=
  c.ativo && !c.caminho.isEmpty && c.caminho.isPrefixOf path &&
    ((path.drop c.caminho.length).head?.all (· == slash) || c.caminho.getLast? == some slash)

/-- `synallagma_contract_for`: the first of the longest protected paths. -/
def synallagmaContractFor (s : Synallagma) (path : CStr) : Option Contract :=
  s.contracts.foldl
    (fun best c =>
      if c.guards path && decide (c.caminho.length > (best.map (·.caminho.length)).getD 0) then some c
      else best)
    none

def synallagmaConsented (s : Synallagma) (caminho : CStr) : Bool :=
  match s.contracts.findIdx? (fun c => c.ativo && decide (c.caminho = caminho)) with
  | some i => s.consented.getD i false
  | none => true

/-- The name as `%s` prints it. A name of 64 bytes has no NUL, and the path follows it in the record. -/
def Contract.shown (c : Contract) : CStr :=
  if c.nome.isEmpty then ascii "(sem nome)" else if c.nome.length < 64 then c.nome else c.nome ++ c.caminho

/-- One line of `SYS_CONTRACT_LIST`, cut to the buffer of `FS_NAME_MAX+72` bytes. -/
def contractLine (c : Contract) : CStr :=
  let bit (b : Bool) := ascii (if b then "1" else "0")
  cut 328 (ascii "  - " ++ c.shown ++ ascii " em " ++ c.caminho ++ ascii " (r=" ++ bit c.leitura ++ ascii " w=" ++
    bit c.escrita ++ ascii " x=" ++ bit c.execucao ++ ascii ")\n")

/-- The loop of `SYS_CONTRACT_LIST`: it ends at the first line that does not fit. -/
def contractText (bsz : Nat) (used : CStr) : List Contract → CStr
  | [] => used
  | c :: cs =>
    if !c.ativo then contractText bsz used cs
    else if used.length + (contractLine c).length + 1 ≥ bsz then used
    else contractText bsz (used ++ contractLine c) cs

end Siathos.Nomos
