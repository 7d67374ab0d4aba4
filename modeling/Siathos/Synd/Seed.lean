import Siathos.Nomos.Scan
import Siathos.Synd.Service

/-!
# The seed of 'synd' (`synd_st_seed`)

The service reads the contracts back from the text of `SYS_CONTRACT_LIST`. A name ends at the first " em "
behind it and a path at the first " (r=".
-/

open Lib Siathos.Nomos

namespace Siathos.Synd

/-! ## The text -/

/-- The kernel's text for a buffer of `sizeof(list) - 1` bytes. -/
def listSize : Nat := 4095

def sepNome : CStr := ascii " em "
def sepCaminho : CStr := ascii " (r="

/-- Reads a flag, and steps over it. -/
def flagAt (d : CStr) : Bool × CStr := (d.head? == some 0x31, d.drop 1)

def skipSpace (d : CStr) : CStr := if d.head? = some 0x20 then d.drop 1 else d

/-- Reads a flag behind its name. Without the name it counts as set. -/
def namedFlag (name : CStr) (d : CStr) : Bool × CStr :=
  if name.isPrefixOf d then flagAt (d.drop name.length) else (true, d)

/-- The contract that begins at `p`, where both separators are found and the path is not empty. -/
def seedEntry (p : CStr) : Option SyndCt :=
  (strstr sepNome p).bind fun em =>
    let q := p.drop (em + 4)
    (strstr sepCaminho q).bind fun rp =>
      let nome := p.take (min em 63)
      let caminho := q.take (min rp (syndPath - 1))
      if caminho = [] then none
      else
        let (lr, d) := flagAt (q.drop (rp + 4))
        let (wr, d) := namedFlag (ascii "w=") (skipSpace d)
        let (xr, _) := namedFlag (ascii "x=") (skipSpace d)
        some ⟨caminho, nome, lr, wr, xr, true, true, true, false⟩

/-- The loop over the lines, with the room that is left in the store. -/
def seedLoop : Nat → Nat → CStr → List SyndCt
  | 0, _, _ => []
  | fuel + 1, room, p =>
    if p = [] ∨ room = 0 then []
    else
      let p := p.dropWhile blank
      if p.head? ≠ some 0x2D then seedLoop fuel room (Fsd.skipLine p)
      else
        let p := Fsd.skipSpaces (p.drop 1)
        match seedEntry p with
        | none => seedLoop fuel room (Fsd.skipLine p)
        | some c => c :: seedLoop fuel (room - 1) (Fsd.skipLine p)

/-- `synd_st_seed`, for the text that the kernel gave. -/
def syndStSeed (text : CStr) : Contracts := ⟨seedLoop (text.length + 1) syndMax text, []⟩

/-- The store after the seed. -/
def seeded (cs : List Contract) : Contracts := syndStSeed (contractText listSize [] cs)

/-! ## What the store should hold -/

/-- The entry of a contract: 63 characters of its name, its path and its flags. -/
def entryOf (c : Contract) : SyndCt :=
  ⟨c.caminho, c.nome.take 63, c.leitura, c.escrita, c.execucao, true, true, true, false⟩

/-- A contract that the text gives back. -/
structure Plain (c : Contract) : Prop where
  nome_ne : c.nome ≠ []
  nome_head : c.nome.head? ≠ some 0x20
  nome_free : ¬ sepNome <:+: c.shown ++ ascii " em"
  caminho_le : c.caminho.length < syndPath
  caminho_free : ¬ sepCaminho <:+: c.caminho

/-! ## One line -/

def execText (c : Contract) : CStr := ascii " x=" ++ digit c.execucao :: ascii ")"

def writeText (c : Contract) : CStr := ascii " w=" ++ digit c.escrita :: execText c

/-- The flags of a line, and its end. -/
def flagsText (c : Contract) : CStr := digit c.leitura :: writeText c

/-- A line from the name on, without its newline. -/
def body (c : Contract) : CStr := c.shown ++ sepNome ++ c.caminho ++ sepCaminho ++ flagsText c

/-- What decides how a line is cut: where its name begins, and that nothing is lost at its end. -/
structure Legible (c : Contract) : Prop extends Scanned c where
  nome_ne : c.nome ≠ []
  nome_head : c.nome.head? ≠ some 0x20
  caminho_le : c.caminho.length < syndPath

variable {c : Contract}

theorem length_flagsText (c : Contract) : (flagsText c).length = 10 := by
  simp [flagsText, writeText, execText, ascii]

namespace Legible

theorem shown_length (h : Legible c) : c.shown.length ≤ 107 := by
  have hpath : c.caminho.length < 44 := h.caminho_le
  have hname := h.nome_le
  unfold Contract.shown
  rw [List.isEmpty_eq_false_iff.mpr h.nome_ne]
  simp only [Bool.false_eq_true, if_false]
  split
  · omega
  · rw [List.length_append]
    omega

theorem shown_head (h : Legible c) : ∃ d rest, c.shown = d :: rest ∧ d ≠ 0x20 := by
  have hhead := h.nome_head
  unfold Contract.shown
  cases hnome : c.nome with
  | nil => exact absurd hnome h.nome_ne
  | cons d rest =>
    rw [hnome] at hhead
    have hd : d ≠ 0x20 := fun heq => hhead (by rw [heq]; rfl)
    simp only [List.isEmpty_cons, Bool.false_eq_true, if_false]
    split
    · exact ⟨d, rest, rfl, hd⟩
    · exact ⟨d, rest ++ c.caminho, rfl, hd⟩

theorem line (h : Legible c) : contractLine c = ascii "  - " ++ body c ++ [newline] := by
  have hbit : ∀ b : Bool, ascii (if b then "1" else "0") = [digit b] := by decide
  have hpath : c.caminho.length < 44 := h.caminho_le
  have hshown := h.shown_length
  have hend : ascii ")\n" = ascii ")" ++ [newline] := by decide
  have hfour : (ascii "  - ").length = 4 ∧ sepNome.length = 4 ∧ sepCaminho.length = 4 := by decide
  have hflags := length_flagsText c
  have hline : contractLine c = cut 328 (ascii "  - " ++ body c ++ [newline]) := by
    simp only [contractLine, hbit, hend, body, flagsText, writeText, execText, sepNome, sepCaminho, List.append_assoc,
      List.cons_append, List.nil_append]
  rw [hline, cut]
  refine List.take_of_length_le ?_
  simp only [body, List.length_append, List.length_singleton]
  omega

end Legible

theorem Legible.body_oneLine (h : Legible c) : ∀ d ∈ body c, d ≠ newline := by
  have hshown : ∀ d ∈ c.shown, d ≠ newline := by
    intro d hd
    unfold Contract.shown at hd
    rw [List.isEmpty_eq_false_iff.mpr h.nome_ne] at hd
    simp only [Bool.false_eq_true, if_false] at hd
    split at hd
    · exact (h.nome d hd).2
    · rcases List.mem_append.mp hd with hd | hd
      · exact (h.nome d hd).2
      · exact (h.caminho d hd).2
  have hdigit : ∀ b, digit b ≠ newline := by decide
  have hsep : ∀ d ∈ sepNome ++ sepCaminho ++ ascii " w=" ++ ascii " x=" ++ ascii ")", d ≠ newline := by decide +kernel
  intro d hd
  simp only [body, flagsText, writeText, execText, List.mem_append, List.mem_cons] at hd hsep
  rcases hd with (((hd | hd) | hd) | hd) | hd | hd | hd | hd | hd | hd
  · exact hshown d hd
  · exact hsep d (by simp [hd])
  · exact (h.caminho d hd).2
  · exact hsep d (by simp [hd])
  · exact hd ▸ hdigit _
  · exact hsep d (by simp [hd])
  · exact hd ▸ hdigit _
  · exact hsep d (by simp [hd])
  · exact hd ▸ hdigit _
  · exact hsep d (by simp [hd])

theorem seedLoop_line (h : Legible c) (fuel room : Nat) (rest : CStr) :
    seedLoop (fuel + 1) (room + 1) (contractLine c ++ rest) =
      match seedEntry (body c ++ newline :: rest) with
      | none => seedLoop fuel (room + 1) rest
      | some e => e :: seedLoop fuel room rest := by
  obtain ⟨d, r, hshown, hd⟩ := h.shown_head
  have hlead : ascii "  - " = [0x20, 0x20, 0x2D, 0x20] := by decide
  have hline : contractLine c ++ rest = 0x20 :: 0x20 :: 0x2D :: 0x20 :: (body c ++ newline :: rest) := by
    rw [h.line, hlead]
    simp
  have hspaces : Fsd.skipSpaces (0x20 :: (body c ++ newline :: rest)) = body c ++ newline :: rest := by
    simp [Fsd.skipSpaces, body, hshown, hd]
  have hskip : Fsd.skipLine (body c ++ newline :: rest) = rest :=
    Fsd.skipLine_line (fun hmem => h.body_oneLine _ hmem rfl) rest
  rw [hline, seedLoop]
  simp only [reduceCtorEq, Nat.add_one_ne_zero, or_self, if_false]
  simp [blank, hspaces, hskip]

/-! ## Reading a line -/

theorem flags_read (c : Contract) (rest : CStr) :
    flagAt (flagsText c ++ rest) = (c.leitura, writeText c ++ rest) ∧
    namedFlag (ascii "w=") (skipSpace (writeText c ++ rest)) = (c.escrita, execText c ++ rest) ∧
    namedFlag (ascii "x=") (skipSpace (execText c ++ rest)) = (c.execucao, ascii ")" ++ rest) := by
  have hdigit : ∀ b, (some (digit b) == some 0x31) = b := by decide
  have hw : ascii " w=" = [0x20, 0x77, 0x3D] ∧ ascii "w=" = [0x77, 0x3D] := by decide
  have hx : ascii " x=" = [0x20, 0x78, 0x3D] ∧ ascii "x=" = [0x78, 0x3D] := by decide
  simp [flagAt, flagsText, writeText, execText, namedFlag, skipSpace, hw, hx, hdigit]

theorem seedEntry_some {p : CStr} {e : SyndCt} (h : seedEntry p = some e) :
    ∃ em rp, strstr sepNome p = some em ∧ strstr sepCaminho (p.drop (em + 4)) = some rp ∧
      e.nome = p.take (min em 63) ∧ e.caminho = (p.drop (em + 4)).take (min rp (syndPath - 1)) := by
  obtain ⟨em, hem, h⟩ := Option.bind_eq_some_iff.mp h
  obtain ⟨rp, hrp, h⟩ := Option.bind_eq_some_iff.mp h
  refine ⟨em, rp, hem, hrp, ?_⟩
  dsimp only at h
  split at h
  · cases h
  · obtain rfl := Option.some.inj h
    exact ⟨rfl, rfl⟩

theorem body_append (c : Contract) (rest : CStr) :
    body c ++ newline :: rest =
      c.shown ++ sepNome ++ (c.caminho ++ sepCaminho ++ (flagsText c ++ newline :: rest)) := by
  simp [body]

theorem shown_take (h : c.nome ≠ []) : c.shown.take 63 = c.nome.take 63 := by
  unfold Contract.shown
  rw [List.isEmpty_eq_false_iff.mpr h]
  simp only [Bool.false_eq_true, if_false]
  split
  · rfl
  · exact List.take_append_of_le_length (by omega)

theorem Plain.entry (h : Plain c) (hne : c.caminho ≠ []) (rest : CStr) :
    seedEntry (body c ++ newline :: rest) = some (entryOf c) := by
  have hpath : c.caminho.length < 44 := h.caminho_le
  have hem : strstr sepNome (body c ++ newline :: rest) = some c.shown.length := by
    rw [body_append]
    exact strstr_append h.nome_free _
  have hnome : (body c ++ newline :: rest).take (min c.shown.length 63) = c.nome.take 63 := by
    rw [← shown_take h.nome_ne, body_append, List.append_assoc, List.take_append_of_le_length (Nat.min_le_left _ _),
      ← List.take_take]
    exact List.take_of_length_le (by rw [List.length_take]; exact Nat.min_le_right _ _)
  have hdrop : (body c ++ newline :: rest).drop (c.shown.length + 4) =
      c.caminho ++ sepCaminho ++ (flagsText c ++ newline :: rest) := by
    rw [body_append]
    exact List.drop_left' (by simp [sepNome, ascii])
  have hrp : strstr sepCaminho (c.caminho ++ sepCaminho ++ (flagsText c ++ newline :: rest)) = some c.caminho.length :=
    strstr_append (fun hsub => h.caminho_free (infix_of_infix_append (c := 0x3D) (by decide) (by decide) hsub)) _
  have hcaminho : (c.caminho ++ sepCaminho ++ (flagsText c ++ newline :: rest)).take
      (min c.caminho.length (syndPath - 1)) = c.caminho := by
    rw [Nat.min_eq_left (by unfold syndPath; omega), List.append_assoc]
    exact List.take_left
  have hflags : (c.caminho ++ sepCaminho ++ (flagsText c ++ newline :: rest)).drop (c.caminho.length + 4) =
      flagsText c ++ newline :: rest := List.drop_left' (by simp [sepCaminho, ascii])
  obtain ⟨hlr, hwr, hxr⟩ := flags_read c (newline :: rest)
  simp only [seedEntry, hem, Option.bind_some, hdrop, hrp, hnome, hcaminho, hne, if_false, hflags, hlr, hwr, hxr,
    entryOf]

theorem seedEntry_entry {p : CStr} {e : SyndCt} (hp : p.head? ≠ some 0x20) (h : seedEntry p = some e) :
    e.nome ≠ [] ∧ e.nome.head? ≠ some 0x20 ∧ e.caminho.length < syndPath ∧ ¬ sepCaminho <:+: e.caminho := by
  obtain ⟨em, rp, hem, hrp, hnome, hcaminho⟩ := seedEntry_some h
  have hat := (strstr_some hem).1
  obtain ⟨d, r, rfl⟩ : ∃ d r, p = d :: r := by
    cases p with
    | nil =>
      have : sepNome = [] := by simpa using hat
      exact absurd this (by decide)
    | cons d r => exact ⟨d, r, rfl⟩
  have hpos : em ≠ 0 := by
    rintro rfl
    obtain ⟨t, ht⟩ := hat
    have hsep : sepNome = 0x20 :: ascii "em " := by decide
    rw [hsep] at ht
    exact hp (by rw [← (List.cons.inj ht).1]; rfl)
  obtain ⟨k, hk⟩ : ∃ k, min em 63 = k + 1 := ⟨min em 63 - 1, by omega⟩
  rw [hk, List.take_succ_cons] at hnome
  refine ⟨by simp [hnome], by simpa [hnome] using hp, ?_, fun hsub => ?_⟩
  · rw [hcaminho, List.length_take]
    unfold syndPath
    omega
  · refine not_infix_of_strstr (by decide) hrp (hsub.trans ?_)
    rw [hcaminho]
    have hlen : sepCaminho.length = 4 := by decide
    exact (List.take_prefix_take_left (by omega)).isInfix

theorem Legible.entry_free (h : Legible c) (hlt : c.nome.length < 64) {rest : CStr} {e : SyndCt}
    (he : seedEntry (body c ++ newline :: rest) = some e) : ¬ sepNome <:+: e.nome ++ ascii " em" := by
  obtain ⟨em, rp, hem, -, hnome, -⟩ := seedEntry_some he
  have hshown : c.shown = c.nome := by
    unfold Contract.shown
    rw [List.isEmpty_eq_false_iff.mpr h.nome_ne]
    simp [hlt]
  have hle : em ≤ c.nome.length := by
    have hat : sepNome <+: (body c ++ newline :: rest).drop c.nome.length := by
      rw [body_append, hshown, List.append_assoc, List.drop_left]
      exact List.prefix_append _ _
    obtain ⟨i, hi, hstr⟩ := strstr_le hat
    obtain rfl := Option.some.inj (hem.symm.trans hstr)
    exact hi
  have hcut : e.nome ++ ascii " em" = (body c ++ newline :: rest).take (em + sepNome.length - 1) := by
    obtain ⟨t, ht⟩ := (strstr_some hem).1
    rw [hnome, Nat.min_eq_left (by omega)]
    have hlen : sepNome.length = 4 := by decide
    have hsep : sepNome = ascii " em" ++ [0x20] := by decide
    rw [hlen, show em + 4 - 1 = em + 3 from rfl, List.take_add, ← ht, hsep, List.append_assoc]
    rfl
  rw [hcut]
  exact not_infix_of_strstr (by decide) hem

/-! ## All lines -/

theorem skipSpaces_head (p : CStr) : (Fsd.skipSpaces p).head? ≠ some 0x20 := by
  intro h
  have hdrop := List.head?_dropWhile_not (fun c : UInt8 => c == 0x20) p
  unfold Fsd.skipSpaces at h
  rw [h] at hdrop
  simp at hdrop

theorem seedLoop_mem {fuel room : Nat} {p : CStr} {e : SyndCt} (h : e ∈ seedLoop fuel room p) :
    ∃ q : CStr, q.head? ≠ some 0x20 ∧ seedEntry q = some e := by
  induction fuel generalizing room p with
  | zero => cases h
  | succ fuel ih =>
    unfold seedLoop at h
    split at h
    · cases h
    dsimp only at h
    split at h
    · exact ih h
    split at h
    · exact ih h
    · next c hc =>
      rcases List.mem_cons.mp h with rfl | h
      · exact ⟨_, skipSpaces_head _, hc⟩
      · exact ih h

theorem length_seedLoop (fuel room : Nat) (p : CStr) : (seedLoop fuel room p).length ≤ room := by
  induction fuel generalizing room p with
  | zero => exact Nat.zero_le _
  | succ fuel ih =>
    unfold seedLoop
    split
    · exact Nat.zero_le _
    next hroom =>
    dsimp only
    split
    · exact ih _ _
    split
    · exact ih _ _
    · have := ih (room - 1) (Fsd.skipLine (Fsd.skipSpaces ((p.dropWhile blank).drop 1)))
      rw [List.length_cons]
      omega

variable {cs : List Contract}

theorem seedLoop_lines (hcs : ∀ c ∈ cs, Legible c) {fuel room : Nat} (hroom : cs.length ≤ room) {e : SyndCt}
    (he : e ∈ seedLoop fuel room (cs.flatMap contractLine)) :
    ∃ c ∈ cs, ∃ rest, seedEntry (body c ++ newline :: rest) = some e := by
  induction cs generalizing fuel room with
  | nil =>
    cases fuel with
    | zero => cases he
    | succ fuel => simp [seedLoop] at he
  | cons c cs ih =>
    have hrest : ∀ d ∈ cs, Legible d := fun d hd => hcs d (List.mem_cons_of_mem _ hd)
    cases fuel with
    | zero => cases he
    | succ fuel =>
      obtain ⟨room, rfl⟩ : ∃ k, room = k + 1 := ⟨room - 1, by rw [List.length_cons] at hroom; omega⟩
      rw [List.length_cons] at hroom
      rw [List.flatMap_cons, seedLoop_line (hcs c (List.mem_cons_self ..))] at he
      split at he
      · obtain ⟨d, hd, h⟩ := ih hrest (by omega) he
        exact ⟨d, List.mem_cons_of_mem _ hd, h⟩
      · next f hf =>
        rcases List.mem_cons.mp he with rfl | he
        · exact ⟨c, List.mem_cons_self .., _, hf⟩
        · obtain ⟨d, hd, h⟩ := ih hrest (by omega) he
          exact ⟨d, List.mem_cons_of_mem _ hd, h⟩

theorem seedLoop_plain (hcs : ∀ c ∈ cs, Legible c ∧ Plain c) {fuel room : Nat} (hroom : cs.length ≤ room)
    (hfuel : cs.length ≤ fuel) : seedLoop fuel room (cs.flatMap contractLine) = cs.map entryOf := by
  induction cs generalizing fuel room with
  | nil =>
    cases fuel with
    | zero => rfl
    | succ fuel => simp [seedLoop]
  | cons c cs ih =>
    obtain ⟨hlegible, hplain⟩ := hcs c (List.mem_cons_self ..)
    rw [List.length_cons] at hroom hfuel
    obtain ⟨room, rfl⟩ : ∃ k, room = k + 1 := ⟨room - 1, by omega⟩
    obtain ⟨fuel, rfl⟩ : ∃ k, fuel = k + 1 := ⟨fuel - 1, by omega⟩
    have hrest : seedLoop fuel room (cs.flatMap contractLine) = cs.map entryOf :=
      ih (fun d hd => hcs d (List.mem_cons_of_mem _ hd)) (by omega) (by omega)
    rw [List.flatMap_cons, seedLoop_line hlegible, hplain.entry hlegible.caminho_ne]
    simp only [hrest, List.map_cons]

theorem contractText_all {bsz : Nat} (hcs : ∀ c ∈ cs, c.ativo = true) {used : CStr}
    (hfit : used.length + (cs.flatMap contractLine).length + 1 < bsz) :
    contractText bsz used cs = used ++ cs.flatMap contractLine := by
  induction cs generalizing used with
  | nil => simp [contractText]
  | cons c cs ih =>
    rw [List.flatMap_cons, List.length_append] at hfit
    rw [contractText, hcs c (List.mem_cons_self ..)]
    simp only [Bool.not_true, Bool.false_eq_true, if_false]
    rw [if_neg (by omega), ih (fun d hd => hcs d (List.mem_cons_of_mem _ hd)) (by rw [List.length_append]; omega),
      List.flatMap_cons, List.append_assoc]

theorem Legible.line_length (h : Legible c) : 0 < (contractLine c).length ∧ (contractLine c).length ≤ 178 := by
  have hshown := h.shown_length
  have hpath : c.caminho.length < 44 := h.caminho_le
  have hflags := length_flagsText c
  have hfour : (ascii "  - ").length = 4 ∧ sepNome.length = 4 ∧ sepCaminho.length = 4 := by decide
  rw [h.line]
  simp only [body, List.length_append, List.length_singleton]
  omega

theorem lines_length (hcs : ∀ c ∈ cs, Legible c) :
    cs.length ≤ (cs.flatMap contractLine).length ∧ (cs.flatMap contractLine).length ≤ 178 * cs.length := by
  induction cs with
  | nil => simp
  | cons c cs ih =>
    have hline := (hcs c (List.mem_cons_self ..)).line_length
    have := ih fun d hd => hcs d (List.mem_cons_of_mem _ hd)
    rw [List.flatMap_cons, List.length_append, List.length_cons]
    omega

theorem seeded_lines (hcs : ∀ c ∈ cs, Legible c) (hlen : cs.length ≤ syndMax) :
    (seeded cs).cts = seedLoop ((cs.flatMap contractLine).length + 1) syndMax (cs.flatMap contractLine) := by
  have hbound := (lines_length hcs).2
  unfold syndMax at hlen
  have hfit : ([] : CStr).length + (cs.flatMap contractLine).length + 1 < listSize := by
    rw [List.length_nil]
    unfold listSize
    omega
  have htext := contractText_all (fun c hc => (hcs c hc).ativo) hfit
  unfold seeded syndStSeed
  rw [htext, List.nil_append]

/-! ## The store and the contracts -/

/-- The store has one entry for each contract, and no other. -/
def GivesBack (cs : List Contract) : Prop := (seeded cs).cts.Perm (cs.map entryOf)

theorem givesBack_of_plain (hcs : ∀ c ∈ cs, Scanned c) (hlen : cs.length ≤ syndMax) (hplain : ∀ c ∈ cs, Plain c) :
    GivesBack cs := by
  have hlegible : ∀ c ∈ cs, Legible c := fun c hc =>
    ⟨hcs c hc, (hplain c hc).nome_ne, (hplain c hc).nome_head, (hplain c hc).caminho_le⟩
  unfold GivesBack
  rw [seeded_lines hlegible hlen, seedLoop_plain (fun c hc => ⟨hlegible c hc, hplain c hc⟩) hlen
    (Nat.le_succ_of_le (lines_length hlegible).1)]

theorem plain_of_givesBack (hcs : ∀ c ∈ cs, Scanned c) (hnome : ∀ c ∈ cs, c.nome.length < 64) (h : GivesBack cs) :
    cs.length ≤ syndMax ∧ ∀ c ∈ cs, Plain c := by
  have hlen : cs.length ≤ syndMax := by
    have := h.length_eq
    rw [List.length_map] at this
    exact this ▸ length_seedLoop _ _ _
  have hentry : ∀ c ∈ cs, entryOf c ∈ (seeded cs).cts := fun c hc =>
    h.mem_iff.mpr (List.mem_map_of_mem hc)
  have hwhole : ∀ c ∈ cs, (entryOf c).nome = c.nome := fun c hc =>
    List.take_of_length_le (Nat.le_of_lt_succ (hnome c hc))
  have hread : ∀ c ∈ cs, c.nome ≠ [] ∧ c.nome.head? ≠ some 0x20 ∧ c.caminho.length < syndPath ∧
      ¬ sepCaminho <:+: c.caminho := by
    intro c hc
    obtain ⟨q, hq, he⟩ := seedLoop_mem (hentry c hc)
    have hfacts := seedEntry_entry hq he
    rw [hwhole c hc] at hfacts
    exact hfacts
  have hlegible : ∀ c ∈ cs, Legible c := fun c hc =>
    ⟨hcs c hc, (hread c hc).1, (hread c hc).2.1, (hread c hc).2.2.1⟩
  refine ⟨hlen, fun c hc => ?_⟩
  have hmem := hentry c hc
  rw [seeded_lines hlegible hlen] at hmem
  obtain ⟨d, hd, rest, he⟩ := seedLoop_lines hlegible hlen hmem
  have hfree := (hlegible d hd).entry_free (hnome d hd) he
  rw [hwhole c hc] at hfree
  have hshown : c.shown = c.nome := by
    unfold Contract.shown
    rw [List.isEmpty_eq_false_iff.mpr (hread c hc).1]
    simp [hnome c hc]
  exact ⟨(hread c hc).1, (hread c hc).2.1, hshown ▸ hfree, (hread c hc).2.2.1, (hread c hc).2.2.2⟩

/-- Up to 16 contracts with plain names and short paths come back whole. -/
theorem synd_seed_gives_back (ns : Siathos.Fs.Nodes) :
    let cs := (synallagmaScanContracts ns).contracts
    (cs.length ≤ syndMax ∧ (∀ c ∈ cs, Plain c) → GivesBack cs) ∧
      ((∀ c ∈ cs, c.nome.length < 64) → (GivesBack cs ↔ cs.length ≤ syndMax ∧ ∀ c ∈ cs, Plain c)) := by
  have hscanned := (synallagmaScanContracts_scanned ns).1
  exact ⟨fun h => givesBack_of_plain hscanned h.1 h.2,
    fun hnome => ⟨plain_of_givesBack hscanned hnome, fun h => givesBack_of_plain hscanned h.1 h.2⟩⟩

/-- A contract whose name says that it is in force. -/
def pactoEmVigor : Siathos.Fs.Nodes :=
  [⟨ascii "/synallagma", [], 0, .dir, true⟩,
    ⟨ascii "/synallagma/idios.pacto", ascii "nome = Pacto em vigor\ncaminho = /idios\nleitura = sim\n", 256,
    .file, true⟩]

theorem synd_seed_misread :
    let cs := (synallagmaScanContracts pactoEmVigor).contracts
    cs.map entryOf = [⟨ascii "/idios", ascii "Pacto em vigor", true, false, false, true, true, true, false⟩] ∧
      (seeded cs).cts = [⟨ascii "vigor em /idios", ascii "Pacto", true, false, false, true, true, true, false⟩] ∧
      ¬ (seeded cs).cts.Perm (cs.map entryOf) := by
  decide +kernel

end Siathos.Synd
