import Mathlib.Data.List.ReduceOption
import Siathos.Fb.Cells

/-!
# Reading a line (`spud_readline`)

The line is kept in the caller's array and shown as it is typed, by itself or as stars.
-/

open Lib Siathos.Fb

namespace Siathos.Spud

def Enter (c : UInt8) : Prop := c = 0x0A ∨ c = 0x0D

def Erase (c : UInt8) : Prop := c = 8 ∨ c = 127

def Printable (c : UInt8) : Prop := 32 ≤ c ∧ c ≤ 126

instance (c : UInt8) : Decidable (Enter c) := inferInstanceAs (Decidable (_ ∨ _))
instance (c : UInt8) : Decidable (Erase c) := inferInstanceAs (Decidable (_ ∨ _))
instance (c : UInt8) : Decidable (Printable c) := inferInstanceAs (Decidable (_ ∧ _))

/-- The globals `spud_rl_n` and `spud_rl_buf`, and what was written. -/
structure Reading where
  n : Nat
  buf : Buf
  out : CStr

/-- The loop goes on, or returns. -/
inductive Turn
  | reads (st : Reading)
  | returns (st : Reading)

def rubout : CStr := [0x08, 0x20, 0x08]

def star : UInt8 := 0x2A

section

variable (max : Nat) (echo mask : Bool)

/-- The loop of `spud_readline`, for one character. -/
def readlineTurn (st : Reading) (c : UInt8) : Turn :=
  if Enter c then .returns { st with buf := st.buf.write st.n [0] }
  else if Erase c then
    if 0 < st.n then .reads { st with n := st.n - 1, out := if echo || mask then st.out ++ rubout else st.out }
    else .reads st
  else if c < 32 ∨ 126 < c then .reads st
  else if max ≤ st.n + 1 then .returns { st with buf := st.buf.write st.n [0] }
  else
    let out := if echo then st.out ++ [c] else st.out
    let out := if mask then out ++ [star] else out
    .reads ⟨st.n + 1, st.buf.write st.n [c], out⟩

/-- The polls of `spud_getc`, where a read that gives nothing is `none`. Nothing is returned while it waits. -/
def readlineLoop : Reading → List (Option UInt8) → Option (Reading × List (Option UInt8))
  | _, [] => none
  | st, none :: polls => readlineLoop st polls
  | st, some c :: polls =>
    match readlineTurn max echo mask st c with
    | .reads st => readlineLoop st polls
    | .returns st => some (st, polls)

def spudReadline (b : Buf) (polls : List (Option UInt8)) : Option (Reading × List (Option UInt8)) :=
  readlineLoop max echo mask ⟨0, b, []⟩ polls

end

/-! ## What is typed -/

def edit (s : CStr) (c : UInt8) : CStr :=
  if Erase c then s.dropLast else if Printable c then s ++ [c] else s

/-- The text that the keys leave. -/
def typed (keys : List UInt8) : CStr := keys.foldl edit []

/-- The key ends the line. One for which there is no room does so too. -/
def EndsLine (max : Nat) (s : CStr) (c : UInt8) : Prop := Enter c ∨ (Printable c ∧ max ≤ s.length + 1)

instance (max : Nat) (s : CStr) (c : UInt8) : Decidable (EndsLine max s c) := inferInstanceAs (Decidable (_ ∨ _))

/-- None of the keys ends the line. -/
def GoesOn (max : Nat) : CStr → List UInt8 → Prop
  | _, [] => True
  | s, c :: keys => ¬EndsLine max s c ∧ GoesOn max (edit s c) keys

theorem Printable.not_enter {c : UInt8} (h : Printable c) : ¬Enter c := by
  unfold Printable at h
  unfold Enter
  rintro (rfl | rfl)
  · exact absurd h (by decide)
  · exact absurd h (by decide)

theorem Printable.not_erase {c : UInt8} (h : Printable c) : ¬Erase c := by
  unfold Printable at h
  unfold Erase
  rintro (rfl | rfl)
  · exact absurd h (by decide)
  · exact absurd h (by decide)

theorem printable_iff (c : UInt8) : Printable c ↔ ¬(c < 32 ∨ 126 < c) := by
  unfold Printable
  rw [not_or, UInt8.not_lt, UInt8.not_lt]

theorem edit_printable {c : UInt8} (h : Printable c) (s : CStr) : edit s c = s ++ [c] := by
  rw [edit, if_neg h.not_erase, if_pos h]

theorem edit_erase {c : UInt8} (h : Erase c) (s : CStr) : edit s c = s.dropLast := if_pos h

theorem edit_other {c : UInt8} (hp : ¬Printable c) (he : ¬Erase c) (s : CStr) : edit s c = s := by
  rw [edit, if_neg he, if_neg hp]

theorem goesOn_append {max : Nat} {s : CStr} {xs ys : List UInt8} :
    GoesOn max s (xs ++ ys) ↔ GoesOn max s xs ∧ GoesOn max (xs.foldl edit s) ys := by
  induction xs generalizing s with
  | nil => simp [GoesOn]
  | cons c xs ih => simp [GoesOn, ih, and_assoc]

theorem edit_room {max : Nat} {s : CStr} {c : UInt8} (h : s.length < max) (hc : ¬EndsLine max s c) :
    (edit s c).length < max := by
  unfold edit
  split
  · rw [List.length_dropLast]
    omega
  · split
    · next hprint =>
      rw [List.length_append, List.length_singleton]
      exact Nat.lt_of_not_le fun hle => hc (.inr ⟨hprint, hle⟩)
    · exact h

/-! ## The loop -/

/-- The array holds the text, and nothing was written behind it. -/
structure Typed (max : Nat) (b : Buf) (s : CStr) (st : Reading) : Prop where
  n : st.n = s.length
  bytes : st.buf.bytes s.length = s
  frame : ∀ i, max ≤ i → st.buf i = b i
  room : s.length < max
  printable : ∀ x ∈ s, Printable x

/-- What a key adds to what is shown. -/
def shownFor (echo mask : Bool) (s : CStr) (c : UInt8) : CStr :=
  if Erase c then (if s ≠ [] ∧ (echo || mask) then rubout else [])
  else if Printable c then (if echo then [c] else []) ++ (if mask then [star] else [])
  else []

/-- What is shown while the keys are typed. -/
def display (echo mask : Bool) : CStr → List UInt8 → CStr
  | _, [] => []
  | s, c :: keys => shownFor echo mask s c ++ display echo mask (edit s c) keys

section

variable {max : Nat} {b : Buf} {s : CStr} {st : Reading} {c : UInt8} (echo mask : Bool)

theorem typed_start (hmax : 0 < max) (b : Buf) : Typed max b [] ⟨0, b, []⟩ :=
  ⟨rfl, rfl, fun _ _ => rfl, hmax, fun _ h => absurd h List.not_mem_nil⟩

theorem turn_returns (h : Typed max b s st) (hc : EndsLine max s c) :
    readlineTurn max echo mask st c = .returns { st with buf := st.buf.write st.n [0] } := by
  unfold readlineTurn
  rcases hc with hc | ⟨hc, hfull⟩
  · rw [if_pos hc]
  · rw [if_neg hc.not_enter, if_neg hc.not_erase, if_neg ((printable_iff c).mp hc), if_pos (by rwa [h.n])]

theorem turn_reads (h : Typed max b s st) (hc : ¬EndsLine max s c) :
    ∃ st', readlineTurn max echo mask st c = .reads st' ∧ Typed max b (edit s c) st' ∧
      st'.out = st.out ++ shownFor echo mask s c := by
  obtain ⟨henter, hfull⟩ := not_or.mp hc
  have hroom := h.room
  unfold readlineTurn shownFor
  rw [if_neg henter]
  by_cases herase : Erase c
  · rw [if_pos herase, if_pos herase, edit_erase herase]
    rcases List.eq_nil_or_concat s with rfl | ⟨t, x, rfl⟩
    · refine ⟨st, ?_, h, by simp⟩
      rw [if_neg (by rw [h.n]; exact Nat.lt_irrefl 0)]
    · have hbytes := h.bytes
      have hn := h.n
      rw [List.concat_eq_append, List.length_append, List.length_singleton] at hroom hbytes hn
      rw [Buf.bytes_succ] at hbytes
      rw [List.concat_eq_append, List.dropLast_concat, if_pos (by omega)]
      refine ⟨_, rfl, ⟨?_, List.append_inj_left' hbytes rfl, h.frame, by omega, fun y hy => h.printable y ?_⟩, ?_⟩
      · dsimp only
        omega
      · rw [List.concat_eq_append]
        exact List.mem_append_left _ hy
      · by_cases hvisible : (echo || mask) = true
        · simp [hvisible]
        · simp [hvisible]
  · rw [if_neg herase, if_neg herase]
    by_cases hprint : Printable c
    · have hlen : s.length + 1 < max := Nat.lt_of_not_le fun hle => hfull ⟨hprint, hle⟩
      rw [if_neg ((printable_iff c).mp hprint), if_neg (by rw [h.n]; omega), if_pos hprint, edit_printable hprint]
      refine ⟨_, rfl, ⟨?_, ?_, fun i hi => ?_, ?_, fun y hy => ?_⟩, ?_⟩
      · rw [List.length_append, List.length_singleton, ← h.n]
      · have hwrite := Buf.bytes_write st.buf s.length [c]
        rw [h.bytes, List.length_singleton] at hwrite
        rw [List.length_append, List.length_singleton, ← hwrite, h.n]
      · dsimp only
        rw [Buf.write_after (by rw [h.n, List.length_singleton]; omega), h.frame i hi]
      · rwa [List.length_append, List.length_singleton]
      · rcases List.mem_append.mp hy with hy | hy
        · exact h.printable y hy
        · rwa [List.mem_singleton.mp hy]
      · cases echo <;> cases mask <;> simp
    · rw [if_pos (not_not.mp fun hin => hprint ((printable_iff c).mpr hin)), if_neg hprint, edit_other hprint herase]
      exact ⟨st, rfl, h, by simp⟩

theorem readlineLoop_spec (h : Typed max b s st) (polls : List (Option UInt8)) :
    (GoesOn max s polls.reduceOption ∧ readlineLoop max echo mask st polls = none) ∨
    ∃ before c rest st', polls = before ++ some c :: rest ∧ GoesOn max s before.reduceOption ∧
      EndsLine max (before.reduceOption.foldl edit s) c ∧
      readlineLoop max echo mask st polls = some ({ st' with buf := st'.buf.write st'.n [0] }, rest) ∧
      Typed max b (before.reduceOption.foldl edit s) st' ∧
      st'.out = st.out ++ display echo mask s before.reduceOption := by
  induction polls generalizing s st with
  | nil => exact .inl ⟨trivial, rfl⟩
  | cons poll polls ih =>
    cases poll with
    | none =>
      rw [List.reduceOption_cons_of_none, readlineLoop]
      rcases ih h with hwait | ⟨before, c, rest, st', rfl, hrest⟩
      · exact .inl hwait
      · refine .inr ⟨none :: before, c, rest, st', rfl, ?_⟩
        rwa [List.reduceOption_cons_of_none]
    | some c =>
      rw [List.reduceOption_cons_of_some]
      by_cases hends : EndsLine max s c
      · refine .inr ⟨[], c, polls, st, rfl, trivial, hends, ?_, h, by simp [display]⟩
        rw [readlineLoop, turn_returns echo mask h hends]
      · obtain ⟨st₁, hturn, htyped, hout⟩ := turn_reads echo mask h hends
        rw [readlineLoop, hturn]
        rcases ih htyped with ⟨hgoes, hwait⟩ | ⟨before, d, rest, st', rfl, hgoes, hlast, hloop, hend, hshown⟩
        · exact .inl ⟨⟨hends, hgoes⟩, hwait⟩
        · refine .inr ⟨some c :: before, d, rest, st', rfl, ?_⟩
          rw [List.reduceOption_cons_of_some]
          refine ⟨⟨hends, hgoes⟩, hlast, hloop, hend, ?_⟩
          rw [hshown, hout, List.append_assoc]
          rfl

theorem Typed.cstr (h : Typed max b s st) : (st.buf.write st.n [0]).cstr max = s := by
  have hend := Buf.bytes_write st.buf s.length [0]
  rw [h.bytes, List.length_singleton, ← h.n] at hend
  refine Buf.cstr_ended ?_ h.room fun hnul => absurd (h.printable 0 hnul) (by decide)
  rw [← h.n]
  exact hend

theorem Typed.frame_end (h : Typed max b s st) {i : Nat} (hi : max ≤ i) : st.buf.write st.n [0] i = b i := by
  have hroom := h.room
  rw [Buf.write_after (by rw [h.n, List.length_singleton]; omega), h.frame i hi]

end

/-- The call waits for the end of the line, and then the array holds the text and nothing behind it is written. -/
theorem spudReadline_right {max : Nat} (hmax : 0 < max) (echo mask : Bool) (b : Buf) (polls : List (Option UInt8)) :
    (spudReadline max echo mask b polls = none ↔ GoesOn max [] polls.reduceOption) ∧
    ∀ r rest, spudReadline max echo mask b polls = some (r, rest) → ∃ before c,
      polls = before ++ some c :: rest ∧ GoesOn max [] before.reduceOption ∧
      EndsLine max (typed before.reduceOption) c ∧
      r.buf.cstr max = typed before.reduceOption ∧ (typed before.reduceOption).length < max ∧
      (∀ x ∈ typed before.reduceOption, Printable x) ∧ ∀ i, max ≤ i → r.buf i = b i := by
  unfold spudReadline
  rcases readlineLoop_spec echo mask (typed_start hmax b) polls with
    ⟨hgoes, hwait⟩ | ⟨before, c, rest, st, hpolls, hgoes, hends, hloop, htyped, -⟩
  · rw [hwait]
    exact ⟨iff_of_true rfl hgoes, fun _ _ h => nomatch h⟩
  · rw [hloop]
    refine ⟨iff_of_false nofun fun hall => ?_, ?_⟩
    · rw [hpolls, List.reduceOption_append, List.reduceOption_cons_of_some, goesOn_append] at hall
      exact hall.2.1 hends
    · rintro r rest' hr
      obtain ⟨rfl, rfl⟩ := Prod.mk.inj (Option.some.inj hr)
      exact ⟨before, c, hpolls, hgoes, hends, htyped.cstr, htyped.room, htyped.printable,
        fun i hi => htyped.frame_end hi⟩

/-- A short line in an array of four bytes. -/
theorem spudReadline_right_four :
    (spudReadline 4 true false (fun _ => 7) [some 0x61, none, some 8, some 0x62, some 0x0A]).isSome ∧
    (typed [0x61, 8, 0x62]).length < 4 := by
  have hright := spudReadline_right (show 0 < 4 by decide) true false (fun _ => 7)
    [some 0x61, none, some 8, some 0x62, some 0x0A]
  constructor
  · rw [Option.isSome_iff_ne_none, ne_eq, hright.1]
    intro hgoes
    exact hgoes.2.2.2.1 (by decide)
  · decide

/-! ## The line on the terminal -/

/-- What is to be seen of the text. -/
def image (mask : Bool) (s : CStr) : CStr := if mask then List.replicate s.length star else s

@[simp] theorem length_image (mask : Bool) (s : CStr) : (image mask s).length = s.length := by
  cases mask <;> simp [image]

theorem image_concat (mask : Bool) (s : CStr) (c : UInt8) :
    image mask (s ++ [c]) = image mask s ++ [if mask then star else c] := by
  cases mask <;> simp [image, List.replicate_succ']

/-- From the cell `p` on the terminal has the text, then the cursor, and else what was there before. -/
structure ShowsText (cols p : Nat) (before : Terminal) (text : CStr) (t : Terminal) : Prop where
  cursor : Terminal.At cols (p + text.length) t
  cells : ∀ i, t.cellAt cols i = if p ≤ i then (text[i - p]?).getD (before.cellAt cols i) else before.cellAt cols i

section

variable {cols rows p : Nat} {before t : Terminal} {text : CStr} {c : UInt8}

theorem Printable.drawn (h : Printable c) : Drawn c := by
  refine ⟨fun hfeed => h.not_enter (.inl hfeed), fun hreturn => h.not_enter (.inr hreturn), fun hback => ?_⟩
  exact h.not_erase (.inl hback)

theorem Printable.shown (h : Printable c) : shown c = c := if_neg ((printable_iff c).mp h)

theorem ShowsText.nil (h : Terminal.At cols p t) : ShowsText cols p t [] t := by
  refine ⟨h, fun i => ?_⟩
  rw [List.getElem?_nil, Option.getD_none, ite_self]

theorem ShowsText.put (h : ShowsText cols p before text t) (hcols : 0 < cols) (hroom : p + text.length < cols * rows)
    (hc : Printable c) : ShowsText cols p before (text ++ [c]) (t.put cols rows c) := by
  obtain ⟨hcursor, hcells⟩ := h.cursor.put_drawn hcols hroom hc.drawn
  refine ⟨by rwa [List.length_append, List.length_singleton], fun i => ?_⟩
  rw [hcells, hc.shown, h.cells]
  by_cases hi : i = p + text.length
  · rw [if_pos hi, if_pos (by omega), List.getElem?_append_right (by omega),
      show i - p - text.length = 0 from by omega]
    rfl
  · rw [if_neg hi]
    by_cases hbefore : p ≤ i
    · rw [if_pos hbefore, if_pos hbefore]
      by_cases hin : i - p < text.length
      · rw [List.getElem?_append_left hin]
      · rw [List.getElem?_eq_none (by omega),
          List.getElem?_eq_none (by rw [List.length_append, List.length_singleton]; omega)]
    · rw [if_neg hbefore, if_neg hbefore]

theorem ShowsText.rubout (h : ShowsText cols p before (text ++ [c]) t) (hcols : 0 < cols)
    (hroom : p + text.length < cols * rows) (hblank : before.cellAt cols (p + text.length) = 0x20) :
    ShowsText cols p before text (rubout.foldl (Terminal.put cols rows) t) := by
  have hcursor := h.cursor
  rw [List.length_append, List.length_singleton, ← Nat.add_assoc] at hcursor
  obtain ⟨hend, hcells⟩ := hcursor.rubout hcols hroom
  refine ⟨hend, fun i => (hcells i).trans ?_⟩
  rw [h.cells]
  by_cases hi : i = p + text.length
  · rw [if_pos hi, if_pos (by omega), List.getElem?_eq_none (by omega), hi, hblank]
    rfl
  · rw [if_neg hi]
    by_cases hbefore : p ≤ i
    · rw [if_pos hbefore, if_pos hbefore]
      by_cases hin : i - p < text.length
      · rw [List.getElem?_append_left hin]
      · rw [List.getElem?_eq_none (by rw [List.length_append, List.length_singleton]; omega),
          List.getElem?_eq_none (by omega)]
    · rw [if_neg hbefore, if_neg hbefore]

theorem ShowsText.key {echo mask : Bool} {max : Nat} {s : CStr} (h : ShowsText cols p before (image mask s) t)
    (hone : echo ≠ mask) (hcols : 0 < cols) (hroom : p + max ≤ cols * rows + 1) (hlen : s.length < max)
    (hblank : ∀ i, p ≤ i → i + 1 < p + max → before.cellAt cols i = 0x20) (hc : ¬EndsLine max s c) :
    ShowsText cols p before (image mask (edit s c)) ((shownFor echo mask s c).foldl (Terminal.put cols rows) t) := by
  have hvisible : (echo || mask) = true := by
    cases echo <;> cases mask <;> simp_all
  unfold shownFor
  by_cases herase : Erase c
  · rw [if_pos herase, edit_erase herase]
    rcases List.eq_nil_or_concat s with rfl | ⟨u, x, rfl⟩
    · rw [if_neg fun hne => hne.1 rfl]
      exact h
    · rw [List.concat_eq_append] at h hlen ⊢
      rw [List.length_append, List.length_singleton] at hlen
      rw [image_concat] at h
      rw [List.dropLast_concat, if_pos ⟨by simp, hvisible⟩]
      refine h.rubout hcols ?_ (hblank _ (Nat.le_add_right _ _) ?_)
      · rw [length_image]
        omega
      · rw [length_image]
        omega
  · rw [if_neg herase]
    by_cases hprint : Printable c
    · have hfits : s.length + 1 < max := Nat.lt_of_not_le fun hle => hc (.inr ⟨hprint, hle⟩)
      have hcell : (if echo then [c] else []) ++ (if mask then [star] else []) = [if mask then star else c] := by
        cases echo <;> cases mask <;> simp_all
      have hseen : Printable (if mask then star else c) := by
        cases mask
        · exact hprint
        · exact (by decide : Printable star)
      rw [if_pos hprint, hcell, edit_printable hprint, image_concat]
      exact h.put hcols (by rw [length_image]; omega) hseen
    · rw [if_neg hprint, edit_other hprint herase]
      exact h

theorem ShowsText.keys {echo mask : Bool} {max : Nat} {s : CStr} {keys : List UInt8}
    (h : ShowsText cols p before (image mask s) t) (hone : echo ≠ mask) (hcols : 0 < cols)
    (hroom : p + max ≤ cols * rows + 1) (hlen : s.length < max)
    (hblank : ∀ i, p ≤ i → i + 1 < p + max → before.cellAt cols i = 0x20) (hgoes : GoesOn max s keys) :
    ShowsText cols p before (image mask (keys.foldl edit s))
      ((display echo mask s keys).foldl (Terminal.put cols rows) t) := by
  induction keys generalizing s t with
  | nil => exact h
  | cons c keys ih =>
    rw [display, List.foldl_append]
    exact ih (h.key hone hcols hroom hlen hblank hgoes.1) (edit_room hlen hgoes.1) hgoes.2

end

/-- The terminal shows the line as it is typed, by itself or as stars, and nothing else changes. -/
theorem readline_shown {max cols rows p : Nat} {echo mask : Bool} (hone : echo ≠ mask) (hmax : 0 < max)
    (hcols : 0 < cols)
    (hroom : p + max ≤ cols * rows + 1) {t : Terminal} (hat : t.At cols p)
    (hblank : ∀ i, p ≤ i → i + 1 < p + max → t.cellAt cols i = 0x20) (b : Buf) (polls : List (Option UInt8)) :
    ∀ r rest, spudReadline max echo mask b polls = some (r, rest) →
      ShowsText cols p t (image mask (r.buf.cstr max)) (r.out.foldl (Terminal.put cols rows) t) := by
  rintro r rest hr
  unfold spudReadline at hr
  rcases readlineLoop_spec echo mask (typed_start hmax b) polls with
    ⟨-, hwait⟩ | ⟨before, c, rest', st, -, hgoes, -, hloop, htyped, hout⟩
  · rw [hwait] at hr
    cases hr
  · rw [hloop] at hr
    obtain ⟨rfl, -⟩ := Prod.mk.inj (Option.some.inj hr)
    have hstart : ShowsText cols p t (image mask []) t := by
      have hnil : image mask [] = [] := by cases mask <;> rfl
      rw [hnil]
      exact .nil hat
    rw [htyped.cstr, hout, List.nil_append]
    exact hstart.keys hone hcols hroom hmax hblank hgoes

theorem readline_shown_blank : ∃ r rest,
    spudReadline 4 true false (fun _ => 0) [some 0x61, some 8, some 0x62, some 0x0A] = some (r, rest) ∧
      ShowsText 4 0 Terminal.blank [0x62] (r.out.foldl (Terminal.put 4 2) Terminal.blank) := by
  have hat : Terminal.At 4 0 Terminal.blank := ⟨by decide, rfl⟩
  have hone : true ≠ false := by decide
  refine ⟨_, _, rfl, ?_⟩
  exact @readline_shown 4 4 2 0 true false hone (by decide) (by decide) (by decide) _ hat (fun _ _ _ => rfl)
    (fun _ => 0)
    [some 0x61, some 8, some 0x62, some 0x0A] _ _ rfl

/-! ## A password -/

/-- The same key, or both are keys for characters. -/
def Alike (c d : UInt8) : Prop := c = d ∨ (Printable c ∧ Printable d)

/-- What can be seen of a turn from outside. -/
structure LooksSame (st st' : Reading) : Prop where
  n : st.n = st'.n
  out : st.out = st'.out

inductive Turn.Same : Turn → Turn → Prop
  | reads {st st' : Reading} (h : LooksSame st st') : Same (.reads st) (.reads st')
  | returns {st st' : Reading} (h : LooksSame st st') : Same (.returns st) (.returns st')

theorem masked_turn {max : Nat} {st st' : Reading} (h : LooksSame st st') {c d : UInt8} (hcd : Alike c d) :
    Turn.Same (readlineTurn max false true st c) (readlineTurn max false true st' d) := by
  obtain ⟨n, buf, out⟩ := st
  obtain ⟨n', buf', out'⟩ := st'
  obtain ⟨rfl, rfl⟩ : n = n' ∧ out = out' := ⟨h.n, h.out⟩
  unfold readlineTurn
  rcases hcd with rfl | ⟨hc, hd⟩
  · split
    · exact .returns ⟨rfl, rfl⟩
    · split
      · split
        · exact .reads ⟨rfl, rfl⟩
        · exact .reads ⟨rfl, rfl⟩
      · split
        · exact .reads ⟨rfl, rfl⟩
        · split
          · exact .returns ⟨rfl, rfl⟩
          · exact .reads ⟨rfl, rfl⟩
  · rw [if_neg hc.not_enter, if_neg hd.not_enter, if_neg hc.not_erase, if_neg hd.not_erase,
      if_neg ((printable_iff c).mp hc), if_neg ((printable_iff d).mp hd)]
    split
    · exact .returns ⟨rfl, rfl⟩
    · exact .reads ⟨rfl, rfl⟩

theorem masked_loop {max : Nat} {st st' : Reading} (h : LooksSame st st') {polls polls' : List (Option UInt8)}
    (hpolls : List.Forall₂ (Option.Rel Alike) polls polls') :
    Option.Rel (fun a a' => LooksSame a.1 a'.1 ∧ List.Forall₂ (Option.Rel Alike) a.2 a'.2)
      (readlineLoop max false true st polls) (readlineLoop max false true st' polls') := by
  induction hpolls generalizing st st' with
  | nil => exact .none
  | cons hpoll hrest ih =>
    cases hpoll with
    | none => exact ih h
    | some hcd =>
      have hturn := @masked_turn max _ _ h _ _ hcd
      unfold readlineLoop
      revert hturn
      generalize readlineTurn max false true st _ = turn
      generalize readlineTurn max false true st' _ = turn'
      intro hturn
      cases hturn with
      | reads hnext => exact ih hnext
      | returns hlast => exact .some ⟨hlast, hrest⟩

/-- What a password is read with tells nothing of its characters. -/
theorem masked_same (max : Nat) (b b' : Buf) {polls polls' : List (Option UInt8)}
    (hpolls : List.Forall₂ (Option.Rel Alike) polls polls') :
    Option.Rel (fun a a' => LooksSame a.1 a'.1 ∧ List.Forall₂ (Option.Rel Alike) a.2 a'.2)
      (spudReadline max false true b polls) (spudReadline max false true b' polls') := by
  have hstart : LooksSame ⟨0, b, []⟩ ⟨0, b', []⟩ := ⟨rfl, rfl⟩
  exact masked_loop hstart hpolls

theorem masked_same_one : Option.Rel (fun a a' => LooksSame a.1 a'.1 ∧ List.Forall₂ (Option.Rel Alike) a.2 a'.2)
    (spudReadline 32 false true (fun _ => 0) [some 0x61, none, some 0x0A])
    (spudReadline 32 false true (fun _ => 1) [some 0x7A, none, some 0x0A]) :=
  masked_same 32 _ _ (.cons (.some (.inr (by decide))) (.cons .none (.cons (.some (.inl rfl)) .nil)))

end Siathos.Spud
