import Siathos.Fs.Reach
import Siathos.Fsd.Listing
import Siathos.Nomos.Scan
import Siathos.Syscall.Residue

/-!
# What a listing tells

`fs_list` finds the children of a folder by their paths, and cuts its text where the buffer ends. It answers for
every path, whether there is such a folder or not.
-/

open Lib Lib.Call Siathos.Nomos Siathos.Fs Siathos.Fsd

namespace Siathos.Syscall

/-! ## What it should tell -/

def childPath (dir name : CStr) : CStr := if dir = root then slash :: name else dir ++ slash :: name

/-- The tree has the name directly in the folder. -/
def Child (t : Tree) (dir name : CStr) (type : FsType) : Prop :=
  name ≠ [] ∧ slash ∉ name ∧ ∃ data, t (childPath dir name) = some (type, data)

/-- No name in the folder has a newline. -/
def Unbroken (t : Tree) (dir : CStr) : Prop := ∀ name type, Child t dir name type → newline ∉ name

/-- Each child has one line, and each line shows a child. A folder without children shows that it is empty. -/
def ShowsChildren (t : Tree) (dir text : CStr) : Prop :=
  (text = ascii "  (vazio)\n" ∧ ∀ name type, ¬Child t dir name type) ∨
    ∃ lines : List CStr, lines ≠ [] ∧ lines.Nodup ∧ (∀ l ∈ lines, newline ∉ l) ∧ text = lines.flatMap (· ++ [newline]) ∧
      ∀ l, l ∈ lines ↔ ∃ name type, Child t dir name type ∧ l = lineBody (kindOf type) name

/-- What a buffer of `max` bytes should hold of a listing with these lines: all of it, or some whole lines. -/
def Shows (t : Tree) (dir : CStr) (lines : List CStr) (max : Nat) (text : CStr) : Prop :=
  (lines.flatten.length < max → ShowsChildren t dir text) ∧
    (max ≤ lines.flatten.length → ∃ k, text = (lines.take k).flatten)

/-- The lines of `fs_list`, where there is room for all of them. -/
def fsLines (ns : Nodes) (dir : CStr) : List CStr :=
  if children dir ns = [] then [ascii "  (vazio)\n"] else (children dir ns).map fun c => lineOf (kindOf c.1) c.2

/-- The folders of `/aisthesis` and `/kinesis`, which no node stands for. -/
def virtualLines (norm : CStr) : Option (List CStr) :=
  if norm = ascii "/aisthesis" then some [ascii "memoria\n", ascii "processos\n"]
  else if norm = ascii "/kinesis" then some [ascii "processos\n", ascii "uptime\n"]
  else none

/-- The lines of `vfs_list`. -/
def vfsLines (ns : Nodes) (norm : CStr) : List CStr := (virtualLines norm).getD (fsLines ns norm)

/-- `fs_list`, which returns `FS_OK` for every path. Into a buffer of no bytes it writes nothing. -/
def fsListCall (ns : Nodes) (dir : CStr) (max : Nat) (b : Buf) : Option Buf :=
  some (if max = 0 then b else fsListInto ns dir max b)

/-- `vfs_list`. -/
def vfsListCall (p : Policy) (ns : Nodes) (cwd : CStr) (path : Option CStr) (max : Nat) (b : Buf) : Option Buf :=
  (vfsPath p cwd (path.getD cwd) capFsRead).map fun norm => if max = 0 then b else listInto ns norm max b

/-! ## What it tells -/

theorem virtualLines_eq (norm : CStr) :
    (virtualLines norm).map List.flatten = if vfsIsPseudo norm then vfsPseudoList norm else none := by
  unfold virtualLines vfsPseudoList
  split
  · next h => subst h; decide
  split
  · next h => subst h; decide
  · simp

theorem any_children {dir : CStr} {ns : Nodes} :
    ns.any (fun n => n.used && (childName dir n.path).isSome) = true ↔ children dir ns ≠ [] := by
  rw [List.any_eq_true, children, Ne, List.filterMap_eq_nil_iff]
  constructor
  · rintro ⟨n, hn, hchild⟩ hnone
    have hn' := hnone n hn
    simp only [Bool.and_eq_true, Option.isSome_iff_exists] at hchild
    obtain ⟨hused, name, hname⟩ := hchild
    simp [hused, hname] at hn'
  · intro hsome
    by_contra hnone
    refine hsome fun n hn => ?_
    have hchild : ¬(n.used && (childName dir n.path).isSome) = true := fun h => hnone ⟨n, hn, h⟩
    cases hused : n.used <;> cases hname : childName dir n.path <;> simp_all

theorem flatMap_listedLine (dir : CStr) (ns : Nodes) : ns.flatMap (listedLine dir) = childLines dir ns := by
  unfold childLines children
  induction ns with
  | nil => rfl
  | cons n ns ih =>
    rw [List.flatMap_cons, ih, List.filterMap_cons, listedLine]
    cases (if n.used then childName dir n.path else none) <;> rfl

theorem flatten_fsLines (ns : Nodes) (dir : CStr) : (fsLines ns dir).flatten =
    if ns.any (fun n => n.used && (childName dir n.path).isSome) then ns.flatMap (listedLine dir)
    else ascii "  (vazio)\n" := by
  rw [flatMap_listedLine, fsLines]
  by_cases hnil : children dir ns = []
  · rw [if_pos hnil, if_neg fun h => any_children.mp h hnil]
    rfl
  · rw [if_neg hnil, if_pos (any_children.mpr hnil)]
    rfl

theorem listing_eq (ns : Nodes) (norm : CStr) : listing ns norm = (vfsLines ns norm).flatten := by
  unfold listing vfsLines
  rw [← virtualLines_eq]
  cases virtualLines norm with
  | some lines => rfl
  | none => exact (flatten_fsLines ns norm).symm

/-! ## The text in the buffer -/

theorem text_snprintf (o : Out) (max : Nat) (line : CStr) :
    (⟨o.buf.snprintf o.used (max - o.used) line, o.used + (cut (max - o.used) line).length⟩ : Out).text =
      o.text ++ cut (max - o.used) line := by
  have hwrite := Buf.bytes_write o.buf o.used (cut (max - o.used) line)
  rw [Out.text, Buf.snprintf, Buf.write_append, Buf.bytes_congr fun i hi => Buf.write_before hi _ _, hwrite]
  rfl

theorem text_fsListLoop {dir : CStr} {max : Nat} (hmax : 0 < max) {ns : Nodes} {o : Out} {t : CStr}
    (ho : o.text = t.take (max - 1)) :
    (fsListLoop dir max ns o).text = (t ++ ns.flatMap (listedLine dir)).take (max - 1) := by
  have hused : o.used = min (max - 1) t.length := by rw [← Out.length_text, ho, List.length_take]
  induction ns generalizing o t with
  | nil => simp [fsListLoop, ho]
  | cons n ns ih =>
    cases hname : (if n.used then childName dir n.path else none) with
    | none =>
      rw [fsListLoop, hname, ih ho hused]
      simp [listedLine, hname]
    | some name =>
      have hline : listedLine dir n = ascii "  " ++ ascii (if n.type = .dir then "<DIR>" else "<ARQ>") ++
          ascii "   " ++ name ++ ascii "\n" := by simp [listedLine, hname]
      have hnot : ¬o.used + (cut (max - o.used) (listedLine dir n)).length ≥ max := by
        rw [cut, List.length_take]
        omega
      have hnext : o.text ++ cut (max - o.used) (listedLine dir n) = (t ++ listedLine dir n).take (max - 1) := by
        rw [ho, cut, List.take_append]
        congr 2
        omega
      rw [fsListLoop, hname]
      simp only [← hline, if_neg hnot]
      have htext := (text_snprintf o max (listedLine dir n)).trans hnext
      rw [ih htext (by rw [← Out.length_text, htext, List.length_take]), List.flatMap_cons, List.append_assoc]

theorem length_take_lt {max : Nat} (hmax : 0 < max) (s : CStr) : (s.take (max - 1)).length < max := by
  rw [List.length_take]
  omega

theorem bytes_fsListInto (dir : CStr) {max : Nat} (hmax : 0 < max) (ns : Nodes) (b : Buf) :
    let text := (fsLines ns dir).flatten.take (max - 1)
    (fsListInto ns dir max b).bytes (text.length + 1) = text ++ [0] := by
  intro text
  have hstart : (⟨b, 0⟩ : Out).text = ([] : CStr).take (max - 1) := by simp [Out.text, Buf.bytes]
  unfold fsListInto
  by_cases hany : ns.any (fun n => n.used && (childName dir n.path).isSome) = true
  · have hfull := (flatten_fsLines ns dir).trans (if_pos hany)
    have htext : (fsListLoop dir max ns ⟨b, 0⟩).text = text := by
      rw [text_fsListLoop hmax hstart, List.nil_append, ← hfull]
    simp only [hany, if_true, ← htext, Out.length_text]
    exact Out.bytes_close _
  · have hfull := (flatten_fsLines ns dir).trans (if_neg hany)
    have htext : text = cut max (ascii "  (vazio)\n") := by rw [cut, ← hfull]
    have hroom : 0 + (cut max (ascii "  (vazio)\n")).length < max := by
      rw [Nat.zero_add, cut]
      exact length_take_lt hmax _
    have hwrite := text_snprintf ⟨b, 0⟩ max (ascii "  (vazio)\n")
    rw [Nat.sub_zero] at hwrite
    simp only [hany, fsListLoop_none hany, Bool.false_eq_true, if_false, Nat.sub_zero, if_pos hroom]
    have hclose := Out.bytes_close ⟨b.snprintf 0 max (ascii "  (vazio)\n"), 0 + (cut max (ascii "  (vazio)\n")).length⟩
    rw [hwrite] at hclose
    rw [htext]
    simpa [Out.text, Buf.bytes] using hclose

theorem bytes_listInto (norm : CStr) {max : Nat} (hmax : 0 < max) (ns : Nodes) (b : Buf) :
    let text := (listing ns norm).take (max - 1)
    (listInto ns norm max b).bytes (text.length + 1) = text ++ [0] := by
  intro text
  have hlisting := listing_eq ns norm
  have hpseudo := virtualLines_eq norm
  unfold vfsLines at hlisting
  unfold listInto
  rw [← hpseudo]
  cases hlines : virtualLines norm with
  | some lines =>
    rw [hlines, Option.getD_some] at hlisting
    have hwrite := Buf.bytes_write_zero (l := text ++ [0]) (by rw [List.length_append, List.length_singleton]) b
    change (b.write 0 (cut max lines.flatten ++ [0])).bytes _ = _
    rw [cut, ← hlisting]
    exact hwrite
  | none =>
    rw [hlines, Option.getD_none] at hlisting
    have hbytes := bytes_fsListInto norm hmax ns b
    rw [← hlisting] at hbytes
    exact hbytes

/-! ## The children in a good tree -/

theorem childName_iff {dir p name : CStr} :
    childName dir p = some name ↔ p = childPath dir name ∧ slash ∉ name ∧ (dir = root → name ≠ []) := by
  unfold childPath
  by_cases hdir : dir = root
  · subst hdir
    unfold childName
    simp only [if_true, true_imp_iff]
    constructor
    · intro h
      split_ifs at h with hp hhead hrest
      have hname := Option.some.inj h
      obtain ⟨tail, rfl⟩ : ∃ tail, p = slash :: tail := by
        cases p with
        | nil => simp at hhead
        | cons b tail => exact ⟨tail, by simpa using hhead⟩
      simp at hname hrest
      subst hname
      exact ⟨rfl, hrest.2, hrest.1⟩
    · rintro ⟨rfl, hslash, hne⟩
      simp [root, hslash, hne]
  · rw [if_neg hdir, childName_eq hdir, entryName_iff]
    simp [hdir]

section Good

variable {ns : Nodes} {dir : CStr}

theorem fsGet_of_mem (hunique : ∀ q, (nodesAt ns q).length ≤ 1) {n : FsNode} (hn : n ∈ ns) (hused : n.used = true) :
    fsGet ns n.path = some n := by
  have hmem : n ∈ nodesAt ns n.path := List.mem_filter.mpr ⟨hn, by simp [hused]⟩
  have hone := hunique n.path
  rw [fsGet_eq]
  generalize nodesAt ns n.path = l at hmem hone
  match l, hmem, hone with
  | [m], hmem, _ => rw [List.mem_singleton.mp hmem, List.head?_cons]

theorem mem_children (h : GoodTree ns) {type : FsType} {name : CStr} :
    (type, name) ∈ children dir ns ↔ Child (treeOf ns) dir name type := by
  unfold children Child
  rw [List.mem_filterMap]
  constructor
  · rintro ⟨n, hn, hchild⟩
    by_cases hused : n.used = true
    · rw [if_pos hused, Option.map_eq_some_iff] at hchild
      obtain ⟨name', hname, heq⟩ := hchild
      obtain ⟨rfl, rfl⟩ := Prod.mk.inj heq
      obtain ⟨hpath, hslash, hroot⟩ := childName_iff.mp hname
      have hfound : treeOf ns (childPath dir name') = some (n.type, n.data) := by
        rw [← hpath, treeOf_some]
        exact ⟨n, fsGet_of_mem h.paths.unique hn hused, rfl⟩
      refine ⟨?_, hslash, n.data, hfound⟩
      by_cases hdir : dir = root
      · exact hroot hdir
      · have hsome : treeOf ns (childPath dir name') ≠ none := by simp [hfound]
        have hproper := h.proper _ hsome
        have hne := (h.paths.path hsome).2
        rw [childPath, if_neg hdir] at hproper hne
        exact hproper.name_ne hne
    · simp [hused] at hchild
  · rintro ⟨hne, hslash, data, hdata⟩
    obtain ⟨n, hget, hcontent⟩ := treeOf_some.mp hdata
    obtain ⟨hn, hused, hpath⟩ := fsGet_mem hget
    have hname := childName_iff.mpr ⟨hpath, hslash, fun _ => hne⟩
    refine ⟨n, hn, ?_⟩
    rw [if_pos hused, hname, Option.map_some, ← (Prod.mk.inj hcontent).1]

theorem nodup_children (h : GoodTree ns) : ((children dir ns).map Prod.snd).Nodup := by
  rw [children_names]
  refine (single_iff.mp h.paths.unique).filterMap fun p p' name hp hp' => ?_
  rw [(childName_iff.mp hp).1, (childName_iff.mp hp').1]

theorem newline_mem_lineBody {type : FsType} {name : CStr} :
    newline ∈ lineBody (kindOf type) name ↔ newline ∈ name := by
  have hkind : newline ∉ kindOf type := by cases type <;> decide
  have hfirst : newline ∉ ascii "  " := by decide
  have hmiddle : newline ∉ ascii "   " := by decide
  simp [lineBody, hkind, hfirst, hmiddle]

theorem lineBody_inj {type type' : FsType} {name name' : CStr}
    (h : lineBody (kindOf type) name = lineBody (kindOf type') name') : name = name' := by
  have hlen : (ascii "  " ++ kindOf type ++ ascii "   ").length =
    (ascii "  " ++ kindOf type' ++ ascii "   ").length := by
    simp only [List.length_append, length_kindOf]
  exact (List.append_inj h hlen).2

theorem unbroken_iff (h : GoodTree ns) : Unbroken (treeOf ns) dir ↔ ∀ c ∈ children dir ns, newline ∉ c.2 :=
  ⟨fun hall _ hc => hall _ _ ((mem_children h).mp hc), fun hall _ _ hchild => hall _ ((mem_children h).mpr hchild)⟩

theorem showsChildren_iff (h : GoodTree ns) :
    ShowsChildren (treeOf ns) dir (fsLines ns dir).flatten ↔ Unbroken (treeOf ns) dir := by
  rw [unbroken_iff h]
  constructor
  · rintro (⟨-, hnone⟩ | ⟨lines, -, -, hbreaks, -, hlines⟩) ⟨type, name⟩ hc hbreak
    · exact hnone name type ((mem_children h).mp hc)
    · have hmem := (hlines _).mpr ⟨name, type, (mem_children h).mp hc, rfl⟩
      exact hbreaks _ hmem (newline_mem_lineBody.mpr hbreak)
  · intro hbreaks
    by_cases hnil : children dir ns = []
    · left
      refine ⟨by rw [fsLines, if_pos hnil]; rfl, fun name type hchild => ?_⟩
      have hmem := (mem_children h).mpr hchild
      rw [hnil] at hmem
      cases hmem
    · right
      refine ⟨(children dir ns).map fun c => lineBody (kindOf c.1) c.2, by simpa using hnil, ?_, ?_, ?_, ?_⟩
      · refine List.Nodup.map_on ?_ (List.Nodup.of_map _ (nodup_children h))
        intro c hc c' hc' heq
        exact List.inj_on_of_nodup_map (nodup_children h) hc hc' (lineBody_inj heq)
      · intro l hl
        obtain ⟨c, hc, rfl⟩ := List.mem_map.mp hl
        exact fun hbreak => hbreaks c hc (newline_mem_lineBody.mp hbreak)
      · rw [fsLines, if_neg hnil, List.flatMap_map]
        rfl
      · intro l
        rw [List.mem_map]
        constructor
        · rintro ⟨⟨type, name⟩, hc, rfl⟩
          exact ⟨name, type, (mem_children h).mp hc, rfl⟩
        · rintro ⟨name, type, hchild, rfl⟩
          exact ⟨(type, name), (mem_children h).mpr hchild, rfl⟩

theorem nul_not_mem (h : GoodTree ns) : 0 ∉ (fsLines ns dir).flatten := by
  unfold fsLines
  split
  · decide
  · intro hmem
    obtain ⟨l, hl, h0⟩ := List.mem_flatten.mp hmem
    obtain ⟨⟨type, name⟩, hc, rfl⟩ := List.mem_map.mp hl
    obtain ⟨-, -, data, hdata⟩ := (mem_children h).mp hc
    have hnul := (h.proper _ (by rw [hdata]; simp)).2
    have hname : 0 ∉ name := by
      unfold childPath at hnul
      split at hnul <;> simp_all
    have hkind : 0 ∉ kindOf type := by cases type <;> decide
    have hfirst : 0 ∉ ascii "  " := by decide
    have hmiddle : 0 ∉ ascii "   " := by decide
    simp [lineOf, lineBody, hkind, hfirst, hmiddle, hname] at h0

end Good

/-! ## When it is right -/

theorem ShowsChildren.head {t : Tree} {dir text : CStr} (h : ShowsChildren t dir text) : text.head? = some 0x20 := by
  obtain ⟨rfl, -⟩ | ⟨lines, hne, -, -, rfl, hlines⟩ := h
  · rfl
  · obtain ⟨l, rest, rfl⟩ := List.exists_cons_of_ne_nil hne
    obtain ⟨name, type, -, rfl⟩ := (hlines _).mp List.mem_cons_self
    rfl

theorem not_showsChildren_virtual {t : Tree} {dir norm : CStr} {lines : List CStr}
    (h : virtualLines norm = some lines) :
    ¬ShowsChildren t dir lines.flatten := by
  intro hshows
  have hhead := hshows.head
  unfold virtualLines at h
  split_ifs at h
  all_goals
    rw [← Option.some.inj h] at hhead
    exact absurd hhead (by decide)

theorem nul_not_mem_virtual {norm : CStr} {lines : List CStr} (h : virtualLines norm = some lines) :
    0 ∉ lines.flatten := by
  unfold virtualLines at h
  split_ifs at h
  all_goals
    rw [← Option.some.inj h]
    decide

/-- With room for all the lines they must be the right ones, and without it the text must end with one of them. -/
def Ends (right : Prop) (lines : List CStr) (max : Nat) : Prop :=
  (lines.flatten.length < max → right) ∧
    (max ≤ lines.flatten.length → ∃ k, (lines.take k).flatten.length = max - 1)

theorem shows_cut_iff {t : Tree} {dir : CStr} {lines : List CStr} {max : Nat} :
    Shows t dir lines max (lines.flatten.take (max - 1)) ↔ Ends (ShowsChildren t dir lines.flatten) lines max := by
  refine and_congr (imp_congr_right fun hroom => ?_) (imp_congr_right fun hfull => exists_congr fun k => ?_)
  · rw [List.take_of_length_le (by omega)]
  · have hlen : (lines.flatten.take (max - 1)).length = max - 1 := by
      rw [List.length_take]
      omega
    have hfirst : (lines.take k).flatten <+: lines.flatten := by
      refine ⟨(lines.drop k).flatten, ?_⟩
      rw [← List.flatten_append, List.take_append_drop]
    constructor
    · intro htext
      rw [← htext, hlen]
    · intro hk
      rw [← hk]
      exact (List.prefix_iff_eq_take.mp hfirst).symm

theorem cstr_listed {b b' : Buf} {lines : List CStr} {max : Nat} (hnul : 0 ∉ lines.flatten)
    (hbytes : 0 < max → let text := lines.flatten.take (max - 1)
      b'.bytes (text.length + 1) = text ++ [0]) :
    (if max = 0 then b else b').cstr max = lines.flatten.take (max - 1) := by
  split
  · next hmax =>
    subst hmax
    rfl
  · next hmax =>
    have hpos : 0 < max := Nat.pos_of_ne_zero hmax
    exact Buf.cstr_ended (hbytes hpos) (length_take_lt hpos _) fun hmem => hnul (List.mem_of_mem_take hmem)

/-- What is asked of `fs_list`: it accepts a directory only, and shows what is in it. -/
def FsListRight (ns : Nodes) (dir : CStr) (max : Nat) : Prop :=
  ∀ b out, fsListCall ns dir max b = some out →
    (treeOf ns).IsDir dir ∧ Shows (treeOf ns) dir (fsLines ns dir) max (out.cstr max)

/-- A directory of the tree, or a virtual one. -/
def Folder (t : Tree) (norm : CStr) : Prop := t.IsDir norm ∨ virtualLines norm ≠ none

def VfsListRight (p : Policy) (ns : Nodes) (cwd : CStr) (path : Option CStr) (max : Nat) : Prop :=
  ∀ b out, vfsListCall p ns cwd path max b = some out → ∃ norm, vfsPath p cwd (path.getD cwd) capFsRead = some norm ∧
    Folder (treeOf ns) norm ∧ Shows (treeOf ns) norm (vfsLines ns norm) max (out.cstr max)

/-- What `SYS_FS_LIST` stores for its caller is a string. -/
def SysListRight (env : Env) (cur : Nat) (k : Kernel) (stale : Buf) (a1 a2 a3 : U64) : Prop :=
  ∀ s ∈ (fsListOut env cur stale a1 a2 a3 k).trace, 0 ∈ s.bytes

section Right

variable {ns : Nodes}

theorem fsListRight_iff (h : GoodTree ns) (dir : CStr) (max : Nat) :
    FsListRight ns dir max ↔ (treeOf ns).IsDir dir ∧ Ends (Unbroken (treeOf ns) dir) (fsLines ns dir) max := by
  have hcstr : ∀ b, (if max = 0 then b else fsListInto ns dir max b).cstr max =
    (fsLines ns dir).flatten.take (max - 1) :=
    fun b => cstr_listed (nul_not_mem h) fun hmax => bytes_fsListInto dir hmax ns b
  have hshows : ∀ b, Shows (treeOf ns) dir (fsLines ns dir) max
    ((if max = 0 then b else fsListInto ns dir max b).cstr max) ↔
      Ends (Unbroken (treeOf ns) dir) (fsLines ns dir) max := by
    intro b
    rw [hcstr, shows_cut_iff, Ends, showsChildren_iff h]
    rfl
  constructor
  · intro hright
    have hdir := hright (fun _ => 0) _ rfl
    exact ⟨hdir.1, (hshows _).mp hdir.2⟩
  · rintro ⟨hdir, hends⟩ b out hout
    obtain rfl := Option.some.inj hout
    exact ⟨hdir, (hshows b).mpr hends⟩

theorem nul_not_mem_vfs (h : GoodTree ns) (norm : CStr) : 0 ∉ (vfsLines ns norm).flatten := by
  unfold vfsLines
  cases hlines : virtualLines norm with
  | none => exact nul_not_mem h
  | some lines => exact nul_not_mem_virtual hlines

theorem showsChildren_vfs_iff (h : GoodTree ns) (norm : CStr) :
    ShowsChildren (treeOf ns) norm (vfsLines ns norm).flatten ↔ virtualLines norm = none ∧
    Unbroken (treeOf ns) norm := by
  unfold vfsLines
  cases hlines : virtualLines norm with
  | none => simpa using showsChildren_iff h
  | some lines => simpa using not_showsChildren_virtual hlines

theorem vfsListRight_iff (h : GoodTree ns) (p : Policy) (cwd : CStr) (path : Option CStr) (max : Nat) :
    VfsListRight p ns cwd path max ↔ ∀ norm ∈ vfsPath p cwd (path.getD cwd) capFsRead,
      Folder (treeOf ns) norm ∧ Ends (virtualLines norm = none ∧ Unbroken (treeOf ns) norm) (vfsLines ns norm) max := by
  unfold VfsListRight vfsListCall
  cases vfsPath p cwd (path.getD cwd) capFsRead with
  | none => simp
  | some norm =>
    have hcstr : ∀ b, (if max = 0 then b else listInto ns norm max b).cstr max =
      (vfsLines ns norm).flatten.take (max - 1) := by
      refine fun b => cstr_listed (nul_not_mem_vfs h norm) fun hmax => ?_
      rw [← listing_eq]
      exact bytes_listInto norm hmax ns b
    have hshows : ∀ b, Shows (treeOf ns) norm (vfsLines ns norm) max
      ((if max = 0 then b else listInto ns norm max b).cstr max) ↔
        Ends (virtualLines norm = none ∧ Unbroken (treeOf ns) norm) (vfsLines ns norm) max := by
      intro b
      rw [hcstr, shows_cut_iff, Ends, showsChildren_vfs_iff h]
      rfl
    constructor
    · intro hright norm' hnorm'
      obtain rfl := Option.some.inj hnorm'
      obtain ⟨norm'', heq, hfolder, htext⟩ := hright (fun _ => 0) _ rfl
      obtain rfl := Option.some.inj heq
      exact ⟨hfolder, (hshows _).mp htext⟩
    · rintro hright b out hout
      obtain rfl := Option.some.inj hout
      obtain ⟨hfolder, hends⟩ := hright norm rfl
      exact ⟨norm, rfl, hfolder, (hshows b).mpr hends⟩

theorem nul_mem_bytes_iff (h : GoodTree ns) (norm : CStr) (stale : Buf) {n : Nat} (hn : 0 < n) (hn' : n ≤ 4096) :
    0 ∈ (listInto ns norm 4096 stale).bytes n ↔ (listing ns norm).length < n ∨ n = 4096 := by
  have hbytes := bytes_listInto norm (by decide : 0 < 4096) ns stale
  dsimp only at hbytes
  have hnul : 0 ∉ (listing ns norm).take (4096 - 1) := by
    rw [listing_eq]
    exact fun hmem => nul_not_mem_vfs h norm (List.mem_of_mem_take hmem)
  have hlen : ((listing ns norm).take (4096 - 1)).length = min 4095 (listing ns norm).length := List.length_take
  by_cases hroom : ((listing ns norm).take (4096 - 1)).length < n
  · refine iff_of_true ?_ (by omega)
    have hmem : 0 ∈ (listInto ns norm 4096 stale).bytes (((listing ns norm).take (4096 - 1)).length + 1) := by
      rw [hbytes]
      exact List.mem_append_right _ (List.mem_singleton_self 0)
    rw [← Buf.take_bytes _ (Nat.succ_le_of_lt hroom)] at hmem
    exact List.mem_of_mem_take hmem
  · refine iff_of_false (fun hmem => hnul ?_) (by omega)
    rw [← Buf.take_bytes _ (by omega : n ≤ ((listing ns norm).take (4096 - 1)).length + 1), hbytes,
      List.take_append_of_le_length (by omega)] at hmem
    exact List.mem_of_mem_take hmem

theorem sysListRight_iff {k : Kernel} (h : GoodTree k.nodes) (env : Env) (cur : Nat) (stale : Buf) (a1 a2 a3 : U64) :
    SysListRight env cur k stale a1 a2 a3 ↔
      (May (k.proc cur) capFsRead → ∀ path ∈ strArg env k cur a1 fsNameMax,
        ∀ norm ∈ vfsPath (policy cur k) root path capFsRead, a2 ≠ 0 → userPtrOk (k.proc cur) a2 (listSize a3) = true →
          (listing k.nodes norm).length < (listSize a3).toNat ∨ (listSize a3).toNat = 4096) := by
  unfold SysListRight fsListOut
  have hcap := syscallCap_run cur capFsRead k
  by_cases hmay : May (k.proc cur) capFsRead
  · rw [if_pos hmay] at hcap
    rw [silent_bind_ok (a := ()) (by rw [hcap]), hcap]
    cases hpath : strArg env k cur a1 fsNameMax with
    | none =>
      rw [silent_bind_error (userStr_run_none hpath).2]
      simp
    | some path =>
      have hstr := userStr_run_some hpath
      rw [silent_bind_ok hstr.2, hstr.1, Call.read_bind]
      cases hnorm : vfsPath (policy cur k) root path capFsRead with
      | none => simp [hnorm, Call.stop]
      | some norm =>
        have hsize := listSize_pos a3
        have hne : listSize a3 ≠ 0 := by
          rintro hzero
          simp [hzero] at hsize
        by_cases ha : a2 = 0
        · dsimp only
          rw [when_bind_false (by simp [ha])]
          simp [ha, pure_apply]
        · dsimp only
          rw [when_bind_true ⟨ha, hne⟩, copyFrom_run, BitVec.ofNat_toNat, BitVec.setWidth_eq]
          have hnul := nul_mem_bytes_iff h norm stale hsize (listSize_le a3)
          by_cases hptr : userPtrOk (k.proc cur) a2 (listSize a3) = true
          · rw [if_pos hptr]
            simp only [List.mem_singleton, forall_eq, hnul, hmay, hptr, hnorm, Option.mem_some_iff, forall_eq',
              true_implies]
            exact ⟨fun hall _ => hall, fun hall => hall ha⟩
          · simp [hptr]
  · rw [if_neg hmay] at hcap
    rw [silent_bind_error (e := err) (by rw [hcap]), hcap]
    simp [hmay]

end Right

open Table (nodesOf fsInit ProperStep)

/-- `/nada` is no directory, and yet the shell can go to it. Eight bytes have no room for the root's one line. -/
theorem nada_listed :
    ¬FsListRight (nodesOf (fsInit fun _ => none)) (ascii "/nada") 64 ∧
      ¬FsListRight (nodesOf (fsInit fun _ => none)) root 8 := by
  have hgood := Table.goodTree_run (Run.nil (fsInit fun _ => none))
  rw [fsListRight_iff hgood, fsListRight_iff hgood]
  constructor
  · rintro ⟨hroot | ⟨data, hdata⟩, -⟩
    · exact absurd hroot (by decide)
    · have hnone : treeOf (nodesOf (fsInit fun _ => none)) (ascii "/nada") = none := by decide +kernel
      simp [hnone] at hdata
  · have hlines : fsLines (nodesOf (fsInit fun _ => none)) root = [ascii "  (vazio)\n"] := by decide +kernel
    rintro ⟨-, -, hcut⟩
    rw [hlines] at hcut
    obtain ⟨_ | k, hk⟩ := hcut (by decide)
    · exact absurd hk (by decide)
    · rw [List.take_succ_cons, List.take_nil] at hk
      exact absurd hk (by decide)

/-- A listing is right where the path is a directory and the text holds whole lines without broken names. -/
theorem listing_right_iff {heap : Table.Heap} {ops : List Table.Op} {t : Table.Ramfs}
    (h : Run ProperStep (fsInit heap) ops t) :
    (∀ dir max, FsListRight (nodesOf t) dir max ↔
      (Table.tree t).IsDir dir ∧ Ends (Unbroken (Table.tree t) dir) (fsLines (nodesOf t) dir) max) ∧
    (∀ p cwd path max, VfsListRight p (nodesOf t) cwd path max ↔
      ∀ norm ∈ vfsPath p cwd (path.getD cwd) capFsRead, Folder (Table.tree t) norm ∧
        Ends (virtualLines norm = none ∧ Unbroken (Table.tree t) norm) (vfsLines (nodesOf t) norm) max) ∧
    ∀ env cur k stale a1 a2 a3, k.nodes = nodesOf t → (SysListRight env cur k stale a1 a2 a3 ↔
      (May (k.proc cur) capFsRead → ∀ path ∈ strArg env k cur a1 fsNameMax,
        ∀ norm ∈ vfsPath (policy cur k) root path capFsRead, a2 ≠ 0 → userPtrOk (k.proc cur) a2 (listSize a3) = true →
          (listing k.nodes norm).length < (listSize a3).toNat ∨ (listSize a3).toNat = 4096)) := by
  have hgood := Table.goodTree_run h
  refine ⟨fsListRight_iff hgood, vfsListRight_iff hgood, fun env cur k stale a1 a2 a3 hk => ?_⟩
  exact sysListRight_iff (hk ▸ hgood) env cur stale a1 a2 a3

/-- A directory in the root. -/
def oneFolder : Table.Ramfs := (Table.apply (fsInit fun _ => none) (.create (ascii "/d") .dir)).1

theorem listing_right_iff_one : FsListRight (nodesOf oneFolder) root 64 ∧ ¬FsListRight (nodesOf oneFolder) root 12 := by
  have hproper : Proper (ascii "/d") := by
    refine ⟨⟨[ascii "d"], ?_, rfl⟩, by decide⟩
    rw [List.forall_mem_singleton]
    exact ⟨⟨by decide, by decide⟩, by decide, by decide⟩
  have hrun : Run ProperStep (fsInit fun _ => none) [.create (ascii "/d") .dir] oneFolder := by
    refine Run.single ⟨?_, ?_, rfl⟩
    · simpa [Table.Op.paths] using hproper
    · decide +kernel
  have hiff := (listing_right_iff hrun).1
  have hlines : fsLines (nodesOf oneFolder) root = [ascii "  <DIR>   d\n"] := by decide +kernel
  rw [hiff, hiff, hlines]
  constructor
  · have hnames : children root (nodesOf oneFolder) = [(.dir, ascii "d")] := by decide +kernel
    refine ⟨Or.inl rfl, fun _ => (unbroken_iff (Table.goodTree_run hrun)).mpr ?_, fun hfull => absurd hfull (by decide)⟩
    rw [hnames, List.forall_mem_singleton]
    decide
  · rintro ⟨-, -, hcut⟩
    obtain ⟨_ | k, hk⟩ := hcut (by decide)
    · exact absurd hk (by decide)
    · rw [List.take_succ_cons, List.take_nil] at hk
      exact absurd hk (by decide)

end Siathos.Syscall
