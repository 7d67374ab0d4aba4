import Mathlib.Data.List.Forall2
import Siathos.Elf.Reads

/-!
# Files that are loaded

A linker writes the header, the program headers and the contents of the segments one after the other. From such a file
the loader gets the entry point and the segments back.
-/

open Lib Siathos.Proc.Memory

namespace Siathos.Elf

variable {img : Image} {off : Nat}

/-! ## Bytes in an image -/

/-- The bytes stand in the image from the offset on. -/
def Holds (img : Image) (off : Nat) (bs : List UInt8) : Prop := bs <+: img.drop off

theorem Holds.append {bs bs' : List UInt8} :
    Holds img off (bs ++ bs') ↔ Holds img off bs ∧ Holds img (off + bs.length) bs' := by
  unfold Holds
  constructor
  · rintro ⟨rest, hrest⟩
    rw [List.append_assoc] at hrest
    refine ⟨⟨bs' ++ rest, hrest⟩, rest, ?_⟩
    rw [← List.drop_drop, ← hrest, List.drop_left]
  · rintro ⟨⟨rest, hrest⟩, hnext⟩
    rw [← List.drop_drop, ← hrest, List.drop_left] at hnext
    obtain ⟨rest', rfl⟩ := hnext
    exact ⟨rest', by rw [← hrest, List.append_assoc]⟩

theorem Holds.take {bs : List UInt8} (h : Holds img off bs) : (img.drop off).take bs.length = bs :=
  (List.prefix_iff_eq_take.mp h).symm

theorem Holds.length_le {bs : List UInt8} (h : Holds img off bs) (hne : bs ≠ []) : off + bs.length ≤ img.length := by
  have hlen := List.IsPrefix.length_le h
  have hpos := List.length_pos_of_ne_nil hne
  rw [List.length_drop] at hlen
  omega

theorem Holds.getElem? {b : UInt8} (h : Holds img off [b]) : img[off]? = some b := by
  obtain ⟨rest, hrest⟩ := h
  have hfirst : (img.drop off)[0]? = some b := by rw [← hrest]; rfl
  rwa [List.getElem?_drop, Nat.add_zero] at hfirst

theorem Holds.number (himg : InMemory img) {n : Nat} (hn : 0 < n) {v : BitVec (8 * n)} {p : BitVec 64}
    (h : Holds img p.toNat (littleEndian n v.toNat)) : readNumber n img p = .ok v := by
  have hne : littleEndian n v.toNat ≠ [] := by
    rw [← List.length_pos_iff, length_littleEndian]
    exact hn
  have hin := h.length_le hne
  have htake := h.take
  rw [length_littleEndian] at hin htake
  rw [readNumber_ok himg hin, htake, putBytes_littleEndian]

/-! ## Records -/

def Header.bytes (h : Header) : List UInt8 :=
  elfMagic ++ [2] ++ [1] ++ List.replicate 10 0 ++ littleEndian 2 2 ++ littleEndian 2 h.machine.toNat ++
    littleEndian 4 1 ++
    littleEndian 8 h.entry.toNat ++ littleEndian 8 h.phoff.toNat ++ littleEndian 8 0 ++ littleEndian 4 0 ++
    littleEndian 2 64 ++ littleEndian 2 h.phentsz.toNat ++ littleEndian 2 h.phnum.toNat ++ littleEndian 2 64 ++
    littleEndian 2 0 ++ littleEndian 2 0

def Phdr.bytes (d : Phdr) : List UInt8 :=
  littleEndian 4 d.kind.toNat ++ littleEndian 4 d.flags.toNat ++ littleEndian 8 d.poff.toNat ++
    littleEndian 8 d.pvaddr.toNat ++ littleEndian 8 d.pvaddr.toNat ++ littleEndian 8 d.pfilesz.toNat ++
    littleEndian 8 d.pmemsz.toNat ++ littleEndian 8 0x1000

theorem Header.length_bytes (h : Header) : h.bytes.length = 64 := by
  simp [Header.bytes, elfMagic]

theorem Phdr.length_bytes (d : Phdr) : d.bytes.length = 56 := by
  simp [Phdr.bytes]

theorem Header.at_of_holds (himg : InMemory img) {h : Header} (hh : Holds img 0 h.bytes) : h.At img := by
  have hread : ∀ {n : Nat} {v : BitVec (8 * n)} (i : Nat), 0 < n → i < 64 → Holds img i (littleEndian n v.toNat) →
      readNumber n img (BitVec.ofNat 64 i) = .ok v := by
    intro n v i hn hi hv
    refine Holds.number himg hn ?_
    rwa [BitVec.toNat_ofNat, Nat.mod_eq_of_lt (by omega)]
  simp only [Header.bytes, Holds.append, elfMagic, List.length_append, List.length_cons, List.length_nil,
    List.length_replicate, length_littleEndian] at hh
  obtain ⟨⟨⟨⟨⟨⟨⟨⟨⟨⟨⟨⟨-, hmachine⟩, -⟩, hentry⟩, hphoff⟩, -⟩, -⟩, -⟩, hphentsz⟩, hphnum⟩, -⟩, -⟩, -⟩ := hh
  exact ⟨hread 18 (by decide) (by decide) hmachine, hread 24 (by decide) (by decide) hentry,
    hread 32 (by decide) (by decide) hphoff, hread 54 (by decide) (by decide) hphentsz,
    hread 56 (by decide) (by decide) hphnum⟩

theorem Header.ident_of_holds {h : Header} (hh : Holds img 0 h.bytes) :
    img.take 4 = elfMagic ∧ img[4]? = some 2 ∧ img[5]? = some 1 := by
  simp only [Header.bytes, Holds.append] at hh
  obtain ⟨⟨⟨⟨⟨⟨⟨⟨⟨⟨⟨⟨⟨⟨⟨⟨hmagic, hclass⟩, hdata⟩, -⟩, -⟩, -⟩, -⟩, -⟩, -⟩, -⟩, -⟩, -⟩, -⟩, -⟩, -⟩, -⟩, -⟩ := hh
  exact ⟨hmagic.take, hclass.getElem?, hdata.getElem?⟩

theorem Phdr.at_of_holds (himg : InMemory img) {d : Phdr} (hh : Holds img off d.bytes) :
    d.At img (BitVec.ofNat 64 off) := by
  have hin := hh.length_le (by rw [← List.length_pos_iff, d.length_bytes]; decide)
  rw [d.length_bytes] at hin
  have haddr : ∀ i < 56, (BitVec.ofNat 64 off + BitVec.ofNat 64 i).toNat = off + i := by
    intro i hi
    unfold InMemory at himg
    rw [BitVec.toNat_add, BitVec.toNat_ofNat, BitVec.toNat_ofNat]
    omega
  have hread : ∀ {n : Nat} {v : BitVec (8 * n)} (i : Nat), 0 < n → i < 56 →
      Holds img (off + i) (littleEndian n v.toNat) →
      readNumber n img (BitVec.ofNat 64 off + BitVec.ofNat 64 i) = .ok v := by
    intro n v i hn hi hv
    refine Holds.number himg hn ?_
    rwa [haddr i hi]
  simp only [Phdr.bytes, Holds.append, List.length_append, length_littleEndian] at hh
  obtain ⟨⟨⟨⟨⟨⟨⟨hkind, hflags⟩, hpoff⟩, hpvaddr⟩, -⟩, hpfilesz⟩, hpmemsz⟩, -⟩ := hh
  refine ⟨?_, hread 4 (by decide) (by decide) hflags, hread 8 (by decide) (by decide) hpoff,
    hread 16 (by decide) (by decide) hpvaddr, hread 32 (by decide) (by decide) hpfilesz,
    hread 40 (by decide) (by decide) hpmemsz⟩
  exact (congrArg (u32 img) (BitVec.add_zero _).symm).trans (hread 0 (by decide) (by decide) hkind)

/-! ## The table -/

/-- The region of the program header, if it is one of a segment to load. -/
def Phdr.load (d : Phdr) : Option Ureg := if d.kind = ptLoad then some d.region else none

/-- A table with the program headers `ds`, none of which is refused. -/
theorem scan_ok {table : List (BitVec 64)} {ds : List Phdr}
    (htable : List.Forall₂ (fun ph d => Phdr.At d img ph) table ds) (hok : ∀ d ∈ ds, d.segment img.length = .ok d.load)
    {regs : List Ureg} (hlen : regs.length < 7) :
    scan img table regs = .ok (regs ++ (ds.filterMap Phdr.load).take (7 - regs.length)) := by
  induction htable generalizing regs with
  | nil => simp [scan]
  | @cons ph d table ds hat htable ih =>
    rw [List.forall_mem_cons] at hok
    cases hload : d.load with
    | none =>
      rw [scan_none (hat.read.trans (hok.1.trans (congrArg _ hload))), List.filterMap_cons_none hload]
      exact ih hok.2 hlen
    | some r =>
      rw [scan_some (hat.read.trans (hok.1.trans (congrArg _ hload))), List.filterMap_cons_some hload]
      split
      · have hroom : 7 - regs.length = 1 := by omega
        rw [hroom, List.take_succ_cons, List.take_zero]
      · obtain ⟨n, hn⟩ : ∃ n, 7 - regs.length = n + 1 := ⟨6 - regs.length, by omega⟩
        have hnext : 7 - (regs ++ [r]).length = n := by
          rw [List.length_append, List.length_singleton]
          omega
        rw [ih hok.2 (by rw [List.length_append, List.length_singleton]; omega), hnext, hn, List.take_succ_cons,
          List.append_assoc]
        rfl

theorem Header.table_eq (h : Header) {phoff phentsz : Nat} (hoff : h.phoff = BitVec.ofNat 64 phoff)
    (hsize : h.phentsz.toNat = phentsz) :
    h.table = (List.range' phoff h.phnum.toNat phentsz).map (BitVec.ofNat 64) := by
  subst hsize
  refine List.ext_getElem (by simp [Header.table]) fun i hi hi' => ?_
  simp only [Header.table, List.getElem_map, List.getElem_range, List.getElem_range', hoff]
  rw [BitVec.ofNat_add, Nat.mul_comm]

theorem table_at (himg : InMemory img) {ds : List Phdr} (h : Holds img off (ds.flatMap Phdr.bytes)) :
    List.Forall₂ (fun ph d => Phdr.At d img ph) ((List.range' off ds.length 56).map (BitVec.ofNat 64)) ds := by
  induction ds generalizing off with
  | nil => exact .nil
  | cons d ds ih =>
    rw [List.flatMap_cons, Holds.append, d.length_bytes] at h
    exact .cons (Phdr.at_of_holds himg h.1) (ih h.2)

/-! ## Programs -/

/-- What the linker is given for a segment. -/
structure Segment where
  kind : BitVec 32
  flags : BitVec 32
  vaddr : BitVec 64
  memSz : BitVec 64
  contents : List UInt8
  deriving DecidableEq, Repr

/-- Its program header, with its contents at the offset. -/
def Segment.phdr (s : Segment) (off : Nat) : Phdr :=
  { kind := s.kind, flags := s.flags, poff := BitVec.ofNat 64 off, pvaddr := s.vaddr,
    pfilesz := BitVec.ofNat 64 s.contents.length, pmemsz := s.memSz }

structure Program where
  entry : BitVec 64
  segments : List Segment
  deriving DecidableEq, Repr

/-- The program headers of segments whose contents stand one after the other. -/
def layout : Nat → List Segment → List Phdr
  | _, [] => []
  | off, s :: rest => s.phdr off :: layout (off + s.contents.length) rest

def Program.phdrs (p : Program) : List Phdr := layout (64 + 56 * p.segments.length) p.segments

def Program.header (p : Program) : Header :=
  { machine := 0x3E, entry := p.entry, phoff := 64, phentsz := 56, phnum := BitVec.ofNat 16 p.segments.length }

/-- The file of the program. -/
def Program.link (p : Program) : Image :=
  p.header.bytes ++ p.phdrs.flatMap Phdr.bytes ++ p.segments.flatMap Segment.contents

/-- The segments that are there to be loaded. -/
def Program.loads (p : Program) : List Segment := p.segments.filter (·.kind = ptLoad)

/-- The program headers fit into their table, the file into memory, and the segments below the kernel. -/
structure Program.Linkable (p : Program) : Prop where
  count : p.segments.length < 2 ^ 16
  small : InMemory p.link
  user : ∀ s ∈ p.loads, s.vaddr < kernelBase
  loads : p.loads ≠ []

/-- The region is what the segment says, and its contents in the image are those of the segment. -/
structure Represents (img : Image) (s : Segment) (r : Ureg) : Prop where
  vaddr : r.vaddr = s.vaddr
  memSz : r.memSz = s.memSz
  flags : r.flags = s.flags
  fileSz : r.fileSz.toNat = s.contents.length
  contents : Holds img r.src.toNat s.contents
  inside : r.src.toNat + r.fileSz.toNat ≤ img.length

theorem length_layout (off : Nat) (segments : List Segment) : (layout off segments).length = segments.length := by
  induction segments generalizing off with
  | nil => rfl
  | cons s segments ih => rw [layout, List.length_cons, ih, List.length_cons]

theorem length_flatMap_bytes (ds : List Phdr) : (ds.flatMap Phdr.bytes).length = 56 * ds.length := by
  induction ds with
  | nil => rfl
  | cons d ds ih => simp [ih, d.length_bytes, Nat.mul_add, Nat.add_comm]

theorem layout_represents (himg : InMemory img) {segments : List Segment}
    (h : Holds img off (segments.flatMap Segment.contents)) (hin : off ≤ img.length) :
    List.Forall₂ (Represents img) (segments.filter (·.kind = ptLoad)) ((layout off segments).filterMap Phdr.load) ∧
      ∀ d ∈ layout off segments, (d.poff + d.pfilesz).toNat ≤ img.length := by
  induction segments generalizing off with
  | nil => exact ⟨.nil, by simp [layout]⟩
  | cons s segments ih =>
    rw [List.flatMap_cons, Holds.append] at h
    have hend : off + s.contents.length ≤ img.length := by
      have hlen := List.IsPrefix.length_le h.1
      rw [List.length_drop] at hlen
      omega
    obtain ⟨hall, hinside⟩ := ih h.2 hend
    unfold InMemory at himg
    have hoff : (BitVec.ofNat 64 off).toNat = off := Nat.mod_eq_of_lt (by omega)
    have hlen : (BitVec.ofNat 64 s.contents.length).toNat = s.contents.length := Nat.mod_eq_of_lt (by omega)
    rw [layout]
    refine ⟨?_, List.forall_mem_cons.mpr ⟨?_, hinside⟩⟩
    · by_cases hkind : s.kind = ptLoad
      · have hload : (s.phdr off).load = some (s.phdr off).region := if_pos hkind
        rw [List.filter_cons_of_pos (by simpa using hkind), List.filterMap_cons_some hload]
        refine .cons ⟨rfl, rfl, rfl, hlen, ?_, ?_⟩ hall
        · exact hoff.symm ▸ h.1
        · change (BitVec.ofNat 64 off).toNat + (BitVec.ofNat 64 s.contents.length).toNat ≤ _
          rwa [hoff, hlen]
      · have hload : (s.phdr off).load = none := if_neg hkind
        rw [List.filter_cons_of_neg (by simpa using hkind), List.filterMap_cons_none hload]
        exact hall
    · change (BitVec.ofNat 64 off + BitVec.ofNat 64 s.contents.length).toNat ≤ _
      rw [BitVec.toNat_add, hoff, hlen, Nat.mod_eq_of_lt (by omega)]
      exact hend

theorem layout_user {segments : List Segment} {got : Nat}
    (huser : ∀ s ∈ segments.filter (·.kind = ptLoad), s.vaddr < kernelBase)
    (hin : ∀ d ∈ layout off segments, (d.poff + d.pfilesz).toNat ≤ got) :
    ∀ d ∈ layout off segments, d.segment got = .ok d.load := by
  induction segments generalizing off with
  | nil => simp [layout]
  | cons s segments ih =>
    rw [layout, List.forall_mem_cons] at hin ⊢
    refine ⟨?_, ih (fun s' hs' => huser s' ?_) hin.2⟩
    · unfold Phdr.segment Phdr.load
      change (if s.kind ≠ ptLoad then _ else _ : Except Stop (Option Ureg)) = .ok (if s.kind = ptLoad then _ else _)
      by_cases hkind : s.kind = ptLoad
      · have hlow := huser s (List.mem_filter.mpr ⟨List.mem_cons_self, by simpa using hkind⟩)
        rw [if_neg (not_not.mpr hkind), if_neg (Nat.not_lt.mpr hin.1), if_pos hkind]
        exact if_neg (BitVec.not_le.mpr hlow)
      · rw [if_pos hkind, if_neg hkind]
    · obtain ⟨hmem, hk⟩ := List.mem_filter.mp hs'
      exact List.mem_filter.mpr ⟨List.mem_cons_of_mem _ hmem, hk⟩

variable {p : Program}

theorem Program.link_holds (p : Program) :
    Holds p.link 0 p.header.bytes ∧ Holds p.link 64 (p.phdrs.flatMap Phdr.bytes) ∧
      Holds p.link (64 + 56 * p.segments.length) (p.segments.flatMap Segment.contents) := by
  have hall : Holds p.link 0 (p.header.bytes ++ p.phdrs.flatMap Phdr.bytes ++ p.segments.flatMap Segment.contents) :=
    List.prefix_refl _
  rw [Holds.append, Holds.append, List.length_append, p.header.length_bytes, length_flatMap_bytes, Program.phdrs,
    length_layout, Nat.zero_add, Nat.zero_add] at hall
  exact ⟨hall.1.1, hall.1.2, hall.2⟩

theorem Program.length_link (p : Program) : 64 + 56 * p.segments.length ≤ p.link.length := by
  rw [Program.link, List.length_append, List.length_append, p.header.length_bytes, length_flatMap_bytes, Program.phdrs,
    length_layout]
  omega

theorem Program.Linkable.count_pos (h : p.Linkable) : 0 < p.segments.length := by
  refine List.length_pos_of_ne_nil fun hnil => h.loads ?_
  rw [Program.loads, hnil]
  rfl

theorem Program.Linkable.phnum (h : p.Linkable) : p.header.phnum.toNat = p.segments.length :=
  Nat.mod_eq_of_lt h.count

theorem Program.Linkable.passes (h : p.Linkable) : p.header.Passes p.link.length := by
  have hlen := p.length_link
  have hcount := h.count
  have hpos := h.count_pos
  have hnum := h.phnum
  refine ⟨rfl, fun hzero => ?_, by change 56 ≤ 56; omega, ?_⟩
  · rw [hzero] at hnum
    change 0 = _ at hnum
    omega
  · have hsize : p.header.tableSize = p.segments.length * 56 := congrArg (· * 56) hnum
    have hoff : p.header.phoff.toNat = 64 := rfl
    rw [hsize, BitVec.toNat_add, BitVec.toNat_ofNat, hoff]
    omega

theorem Program.Linkable.checkHeader (h : p.Linkable) : checkHeader p.link = .ok p.header := by
  have hlen := p.length_link
  obtain ⟨hmagic, hclass, hdata⟩ := Header.ident_of_holds p.link_holds.1
  rw [Elf.checkHeader, if_neg (by omega), if_neg (not_not.mpr hmagic), if_neg (not_not.mpr hclass),
    if_neg (not_not.mpr hdata), (Header.at_of_holds h.small p.link_holds.1).read]
  change p.header.check p.link.length >>= _ = _
  rw [h.passes.check]
  rfl

/-- The regions of the first seven segments. -/
def Program.regions (p : Program) : List Ureg := (p.phdrs.filterMap Phdr.load).take 7

theorem Program.Linkable.represents (h : p.Linkable) : List.Forall₂ (Represents p.link) (p.loads.take 7) p.regions := by
  have hlen := p.length_link
  exact List.forall₂_take 7 (layout_represents h.small p.link_holds.2.2 (by omega)).1

theorem Program.Linkable.regions_ne_nil (h : p.Linkable) : p.regions ≠ [] := by
  intro hnil
  have hlen := h.represents.length_eq
  have hpos := List.length_pos_of_ne_nil h.loads
  rw [hnil, List.length_take, List.length_nil] at hlen
  omega

theorem segments_link (h : p.Linkable) : segments p.link = .ok (p.entry, p.regions) := by
  obtain ⟨-, htable, hcontents⟩ := p.link_holds
  have hlen := p.length_link
  have hinside := (layout_represents h.small hcontents (by omega)).2
  have heq : p.header.table = (List.range' 64 p.header.phnum.toNat 56).map (BitVec.ofNat 64) :=
    p.header.table_eq rfl rfl
  have hat := table_at h.small htable
  rw [Program.phdrs, length_layout, ← h.phnum, ← heq, h.phnum] at hat
  have hscan : scan p.link p.header.table [] = .ok ([] ++ p.regions) :=
    scan_ok hat (layout_user h.user hinside) (by decide)
  rw [segments, h.checkHeader]
  change scan p.link p.header.table [] >>= _ = _
  rw [hscan]
  exact if_neg h.regions_ne_nil

end Siathos.Elf
