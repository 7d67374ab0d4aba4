import Siathos.Boot.Tables
import Siathos.Elf.Link

/-!
# Loading the kernel (`thaisboot/main.c`)

`efi_main` copies the segments of `kernel.elf` to memory that it asks for, from a multiple of 2 MB on. The first tables
lead there from the addresses that the kernel is linked at.
-/

open Lib Siathos.Paging Siathos.Elf

namespace Siathos.Boot

/-- Memory, byte by byte. -/
abbrev Ram := Nat → UInt8

/-- The bytes from `lo` on are those of `f`. -/
def putRange (m : Ram) (lo n : Nat) (f : Nat → UInt8) : Ram := fun a => if lo ≤ a ∧ a < lo + n then f (a - lo) else m a

/-! ## Reading the file -/

/-- Why the loader gives up. `outside` is a read behind what was read of the file, which goes unnoticed. -/
inductive Panic
  | outside
  | empty
  | invalid
  | machine
  deriving DecidableEq, Repr

/-- What the loader prints, if it says anything. -/
def Panic.text : Panic → Option String
  | .outside => none
  | .empty => some "kernel vazio"
  | .invalid => some "elf invalido"
  | .machine => some "elf nao x86_64"

/-- A number of the file. -/
def field {n : Nat} (r : Except Stop (BitVec n)) : Except Panic (BitVec n) := r.mapError fun _ => .outside

/-- The fields of a program header that are read. -/
structure Load where
  vaddr : BitVec 64
  offset : BitVec 64
  filesz : BitVec 64
  memsz : BitVec 64
  deriving DecidableEq, Repr

def readHeader (buf : Image) : Except Panic Header :=
  if buf.length < 64 then .error .empty
  else if buf.take 4 ≠ elfMagic ∨ buf[4]? ≠ some 2 then .error .invalid
  else do
    let machine ← field (u16 buf 18)
    if machine ≠ 0x3E then throw .machine
    let entry ← field (u64 buf 24)
    let phoff ← field (u64 buf 32)
    let phentsz ← field (u16 buf 54)
    let phnum ← field (u16 buf 56)
    return { machine, entry, phoff, phentsz, phnum }

def readLoad (buf : Image) (ph : BitVec 64) : Except Panic (Option Load) := do
  let kind ← field (u32 buf ph)
  if kind ≠ ptLoad then return none
  else
    let vaddr ← field (u64 buf (ph + 16))
    let memsz ← field (u64 buf (ph + 40))
    let filesz ← field (u64 buf (ph + 32))
    let offset ← field (u64 buf (ph + 8))
    return some { vaddr, offset, filesz, memsz }

/-- The segments, from the program headers at these addresses. -/
def readLoads (buf : Image) : List (BitVec 64) → Except Panic (List Load)
  | [] => .ok []
  | ph :: rest => do
    let l ← readLoad buf ph
    let ls ← readLoads buf rest
    return l.toList ++ ls

/-! ## Placing the kernel -/

/-- `kbase` and `ktop`. -/
structure Extent where
  base : BitVec 64
  top : BitVec 64
  deriving DecidableEq, Repr

def Extent.widen (e : Extent) (l : Load) : Extent where
  base := if e.base = 0 ∨ l.vaddr < e.base then l.vaddr else e.base
  top := if l.vaddr + l.memsz > e.top then l.vaddr + l.memsz else e.top

def extent (ls : List Load) : Extent := ls.foldl Extent.widen ⟨0, 0⟩

def Extent.imgSize (e : Extent) : BitVec 64 := e.top - e.base

def Extent.img2mb (e : Extent) : BitVec 64 := (e.imgSize + 0x1FFFFF) >>> 21

/-- The bytes that `AllocatePages` is asked for, in pages. -/
def Extent.pages (e : Extent) : BitVec 64 := (e.img2mb + 1) * 512

/-- What `kphys` is rounded to. -/
def roundUp2mb (a : BitVec 64) : BitVec 64 := (a + 0x1FFFFF) &&& ~~~0x1FFFFF

/-- `memset`, and the loop that copies. -/
def place (buf : Image) (kphys kbase : BitVec 64) (m : Ram) (l : Load) : Ram :=
  let dst := (kphys + (l.vaddr - kbase)).toNat
  putRange (putRange m dst l.memsz.toNat fun _ => 0) dst l.filesz.toNat fun j => buf.getD (l.offset.toNat + j) 0

/-- The kernel in memory. -/
structure Loaded where
  entry : BitVec 64
  extent : Extent
  kphys : BitVec 64
  ram : Ram

/-- The part of `efi_main` from `kernel.elf` on. `alloc` is the address of the pages that were asked for. -/
def loadKernel (buf : Image) (alloc : BitVec 64) (m : Ram) : Except Panic Loaded := do
  let h ← readHeader buf
  let ls ← readLoads buf h.table
  let e := extent ls
  let kphys := roundUp2mb alloc
  return { entry := h.entry, extent := e, kphys, ram := ls.foldl (place buf kphys e.base) m }

/-! ## Reading a linked file -/

theorem readLoads_cons {buf : Image} {ph : BitVec 64} {l : Option Load} (h : readLoad buf ph = .ok l)
    (rest : List (BitVec 64)) : readLoads buf (ph :: rest) = (readLoads buf rest).map (l.toList ++ ·) := by
  rw [readLoads, h]
  cases hrest : readLoads buf rest with
  | error e => rfl
  | ok ls => rfl

def loadOf (r : Proc.Memory.Ureg) : Load := ⟨r.vaddr, r.src, r.fileSz, r.memSz⟩

theorem readLoad_at {buf : Image} {ph : BitVec 64} {d : Phdr} (h : d.At buf ph) :
    readLoad buf ph = .ok (d.load.map loadOf) := by
  rw [readLoad, h.kind, h.poff, h.pvaddr, h.pfilesz, h.pmemsz]
  change (if d.kind ≠ ptLoad then _ else _) = _
  rw [Phdr.load]
  by_cases hkind : d.kind = ptLoad
  · rw [if_neg (not_not.mpr hkind), if_pos hkind]
    rfl
  · rw [if_pos hkind, if_neg hkind]
    rfl

theorem readLoads_at {buf : Image} {table : List (BitVec 64)} {ds : List Phdr}
    (h : List.Forall₂ (fun ph d => Phdr.At d buf ph) table ds) :
    readLoads buf table = .ok ((ds.filterMap Phdr.load).map loadOf) := by
  induction h with
  | nil => rfl
  | @cons ph d table ds hat _ ih =>
    rw [readLoads_cons (readLoad_at hat), ih]
    cases hload : d.load with
    | none =>
      rw [List.filterMap_cons_none hload]
      rfl
    | some r =>
      rw [List.filterMap_cons_some hload]
      rfl

theorem readHeader_link {p : Program} (hsmall : InMemory p.link) : readHeader p.link = .ok p.header := by
  have hlen := p.length_link
  obtain ⟨hmagic, hclass, -⟩ := Header.ident_of_holds p.link_holds.1
  have hat := Header.at_of_holds hsmall p.link_holds.1
  rw [readHeader, if_neg (by omega), if_neg (not_or.mpr ⟨not_not.mpr hmagic, not_not.mpr hclass⟩), hat.machine,
    hat.entry, hat.phoff, hat.phentsz, hat.phnum]
  rfl

/-- The segments of a linked file. -/
def loadsOf (p : Program) : List Load := (p.phdrs.filterMap Phdr.load).map loadOf

theorem readLoads_link {p : Program} (hcount : p.segments.length < 2 ^ 16) (hsmall : InMemory p.link) :
    readLoads p.link p.header.table = .ok (loadsOf p) := by
  have hnum : p.header.phnum.toNat = p.segments.length := Nat.mod_eq_of_lt hcount
  have heq : p.header.table = (List.range' 64 p.header.phnum.toNat 56).map (BitVec.ofNat 64) :=
    p.header.table_eq rfl rfl
  have hat := table_at hsmall p.link_holds.2.1
  rw [Program.phdrs, length_layout, ← hnum, ← heq, hnum] at hat
  exact readLoads_at hat

/-! ## Copying the segments -/

/-- Where the segment goes. -/
def Load.dst (l : Load) (kphys kbase : BitVec 64) : Nat := (kphys + (l.vaddr - kbase)).toNat

/-- The byte `j` of the segment. -/
def Load.byte (buf : Image) (l : Load) (j : Nat) : UInt8 :=
  if j < l.filesz.toNat then buf.getD (l.offset.toNat + j) 0 else 0

section

variable {buf : Image} {kphys kbase : BitVec 64} {l : Load}

theorem place_inside (m : Ram) {j : Nat} (hj : j < l.memsz.toNat) :
    place buf kphys kbase m l (l.dst kphys kbase + j) = l.byte buf j := by
  simp only [place, putRange, Load.byte, Load.dst]
  by_cases hfile : j < l.filesz.toNat
  · rw [if_pos (by omega), if_pos hfile, Nat.add_sub_cancel_left]
  · rw [if_neg (by omega), if_pos (by omega), if_neg hfile]

theorem place_outside (hfits : l.filesz.toNat ≤ l.memsz.toNat) (m : Ram) {a : Nat}
    (ha : ¬ (l.dst kphys kbase ≤ a ∧ a < l.dst kphys kbase + l.memsz.toNat)) : place buf kphys kbase m l a = m a := by
  simp only [Load.dst] at ha
  simp only [place, putRange]
  rw [if_neg (by omega), if_neg (by omega)]

theorem places_outside {ls : List Load} (hfits : ∀ l ∈ ls, l.filesz.toNat ≤ l.memsz.toNat) (m : Ram) {a : Nat}
    (ha : ∀ l ∈ ls, ¬ (l.dst kphys kbase ≤ a ∧ a < l.dst kphys kbase + l.memsz.toNat)) :
    ls.foldl (place buf kphys kbase) m a = m a := by
  induction ls generalizing m with
  | nil => rfl
  | cons l ls ih =>
    rw [List.forall_mem_cons] at hfits ha
    rw [List.foldl_cons, ih hfits.2 _ ha.2, place_outside hfits.1 m ha.1]

theorem places_inside {ls : List Load} (hfits : ∀ l ∈ ls, l.filesz.toNat ≤ l.memsz.toNat)
    (hapart : ls.Pairwise fun l l' => ∀ j < l.memsz.toNat, ¬ (l'.dst kphys kbase ≤ l.dst kphys kbase + j ∧
      l.dst kphys kbase + j < l'.dst kphys kbase + l'.memsz.toNat)) (m : Ram) (hl : l ∈ ls) {j : Nat}
    (hj : j < l.memsz.toNat) : ls.foldl (place buf kphys kbase) m (l.dst kphys kbase + j) = l.byte buf j := by
  induction ls generalizing m with
  | nil => cases hl
  | cons c ls ih =>
    rw [List.forall_mem_cons] at hfits
    rw [List.pairwise_cons] at hapart
    rw [List.foldl_cons]
    rcases List.mem_cons.mp hl with rfl | hrest
    · rw [places_outside hfits.2 _ fun l' hl' => hapart.1 l' hl' j hj, place_inside m hj]
    · exact ih hfits.2 hapart.2 _ hrest

end

/-! ## The extent of the kernel -/

/-- What `extent` has found so far. -/
structure Extent.Covers (e : Extent) (ls : List Load) : Prop where
  base : ∀ l ∈ ls, e.base.toNat ≤ l.vaddr.toNat
  first : ls ≠ [] → ∃ l ∈ ls, l.vaddr = e.base
  top : ∀ l ∈ ls, (l.vaddr + l.memsz).toNat ≤ e.top.toNat
  last : ls ≠ [] → ∃ l ∈ ls, l.vaddr + l.memsz = e.top
  none : ls = [] → e = ⟨0, 0⟩

theorem Extent.Covers.widen {e : Extent} {ls : List Load} {l : Load} (h : e.Covers ls)
    (hpos : ∀ l' ∈ ls ++ [l], l'.vaddr ≠ 0 ∧ 0 < (l'.vaddr + l'.memsz).toNat) : (e.widen l).Covers (ls ++ [l]) := by
  have hl := hpos l (by simp)
  by_cases hnil : ls = []
  · subst hnil
    have htop : l.vaddr + l.memsz > 0 := hl.2
    rw [h.none rfl]
    simp only [Extent.widen, List.nil_append, true_or, if_true, if_pos htop]
    exact ⟨by simp, by simp, by simp, by simp, by simp⟩
  · obtain ⟨f, hf, hfirst⟩ := h.first hnil
    obtain ⟨z, hz, hlast⟩ := h.last hnil
    have hbase : e.base ≠ 0 := hfirst ▸ (hpos f (by simp [hf])).1
    refine ⟨fun l' hl' => ?_, fun _ => ?_, fun l' hl' => ?_, fun _ => ?_, by simp⟩
    · simp only [Extent.widen, hbase, false_or]
      rcases List.mem_append.mp hl' with hold | hnew
      · have hle := h.base l' hold
        split
        · next hlt => exact (Nat.le_of_lt hlt).trans hle
        · exact hle
      · rw [List.mem_singleton.mp hnew]
        split
        · exact Nat.le_refl _
        · next hge => exact Nat.le_of_not_lt hge
    · simp only [Extent.widen, hbase, false_or]
      split
      · exact ⟨l, by simp, rfl⟩
      · exact ⟨f, by simp [hf], hfirst⟩
    · simp only [Extent.widen]
      rcases List.mem_append.mp hl' with hold | hnew
      · have hle := h.top l' hold
        split
        · next hgt => exact hle.trans (Nat.le_of_lt hgt)
        · exact hle
      · rw [List.mem_singleton.mp hnew]
        split
        · exact Nat.le_refl _
        · next hle => exact Nat.le_of_not_lt hle
    · simp only [Extent.widen]
      split
      · exact ⟨l, by simp, rfl⟩
      · exact ⟨z, by simp [hz], hlast⟩

theorem extent_covers {ls : List Load} (hpos : ∀ l ∈ ls, l.vaddr ≠ 0 ∧ 0 < (l.vaddr + l.memsz).toNat) :
    (extent ls).Covers ls := by
  induction ls using List.reverseRecOn with
  | nil => exact ⟨by simp, by simp, by simp, by simp, fun _ => rfl⟩
  | append_singleton ls l ih =>
    rw [extent, List.foldl_append]
    exact (ih fun l' hl' => hpos l' (List.mem_append_left _ hl')).widen hpos

/-- A segment in the last 2 GB but for the last, where `pd_hh` can lead. -/
structure Load.InWindow (l : Load) : Prop where
  low : kernelVirt ≤ l.vaddr.toNat
  high : l.vaddr.toNat + l.memsz.toNat ≤ kernelVirt + 2 ^ 30

theorem Load.InWindow.end_eq {l : Load} (h : l.InWindow) :
    (l.vaddr + l.memsz).toNat = l.vaddr.toNat + l.memsz.toNat := by
  have hhigh := h.high
  unfold kernelVirt at hhigh
  rw [BitVec.toNat_add]
  omega

/-- The extent of segments in the window. -/
structure Extent.Bounds (e : Extent) (ls : List Load) : Prop where
  low : kernelVirt ≤ e.base.toNat
  high : e.top.toNat ≤ kernelVirt + 2 ^ 30
  base : ∀ l ∈ ls, e.base.toNat ≤ l.vaddr.toNat
  top : ∀ l ∈ ls, l.vaddr.toNat + l.memsz.toNat ≤ e.top.toNat
  order : e.base.toNat ≤ e.top.toNat

theorem extent_bounds {ls : List Load} (hne : ls ≠ []) (hall : ∀ l ∈ ls, l.InWindow) : (extent ls).Bounds ls := by
  have hpos : ∀ l ∈ ls, l.vaddr ≠ 0 ∧ 0 < (l.vaddr + l.memsz).toNat := by
    intro l hl
    have hlow := (hall l hl).low
    unfold kernelVirt at hlow
    rw [(hall l hl).end_eq]
    refine ⟨fun hzero => ?_, by omega⟩
    rw [hzero] at hlow
    exact absurd hlow (by decide)
  have hcovers := extent_covers hpos
  obtain ⟨f, hf, hfirst⟩ := hcovers.first hne
  obtain ⟨z, hz, hlast⟩ := hcovers.last hne
  have htop : ∀ l ∈ ls, l.vaddr.toNat + l.memsz.toNat ≤ (extent ls).top.toNat := fun l hl =>
    (hall l hl).end_eq ▸ hcovers.top l hl
  refine ⟨hfirst ▸ (hall f hf).low, ?_, hcovers.base, htop, ?_⟩
  · rw [← hlast, (hall z hz).end_eq]
    exact (hall z hz).high
  · have hle := htop f hf
    rw [hfirst] at hle
    omega

section

variable {e : Extent} {ls : List Load} (h : e.Bounds ls)
include h

theorem Extent.Bounds.imgSize : e.imgSize.toNat = e.top.toNat - e.base.toNat := by
  have horder := h.order
  have hlt := e.top.isLt
  rw [Extent.imgSize, BitVec.toNat_sub]
  omega

theorem Extent.Bounds.img2mb : e.img2mb.toNat = (e.top.toNat - e.base.toNat + 0x1FFFFF) / 2 ^ 21 := by
  have hlow := h.low
  have hhigh := h.high
  have hsum : (e.imgSize + 0x1FFFFF).toNat = e.top.toNat - e.base.toNat + 0x1FFFFF := by
    rw [BitVec.toNat_add, h.imgSize]
    change (_ + 0x1FFFFF) % 2 ^ 64 = _
    omega
  rw [Extent.img2mb, BitVec.toNat_ushiftRight, Nat.shiftRight_eq_div_pow, hsum]

theorem Extent.Bounds.img2mb_le : e.img2mb.toNat ≤ 512 := by
  have hlow := h.low
  have hhigh := h.high
  rw [h.img2mb]
  omega

theorem Extent.Bounds.next : (e.img2mb + 1).toNat = e.img2mb.toNat + 1 := by
  have hle := h.img2mb_le
  rw [BitVec.toNat_add]
  change (_ + 1) % 2 ^ 64 = _
  omega

theorem Extent.Bounds.pages : e.pages.toNat * 4096 = (e.img2mb.toNat + 1) * 2 ^ 21 := by
  have hle := h.img2mb_le
  rw [Extent.pages, BitVec.toNat_mul, h.next]
  change (_ * 512) % 2 ^ 64 * 4096 = _
  omega

theorem Extent.Bounds.covered : e.top.toNat - e.base.toNat ≤ kernelPages e.img2mb * 2 ^ 21 := by
  have hlow := h.low
  have hhigh := h.high
  have himg := h.img2mb
  rw [kernelPages, h.next]
  omega

end

theorem toNat_roundUp2mb {a : BitVec 64} (h : a.toNat < 2 ^ 52) :
    (roundUp2mb a).toNat = (a.toNat + 0x1FFFFF) / 2 ^ 21 * 2 ^ 21 := by
  have hsum : (a + 0x1FFFFF).toNat = a.toNat + 0x1FFFFF := by
    rw [BitVec.toNat_add]
    change (_ + 0x1FFFFF) % 2 ^ 64 = _
    omega
  have hmask : (~~~0x1FFFFF : BitVec 64).toNat = (2 ^ 43 - 1) <<< 21 := by decide
  rw [roundUp2mb, BitVec.toNat_and, hsum, hmask]
  generalize a.toNat + 0x1FFFFF = n at hsum ⊢
  have hn : n < 2 ^ 64 := hsum ▸ (a + 0x1FFFFF).isLt
  refine Nat.eq_of_testBit_eq fun i => ?_
  rw [← Nat.shiftLeft_eq, ← Nat.shiftRight_eq_div_pow, Nat.testBit_and, Nat.testBit_shiftLeft, Nat.testBit_shiftLeft,
    Nat.testBit_shiftRight, Nat.testBit_two_pow_sub_one]
  by_cases hi : 21 ≤ i
  · rw [Nat.add_sub_cancel' hi]
    by_cases hlt : i - 21 < 43
    · simp [hi, hlt]
    · have hzero : n.testBit i = false :=
        Nat.testBit_lt_two_pow (Nat.lt_of_lt_of_le hn (Nat.pow_le_pow_right (by decide) (by omega)))
      simp [hzero]
  · simp [hi]

/-! ## The kernel of a file -/

/-- A file that is linked as `linker.ld` says: from the start of the window on, without overlaps. -/
structure KernelFile (p : Program) : Prop where
  count : p.segments.length < 2 ^ 16
  small : p.link.length ≤ 2 ^ 24
  linked : ∃ s ∈ p.loads, s.vaddr.toNat = kernelVirt
  low : ∀ s ∈ p.loads, kernelVirt ≤ s.vaddr.toNat
  high : ∀ s ∈ p.loads, s.vaddr.toNat + s.memSz.toNat ≤ kernelVirt + 2 ^ 30
  fits : ∀ s ∈ p.loads, s.contents.length ≤ s.memSz.toNat
  apart : p.loads.Pairwise fun s s' =>
    s.vaddr.toNat + s.memSz.toNat ≤ s'.vaddr.toNat ∨ s'.vaddr.toNat + s'.memSz.toNat ≤ s.vaddr.toNat

/-- The program header says what the segment is. -/
structure Stands (buf : Image) (s : Segment) (l : Load) : Prop where
  vaddr : l.vaddr = s.vaddr
  memsz : l.memsz = s.memSz
  filesz : l.filesz.toNat = s.contents.length
  contents : Holds buf l.offset.toNat s.contents

theorem Stands.byte {buf : Image} {s : Segment} {l : Load} (h : Stands buf s l) (j : Nat) :
    l.byte buf j = s.contents.getD j 0 := by
  rw [Load.byte, h.filesz]
  split
  · next hj =>
    obtain ⟨rest, hrest⟩ := h.contents
    have hget : buf[l.offset.toNat + j]? = s.contents[j]? := by
      rw [← List.getElem?_drop, ← hrest, List.getElem?_append_left hj]
    simp only [List.getD_eq_getElem?_getD, hget]
  · next hj =>
    rw [List.getD_eq_getElem?_getD, List.getElem?_eq_none (Nat.le_of_not_lt hj)]
    rfl

section

variable {p : Program} (h : KernelFile p)
include h

theorem KernelFile.inMemory : InMemory p.link := by
  have hlen := h.small
  unfold InMemory
  omega

theorem KernelFile.stands : List.Forall₂ (Stands p.link) p.loads (loadsOf p) := by
  have hlen := p.length_link
  have hall := (layout_represents h.inMemory p.link_holds.2.2 (by omega)).1
  refine List.forall₂_map_right_iff.mpr (hall.imp fun s r hr => ?_)
  exact ⟨hr.vaddr, hr.memSz, hr.fileSz, hr.contents⟩

theorem KernelFile.of_load {l : Load} (hl : l ∈ loadsOf p) : ∃ s ∈ p.loads, Stands p.link s l := by
  obtain ⟨i, hi, rfl⟩ := List.getElem_of_mem hl
  have hi' : i < p.loads.length := h.stands.length_eq ▸ hi
  exact ⟨_, List.getElem_mem hi', h.stands.get hi' hi⟩

theorem KernelFile.of_segment {s : Segment} (hs : s ∈ p.loads) : ∃ l ∈ loadsOf p, Stands p.link s l := by
  obtain ⟨i, hi, rfl⟩ := List.getElem_of_mem hs
  have hi' : i < (loadsOf p).length := h.stands.length_eq ▸ hi
  exact ⟨_, List.getElem_mem hi', h.stands.get hi hi'⟩

theorem KernelFile.inWindow {l : Load} (hl : l ∈ loadsOf p) : l.InWindow := by
  obtain ⟨s, hs, hstands⟩ := h.of_load hl
  exact ⟨hstands.vaddr ▸ h.low s hs, hstands.vaddr ▸ hstands.memsz ▸ h.high s hs⟩

theorem KernelFile.loads_fit {l : Load} (hl : l ∈ loadsOf p) : l.filesz.toNat ≤ l.memsz.toNat := by
  obtain ⟨s, hs, hstands⟩ := h.of_load hl
  rw [hstands.filesz, hstands.memsz]
  exact h.fits s hs

theorem KernelFile.loads_apart : (loadsOf p).Pairwise fun l l' =>
    l.vaddr.toNat + l.memsz.toNat ≤ l'.vaddr.toNat ∨ l'.vaddr.toNat + l'.memsz.toNat ≤ l.vaddr.toNat := by
  have hsame : p.loads.map (fun s => (s.vaddr, s.memSz)) = (loadsOf p).map fun l => (l.vaddr, l.memsz) := by
    rw [← List.forall₂_eq_eq_eq, List.forall₂_map_left_iff, List.forall₂_map_right_iff]
    exact h.stands.imp fun s l hs => Prod.ext hs.vaddr.symm hs.memsz.symm
  have hpairs : (p.loads.map fun s => (s.vaddr, s.memSz)).Pairwise fun a b =>
      a.1.toNat + a.2.toNat ≤ b.1.toNat ∨ b.1.toNat + b.2.toNat ≤ a.1.toNat := List.pairwise_map.mpr h.apart
  rw [hsame] at hpairs
  exact List.pairwise_map.mp hpairs

theorem KernelFile.bounds : (extent (loadsOf p)).Bounds (loadsOf p) := by
  obtain ⟨s, hs, -⟩ := h.linked
  obtain ⟨l, hl, -⟩ := h.of_segment hs
  exact extent_bounds (List.ne_nil_of_mem hl) fun l hl => h.inWindow hl

theorem KernelFile.base_eq : (extent (loadsOf p)).base.toNat = kernelVirt := by
  obtain ⟨s, hs, hvirt⟩ := h.linked
  obtain ⟨l, hl, hstands⟩ := h.of_segment hs
  have hle := h.bounds.base l hl
  rw [hstands.vaddr, hvirt] at hle
  exact Nat.le_antisymm hle h.bounds.low

end

/-- The pages that `AllocatePages` gave are memory. -/
def Granted (e : Extent) (alloc : BitVec 64) : Prop := alloc.toNat + e.pages.toNat * 4096 ≤ 2 ^ 52

section

variable {p : Program} (h : KernelFile p) {alloc : BitVec 64} (ha : Granted (extent (loadsOf p)) alloc)
include h ha

theorem KernelFile.mapped_fits : Fits (roundUp2mb alloc) (extent (loadsOf p)).img2mb := by
  have hpages := h.bounds.pages
  have hmost : kernelPages (extent (loadsOf p)).img2mb ≤ (extent (loadsOf p)).img2mb.toNat + 1 := by
    rw [kernelPages, h.bounds.next]
    exact Nat.min_le_left _ _
  unfold Granted at ha
  rw [hpages] at ha
  have hround := toNat_roundUp2mb (a := alloc) (by omega)
  exact ⟨by omega, by omega⟩

theorem KernelFile.dst_eq {l : Load} (hl : l ∈ loadsOf p) :
    l.dst (roundUp2mb alloc) (extent (loadsOf p)).base = (roundUp2mb alloc).toNat + (l.vaddr.toNat - kernelVirt) := by
  have hbase := h.base_eq
  have hle := h.bounds.base l hl
  have htop := h.bounds.top l hl
  have hhigh := h.bounds.high
  have hfits := (h.mapped_fits ha).bound
  rw [Load.dst, BitVec.toNat_add, BitVec.toNat_sub]
  unfold kernelVirt at *
  omega

theorem KernelFile.untouched (m : Ram) {a : Nat}
    (houtside : ¬ (alloc.toNat ≤ a ∧ a < alloc.toNat + (extent (loadsOf p)).pages.toNat * 4096)) :
    (loadsOf p).foldl (place p.link (roundUp2mb alloc) (extent (loadsOf p)).base) m a = m a := by
  refine places_outside (fun l hl => h.loads_fit hl) m fun l hl => ?_
  have hbase := h.base_eq
  have htop := h.bounds.top l hl
  have hle := h.bounds.base l hl
  have himg := h.bounds.img2mb
  have hgranted := ha
  unfold Granted at hgranted
  rw [h.bounds.pages] at houtside hgranted
  have hround := toNat_roundUp2mb (a := alloc) (by omega)
  rw [h.dst_eq ha hl]
  unfold kernelVirt at *
  omega

theorem KernelFile.loaded (m : Ram) {l : Load} (hl : l ∈ loadsOf p) {j : Nat} (hj : j < l.memsz.toNat) :
    (loadsOf p).foldl (place p.link (roundUp2mb alloc) (extent (loadsOf p)).base) m
      ((roundUp2mb alloc).toNat + (l.vaddr.toNat - kernelVirt) + j) = l.byte p.link j := by
  have hapart : (loadsOf p).Pairwise fun l l' => ∀ j < l.memsz.toNat,
      ¬ (l'.dst (roundUp2mb alloc) (extent (loadsOf p)).base ≤ l.dst (roundUp2mb alloc) (extent (loadsOf p)).base + j ∧
        l.dst (roundUp2mb alloc) (extent (loadsOf p)).base + j <
          l'.dst (roundUp2mb alloc) (extent (loadsOf p)).base + l'.memsz.toNat) := by
    refine h.loads_apart.imp_of_mem fun {c c'} hc hc' hap j hj => ?_
    have hbase := h.base_eq
    have hlow := h.bounds.base c hc
    have hlow' := h.bounds.base c' hc'
    rw [h.dst_eq ha hc, h.dst_eq ha hc']
    omega
  rw [← h.dst_eq ha hl]
  exact places_inside (fun l hl => h.loads_fit hl) hapart m hl hj

/-- The kernel is where it was loaded, and the first tables lead there from the addresses that it is linked at. -/
theorem kernel_in_place {t : Pages} (ht : t.Placed) (m : Ram) (tables : Nat → Nat → BitVec 64) :
    ∃ k, loadKernel p.link alloc m = .ok k ∧ k.entry = p.entry ∧
      (∀ a, ¬ (alloc.toNat ≤ a ∧ a < alloc.toNat + k.extent.pages.toNat * 4096) → k.ram a = m a) ∧
      ∀ s ∈ p.loads, ∀ i < s.memSz.toNat, ∃ x,
        translate (buildTables t k.kphys k.extent.img2mb tables) t.pml4 (s.vaddr + BitVec.ofNat 64 i) =
          some ⟨x, true, false⟩ ∧ k.ram x = s.contents.getD i 0 := by
  have hload : loadKernel p.link alloc m = .ok ⟨p.entry, extent (loadsOf p), roundUp2mb alloc,
      (loadsOf p).foldl (place p.link (roundUp2mb alloc) (extent (loadsOf p)).base) m⟩ := by
    rw [loadKernel, readHeader_link h.inMemory]
    change readLoads p.link p.header.table >>= _ = _
    rw [readLoads_link h.count h.inMemory]
    rfl
  refine ⟨_, hload, rfl, fun a houtside => h.untouched ha m houtside, fun s hs i hi => ?_⟩
  obtain ⟨l, hl, hstands⟩ := h.of_segment hs
  have hbase := h.base_eq
  have hle := h.bounds.base l hl
  have htop := h.bounds.top l hl
  have hhigh := h.bounds.high
  have hcovered := h.bounds.covered
  rw [← hstands.memsz] at hi
  have hv : (s.vaddr + BitVec.ofNat 64 i).toNat = l.vaddr.toNat + i := by
    unfold kernelVirt at *
    rw [← hstands.vaddr, BitVec.toNat_add, BitVec.toNat_ofNat]
    omega
  have hwalk := walk_kernel (v := s.vaddr + BitVec.ofNat 64 i) ht tables (h.mapped_fits ha) (by omega) (by omega)
  refine ⟨_, hwalk, ?_⟩
  have haddr : (roundUp2mb alloc).toNat + (l.vaddr.toNat + i - kernelVirt) =
      (roundUp2mb alloc).toNat + (l.vaddr.toNat - kernelVirt) + i := by omega
  rw [← hstands.byte, ← h.loaded ha m hl hi, hv, haddr]

end

/-- A kernel with code and a variable. -/
def small : Program :=
  ⟨0xffffffff80000000, [⟨ptLoad, 5, 0xffffffff80000000, 3, [0x90, 0xEB, 0xFE]⟩,
  ⟨ptLoad, 6, 0xffffffff80001000, 8, [1]⟩]⟩

theorem small_kernelFile : KernelFile small :=
  ⟨by decide, by decide +kernel, by decide, by decide, by decide, by decide, by decide⟩

theorem kernel_in_place_small : ∃ k, loadKernel small.link 0x123000 (fun _ => 0xAA) = .ok k ∧ k.entry = small.entry ∧
    (∀ a, ¬ ((0x123000 : BitVec 64).toNat ≤ a ∧ a < (0x123000 : BitVec 64).toNat + k.extent.pages.toNat * 4096) →
      k.ram a = 0xAA) ∧
    ∀ s ∈ small.loads, ∀ i < s.memSz.toNat, ∃ x,
      translate (buildTables lowPages k.kphys k.extent.img2mb fun _ _ => 0) lowPages.pml4
        (s.vaddr + BitVec.ofNat 64 i) =
        some ⟨x, true, false⟩ ∧ k.ram x = s.contents.getD i 0 :=
  kernel_in_place small_kernelFile (by unfold Granted; decide +kernel) lowPages_placed _ _

end Siathos.Boot
