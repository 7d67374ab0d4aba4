import Siathos.Elf.Image

/-!
# What the loader reads

The header is read only where it is there. The table of program headers is checked with a sum that may wrap, and so are
the contents of each segment: the loader leaves the image exactly where one of the sums does.
-/

open Lib Siathos.Proc.Memory

namespace Siathos.Elf

variable {img : Image} {n : Nat} {p : BitVec 64}

/-- The image is one that the kernel has in memory. -/
def InMemory (img : Image) : Prop := img.length ≤ 2 ^ 63

instance (img : Image) : Decidable (InMemory img) := inferInstanceAs (Decidable (_ ≤ _))

/-! ## Reads -/

theorem byteAt_ok {b : UInt8} (h : img[p.toNat]? = some b) : byteAt img p = .ok b := by
  rw [byteAt, h]
  rfl

theorem byteAt_outside (h : img.length ≤ p.toNat) : byteAt img p = .error .outside := by
  rw [byteAt, List.getElem?_eq_none h]
  rfl

theorem toNat_succ (himg : InMemory img) (h : p.toNat < img.length) : (p + 1).toNat = p.toNat + 1 := by
  unfold InMemory at himg
  rw [BitVec.toNat_add]
  exact Nat.mod_eq_of_lt (by simp; omega)

theorem readBytes_ok (himg : InMemory img) (h : p.toNat + n ≤ img.length) :
    readBytes img n p = .ok ((img.drop p.toNat).take n) := by
  induction n generalizing p with
  | zero => rfl
  | succ n ih =>
    have hlt : p.toNat < img.length := by omega
    have hnext := toNat_succ himg hlt
    rw [readBytes, byteAt_ok (List.getElem?_eq_getElem hlt)]
    change readBytes img n (p + 1) >>= _ = _
    rw [ih (by omega), hnext, List.drop_eq_getElem_cons hlt]
    rfl

theorem readBytes_outside (h : img.length ≤ p.toNat) : readBytes img (n + 1) p = .error .outside := by
  rw [readBytes, byteAt_outside h]
  rfl

theorem readNumber_ok (himg : InMemory img) (h : p.toNat + n ≤ img.length) :
    readNumber n img p = .ok (putBytes 0 0 ((img.drop p.toNat).take n)) := by
  rw [readNumber, readBytes_ok himg h]
  rfl

theorem readNumber_outside (h : img.length ≤ p.toNat) : readNumber (n + 1) img p = .error .outside := by
  rw [readNumber, readBytes_outside h]
  rfl

/-! ## The header -/

/-- The header in the image is `h`. -/
structure Header.At (h : Header) (img : Image) : Prop where
  machine : u16 img 18 = .ok h.machine
  entry : u64 img 24 = .ok h.entry
  phoff : u64 img 32 = .ok h.phoff
  phentsz : u16 img 54 = .ok h.phentsz
  phnum : u16 img 56 = .ok h.phnum

theorem Header.At.read {h : Header} (hat : h.At img) : readHeader img = .ok h := by
  rw [readHeader, hat.machine, hat.entry, hat.phoff, hat.phentsz, hat.phnum]
  rfl

theorem header_at (himg : InMemory img) (h : 64 ≤ img.length) : ∃ hd : Header, hd.At img := by
  have hread : ∀ (n p : Nat), p + n ≤ 64 → ∃ v, readNumber n img (BitVec.ofNat 64 p) = .ok v := by
    intro n p hp
    refine ⟨_, readNumber_ok himg ?_⟩
    rw [BitVec.toNat_ofNat, Nat.mod_eq_of_lt (by omega)]
    omega
  obtain ⟨machine, hmachine⟩ := hread 2 18 (by omega)
  obtain ⟨entry, hentry⟩ := hread 8 24 (by omega)
  obtain ⟨phoff, hphoff⟩ := hread 8 32 (by omega)
  obtain ⟨phentsz, hphentsz⟩ := hread 2 54 (by omega)
  obtain ⟨phnum, hphnum⟩ := hread 2 56 (by omega)
  exact ⟨⟨machine, entry, phoff, phentsz, phnum⟩, hmachine, hentry, hphoff, hphentsz, hphnum⟩

/-- What a header that passes its checks is like. -/
structure Header.Passes (h : Header) (got : Nat) : Prop where
  machine : h.machine = 0x3E
  phnum : h.phnum ≠ 0
  entry : 56 ≤ h.phentsz.toNat
  table : (h.phoff + BitVec.ofNat 64 h.tableSize).toNat ≤ got

theorem Header.Passes.check {h : Header} {got : Nat} (hp : h.Passes got) : h.check got = .ok () := by
  have hentry : ¬ h.phentsz < 56 := Nat.not_lt.mpr hp.entry
  rw [Header.check, if_neg (not_not.mpr hp.machine), if_neg hp.phnum, if_neg hentry, if_neg (Nat.not_lt.mpr hp.table)]

theorem Header.check_cases (h : Header) (got : Nat) :
    h.check got = .ok () ∧ h.Passes got ∨ ∃ stop, h.check got = .error stop ∧ stop ≠ .outside := by
  unfold Header.check
  split
  · exact .inr ⟨_, rfl, by decide⟩
  · next hmachine =>
    split
    · exact .inr ⟨_, rfl, by decide⟩
    · next hsome =>
      split
      · exact .inr ⟨_, rfl, by decide⟩
      · next hentry =>
        split
        · exact .inr ⟨_, rfl, by decide⟩
        · next htable =>
          rw [BitVec.lt_def] at hentry
          exact .inl ⟨rfl, of_not_not hmachine, hsome, Nat.le_of_not_lt hentry, Nat.le_of_not_lt htable⟩

theorem checkHeader_cases (himg : InMemory img) :
    (∃ h, checkHeader img = .ok h ∧ h.Passes img.length) ∨ ∃ stop, checkHeader img = .error stop ∧ stop ≠ .outside := by
  unfold checkHeader
  split
  · exact .inr ⟨_, rfl, by decide⟩
  · next hlen =>
    split
    · exact .inr ⟨_, rfl, by decide⟩
    · split
      · exact .inr ⟨_, rfl, by decide⟩
      · split
        · exact .inr ⟨_, rfl, by decide⟩
        · obtain ⟨h, hat⟩ := header_at himg (Nat.le_of_not_lt hlen)
          rw [hat.read]
          rcases h.check_cases img.length with ⟨hcheck, hpasses⟩ | ⟨stop, hcheck, hne⟩
          · refine .inl ⟨h, ?_, hpasses⟩
            change h.check img.length >>= _ = _
            rw [hcheck]
            rfl
          · refine .inr ⟨stop, ?_, hne⟩
            change h.check img.length >>= _ = _
            rw [hcheck]
            rfl

theorem checkHeader_ok (himg : InMemory img) {h : Header} (heq : checkHeader img = .ok h) : h.Passes img.length := by
  rcases checkHeader_cases himg with ⟨h', hok, hpasses⟩ | ⟨stop, herror, -⟩
  · rw [hok] at heq
    cases heq
    exact hpasses
  · rw [herror] at heq
    cases heq

/-! ## The table -/

/-- The fields of a program header that are read. -/
structure Phdr where
  kind : BitVec 32
  flags : BitVec 32
  poff : BitVec 64
  pvaddr : BitVec 64
  pfilesz : BitVec 64
  pmemsz : BitVec 64

def Phdr.region (d : Phdr) : Ureg :=
  { vaddr := d.pvaddr, src := d.poff, fileSz := d.pfilesz, memSz := d.pmemsz, flags := d.flags }

/-- What the loop makes of a program header in an image of `got` bytes. -/
def Phdr.segment (d : Phdr) (got : Nat) : Except Stop (Option Ureg) :=
  if d.kind ≠ ptLoad then .ok none
  else if (d.poff + d.pfilesz).toNat > got then .error .contents
  else if d.pvaddr ≥ kernelBase then .error .kernelSpace
  else .ok (some d.region)

/-- The program header at `ph` is `d`. -/
structure Phdr.At (d : Phdr) (img : Image) (ph : BitVec 64) : Prop where
  kind : u32 img ph = .ok d.kind
  flags : u32 img (ph + 4) = .ok d.flags
  poff : u64 img (ph + 8) = .ok d.poff
  pvaddr : u64 img (ph + 16) = .ok d.pvaddr
  pfilesz : u64 img (ph + 32) = .ok d.pfilesz
  pmemsz : u64 img (ph + 40) = .ok d.pmemsz

theorem Phdr.At.read {d : Phdr} {ph : BitVec 64} (hat : d.At img ph) : readSegment img ph = d.segment img.length := by
  rw [readSegment, hat.kind, hat.flags, hat.poff, hat.pvaddr, hat.pfilesz, hat.pmemsz]
  rfl

theorem phdr_at (himg : InMemory img) {ph : BitVec 64} (h : ph.toNat + 56 ≤ img.length) : ∃ d : Phdr, d.At img ph := by
  have hread : ∀ (n i : Nat), i + n ≤ 56 → ∃ v, readNumber n img (ph + BitVec.ofNat 64 i) = .ok v := by
    intro n i hi
    refine ⟨_, readNumber_ok himg ?_⟩
    unfold InMemory at himg
    rw [BitVec.toNat_add, BitVec.toNat_ofNat]
    omega
  obtain ⟨kind, hkind⟩ := hread 4 0 (by omega)
  rw [BitVec.add_zero] at hkind
  obtain ⟨flags, hflags⟩ := hread 4 4 (by omega)
  obtain ⟨poff, hpoff⟩ := hread 8 8 (by omega)
  obtain ⟨pvaddr, hpvaddr⟩ := hread 8 16 (by omega)
  obtain ⟨pfilesz, hpfilesz⟩ := hread 8 32 (by omega)
  obtain ⟨pmemsz, hpmemsz⟩ := hread 8 40 (by omega)
  exact ⟨⟨kind, flags, poff, pvaddr, pfilesz, pmemsz⟩, hkind, hflags, hpoff, hpvaddr, hpfilesz, hpmemsz⟩

/-- A region that passed the checks of its bounds. -/
structure Bounded (got : Nat) (r : Ureg) : Prop where
  contents : (r.src + r.fileSz).toNat ≤ got
  user : r.vaddr < kernelBase

theorem Phdr.segment_cases (d : Phdr) (got : Nat) :
    d.segment got = .ok none ∨ d.segment got = .ok (some d.region) ∧ Bounded got d.region ∨
      ∃ stop, d.segment got = .error stop ∧ stop ≠ .outside := by
  unfold Phdr.segment
  split
  · exact .inl rfl
  · split
    · exact .inr (.inr ⟨_, rfl, by decide⟩)
    · next hin =>
      split
      · exact .inr (.inr ⟨_, rfl, by decide⟩)
      · next huser => exact .inr (.inl ⟨rfl, Nat.le_of_not_lt hin, BitVec.not_le.mp huser⟩)

theorem scan_none {ph : BitVec 64} (h : readSegment img ph = .ok none) (rest : List (BitVec 64)) (regs : List Ureg) :
    scan img (ph :: rest) regs = scan img rest regs := by
  rw [scan, h]
  rfl

theorem scan_some {ph : BitVec 64} {r : Ureg} (h : readSegment img ph = .ok (some r)) (rest : List (BitVec 64))
    (regs : List Ureg) :
    scan img (ph :: rest) regs = if regs.length + 1 ≥ 7 then .ok (regs ++ [r]) else scan img rest (regs ++ [r]) := by
  rw [scan, h]
  rfl

theorem scan_error {ph : BitVec 64} {stop : Stop} (h : readSegment img ph = .error stop) (rest : List (BitVec 64))
    (regs : List Ureg) : scan img (ph :: rest) regs = .error stop := by
  rw [scan, h]
  rfl

theorem scan_cases (himg : InMemory img) {table : List (BitVec 64)} (htable : ∀ ph ∈ table, ph.toNat + 56 ≤ img.length)
    {regs : List Ureg} (hlen : regs.length < 7) (hregs : ∀ r ∈ regs, Bounded img.length r) :
    (∃ found, scan img table regs = .ok found ∧ found.length ≤ 7 ∧ ∀ r ∈ found, Bounded img.length r) ∨
      ∃ stop, scan img table regs = .error stop ∧ stop ≠ .outside := by
  induction table generalizing regs with
  | nil => exact .inl ⟨regs, rfl, Nat.le_of_lt hlen, hregs⟩
  | cons ph table ih =>
    rw [List.forall_mem_cons] at htable
    obtain ⟨d, hat⟩ := phdr_at himg htable.1
    rcases d.segment_cases img.length with hnone | ⟨hsome, hbounded⟩ | ⟨stop, hstop, hne⟩
    · rw [scan_none (hat.read.trans hnone)]
      exact ih htable.2 hlen hregs
    · rw [scan_some (hat.read.trans hsome)]
      have hall : ∀ r ∈ regs ++ [d.region], Bounded img.length r := by
        intro r hr
        rcases List.mem_append.mp hr with hr | hr
        · exact hregs r hr
        · rwa [List.mem_singleton.mp hr]
      split
      · refine .inl ⟨_, rfl, ?_, hall⟩
        rw [List.length_append, List.length_singleton]
        omega
      · refine ih htable.2 ?_ hall
        rw [List.length_append, List.length_singleton]
        omega
    · exact .inr ⟨stop, scan_error (hat.read.trans hstop) .., hne⟩

theorem scan_outside {ph : BitVec 64} (h : img.length ≤ ph.toNat) (rest : List (BitVec 64)) (regs : List Ureg) :
    scan img (ph :: rest) regs = .error .outside := by
  have hread : readSegment img ph = .error .outside := by
    rw [readSegment, u32, readNumber_outside h]
    rfl
  exact scan_error hread rest regs

/-- The sum of the check does not wrap. -/
def Header.Whole (h : Header) : Prop := h.phoff.toNat + h.tableSize < 2 ^ 64

instance (h : Header) : Decidable h.Whole := inferInstanceAs (Decidable (_ < _))

theorem Header.tableSize_lt (h : Header) : h.tableSize < 2 ^ 32 :=
  calc h.phnum.toNat * h.phentsz.toNat < 2 ^ 16 * 2 ^ 16 := Nat.mul_lt_mul'' h.phnum.isLt h.phentsz.isLt
    _ = 2 ^ 32 := by norm_num

theorem Header.mem_table {h : Header} {ph : BitVec 64} (hph : ph ∈ h.table) :
    ∃ i < h.phnum.toNat, ph = h.phoff + BitVec.ofNat 64 (i * h.phentsz.toNat) := by
  obtain ⟨i, hi, rfl⟩ := List.mem_map.mp hph
  exact ⟨i, List.mem_range.mp hi, rfl⟩

theorem Header.Passes.table_inside {h : Header} (hp : h.Passes img.length) (hw : h.Whole) {ph : BitVec 64}
    (hph : ph ∈ h.table) : ph.toNat + 56 ≤ img.length := by
  obtain ⟨i, hi, rfl⟩ := Header.mem_table hph
  have hsize := h.tableSize_lt
  have hend := hp.table
  have hentry := hp.entry
  have hrow : i * h.phentsz.toNat + h.phentsz.toNat ≤ h.tableSize := by
    rw [← Nat.succ_mul]
    exact Nat.mul_le_mul_right _ hi
  unfold Header.Whole at hw
  rw [BitVec.toNat_add, BitVec.toNat_ofNat] at hend ⊢
  omega

theorem Header.Passes.table_outside {h : Header} (himg : InMemory img) (hp : h.Passes img.length) (hw : ¬ h.Whole) :
    ∃ ph rest, h.table = ph :: rest ∧ img.length ≤ ph.toNat := by
  have hnum : 0 < h.phnum.toNat := by
    refine Nat.pos_of_ne_zero fun hz => hp.phnum ?_
    exact BitVec.eq_of_toNat_eq hz
  obtain ⟨n, hn⟩ : ∃ n, h.phnum.toNat = n + 1 := ⟨h.phnum.toNat - 1, by omega⟩
  refine ⟨h.phoff, h.table.tail, ?_, ?_⟩
  · simp [Header.table, hn, List.range_succ_eq_map]
  · have hsize := h.tableSize_lt
    unfold Header.Whole at hw
    unfold InMemory at himg
    omega

/-! ## The image -/

theorem segments_error {stop : Stop} (h : checkHeader img = .error stop) : segments img = .error stop := by
  rw [segments, h]
  rfl

theorem segments_cases (himg : InMemory img) {h : Header} (hok : checkHeader img = .ok h) (hw : h.Whole) :
    (∃ regs, segments img = .ok (h.entry, regs) ∧ regs ≠ [] ∧ regs.length ≤ 7 ∧ ∀ r ∈ regs, Bounded img.length r) ∨
      ∃ stop, segments img = .error stop ∧ stop ≠ .outside := by
  have hp := checkHeader_ok himg hok
  rw [segments, hok]
  have hinside : ∀ ph ∈ h.table, ph.toNat + 56 ≤ img.length := fun ph hph => hp.table_inside hw hph
  have hnone : ∀ r ∈ ([] : List Ureg), Bounded img.length r := by simp
  rcases scan_cases himg hinside (by decide) hnone with ⟨regs, hscan, hlen, hregs⟩ | ⟨stop, hscan, hne⟩
  · by_cases hnil : regs = []
    · refine .inr ⟨.noSegments, ?_, by decide⟩
      change scan img h.table [] >>= _ = _
      rw [hscan]
      exact if_pos hnil
    · refine .inl ⟨regs, ?_, hnil, hlen, hregs⟩
      change scan img h.table [] >>= _ = _
      rw [hscan]
      exact if_neg hnil
  · refine .inr ⟨stop, ?_, hne⟩
    change scan img h.table [] >>= _ = _
    rw [hscan]
    rfl

theorem segments_outside_iff (himg : InMemory img) :
    segments img = .error .outside ↔ ∃ h, checkHeader img = .ok h ∧ ¬ h.Whole := by
  constructor
  · intro hout
    rcases checkHeader_cases himg with ⟨h, hok, -⟩ | ⟨stop, hstop, hne⟩
    · refine ⟨h, hok, fun hw => ?_⟩
      rcases segments_cases himg hok hw with ⟨regs, heq, -⟩ | ⟨stop, heq, hne⟩
      · rw [heq] at hout
        cases hout
      · rw [heq] at hout
        exact hne (Except.error.inj hout)
    · rw [segments_error hstop] at hout
      exact absurd (Except.error.inj hout) hne
  · rintro ⟨h, hok, hw⟩
    obtain ⟨ph, rest, htable, hout⟩ := (checkHeader_ok himg hok).table_outside himg hw
    rw [segments, hok]
    change scan img h.table [] >>= _ = _
    rw [htable, scan_outside hout]
    rfl

/-! ## The contents -/

/-- The `memcpy` of the segment reads bytes of the image. -/
def CopiesInside (img : Image) (r : Ureg) : Prop := ∀ a < r.fileSz.toNat, r.src.toNat + a < img.length

theorem Bounded.copiesInside_iff (himg : InMemory img) {r : Ureg} (h : Bounded img.length r) :
    CopiesInside img r ↔ r.fileSz.toNat = 0 ∨ r.src.toNat + r.fileSz.toNat < 2 ^ 64 := by
  have hend := h.contents
  unfold InMemory at himg
  rw [BitVec.toNat_add] at hend
  constructor
  · intro hin
    by_contra hwrap
    rw [not_or] at hwrap
    have hlast := hin (r.fileSz.toNat - 1) (by omega)
    omega
  · rintro hin a ha
    omega

end Siathos.Elf
