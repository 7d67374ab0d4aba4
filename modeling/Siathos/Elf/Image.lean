import Siathos.Lib.LittleEndian
import Siathos.Proc.Argv

/-!
# ELF images (`elf.c`)

What `exec_elf_core` reads from an image, and the process that it makes of it. A pointer into the image is its
offset from the first byte.
-/

open Lib Siathos.Proc.Memory

namespace Siathos.Elf

abbrev Image := List UInt8

/-- Why an image is not loaded. `outside` is a read of a byte that is not in the image. -/
inductive Stop
  | outside
  | short
  | magic
  | class64
  | endian
  | machine
  | noHeaders
  | entrySize
  | table
  | contents
  | kernelSpace
  | noSegments
  deriving DecidableEq, Repr

/-- What the kernel prints, if it says anything. -/
def Stop.text : Stop → Option String
  | .class64 => some "exec_elf: nao 64-bit\n"
  | .endian => some "exec_elf: endian errado\n"
  | .machine => some "exec_elf: nao x86_64\n"
  | .noHeaders => some "exec_elf: sem program headers\n"
  | .entrySize => some "exec_elf: phentsz invalido\n"
  | .table => some "exec_elf: ph tabela fora do arquivo\n"
  | .kernelSpace => some "exec_elf: vaddr no espaco do kernel\n"
  | .noSegments => some "exec_elf: sem segmentos carregaveis\n"
  | .outside | .short | .magic | .contents => none

/-! ## Reads -/

def byteAt (img : Image) (p : BitVec 64) : Except Stop UInt8 := (img[p.toNat]?).elim (.error .outside) .ok

def readBytes (img : Image) : Nat → BitVec 64 → Except Stop (List UInt8)
  | 0, _ => .ok []
  | n + 1, p => do
    let b ← byteAt img p
    let bs ← readBytes img n (p + 1)
    return b :: bs

/-- `v |= p[i] << (i * 8)` for the `n` bytes. -/
def readNumber (n : Nat) (img : Image) (p : BitVec 64) : Except Stop (BitVec (8 * n)) :=
  (readBytes img n p).map (putBytes 0 0)

def u64 : Image → BitVec 64 → Except Stop (BitVec 64) := readNumber 8

def u32 : Image → BitVec 64 → Except Stop (BitVec 32) := readNumber 4

def u16 : Image → BitVec 64 → Except Stop (BitVec 16) := readNumber 2

/-! ## The header -/

/-- The fields of the header that are read. -/
structure Header where
  machine : BitVec 16
  entry : BitVec 64
  phoff : BitVec 64
  phentsz : BitVec 16
  phnum : BitVec 16
  deriving DecidableEq, Repr

def readHeader (img : Image) : Except Stop Header := do
  let machine ← u16 img 18
  let entry ← u64 img 24
  let phoff ← u64 img 32
  let phentsz ← u16 img 54
  let phnum ← u16 img 56
  return { machine, entry, phoff, phentsz, phnum }

/-- `phnum * phentsz`, which does not wrap. -/
def Header.tableSize (h : Header) : Nat := h.phnum.toNat * h.phentsz.toNat

/-- The sum of the last check wraps. -/
def Header.check (h : Header) (got : Nat) : Except Stop Unit :=
  if h.machine ≠ 0x3E then .error .machine
  else if h.phnum = 0 then .error .noHeaders
  else if h.phentsz < 56 then .error .entrySize
  else if (h.phoff + BitVec.ofNat 64 h.tableSize).toNat > got then .error .table
  else .ok ()

def elfMagic : List UInt8 := [0x7F, 0x45, 0x4C, 0x46]

def checkHeader (img : Image) : Except Stop Header :=
  if img.length < 64 then .error .short
  else if img.take 4 ≠ elfMagic then .error .magic
  else if img[4]? ≠ some 2 then .error .class64
  else if img[5]? ≠ some 1 then .error .endian
  else do
    let h ← readHeader img
    h.check img.length
    return h

/-! ## The segments -/

def ptLoad : BitVec 32 := 1

def kernelBase : BitVec 64 := 0xffff800000000000

/-- The program header at `ph`, or `none` where it is not one of a segment to load. -/
def readSegment (img : Image) (ph : BitVec 64) : Except Stop (Option Ureg) := do
  let kind ← u32 img ph
  if kind ≠ ptLoad then return none
  else
    let poff ← u64 img (ph + 8)
    let pvaddr ← u64 img (ph + 16)
    let pfilesz ← u64 img (ph + 32)
    let pmemsz ← u64 img (ph + 40)
    if (poff + pfilesz).toNat > img.length then throw .contents
    else if pvaddr ≥ kernelBase then throw .kernelSpace
    else
      let flags ← u32 img (ph + 4)
      return some { vaddr := pvaddr, src := poff, fileSz := pfilesz, memSz := pmemsz, flags }

/-- The loop over the program headers. It ends with the seventh segment. -/
def scan (img : Image) : List (BitVec 64) → List Ureg → Except Stop (List Ureg)
  | [], regs => .ok regs
  | ph :: rest, regs => do
    match ← readSegment img ph with
    | none => scan img rest regs
    | some r => if regs.length + 1 ≥ 7 then return regs ++ [r] else scan img rest (regs ++ [r])

/-- Where the program headers are. -/
def Header.table (h : Header) : List (BitVec 64) :=
  (List.range h.phnum.toNat).map fun i => h.phoff + BitVec.ofNat 64 (i * h.phentsz.toNat)

/-- The entry point and the segments. -/
def segments (img : Image) : Except Stop (BitVec 64 × List Ureg) := do
  let h ← checkHeader img
  let regs ← scan img h.table []
  if regs = [] then throw .noSegments else return (h.entry, regs)

/-! ## The process -/

/-- The memory from the first byte of the image on. `beyond` is what comes after the image. -/
def memory (img : Image) (beyond : Nat → UInt8) (a : Nat) : BitVec 8 := (img.getD a (beyond a)).toBitVec

/-- `exec_elf_core`. The result is what `proc_create_user_regions` returned, if it was called. -/
def execElfCore (kernel : Nat) (room : Option Nat) (img : Image) (beyond : Nat → UInt8) (aVa : Nat → BitVec 64)
    (argv : List (Option CStr)) (s : Sys) : Sys × Except Stop Int :=
  match segments img with
  | .error stop => (s, .error stop)
  | .ok (_, regs) =>
    let (s, pid) := Proc.Argv.createUserRegions kernel room (memory img beyond) regs aVa argv s
    (s, .ok pid)

end Siathos.Elf
