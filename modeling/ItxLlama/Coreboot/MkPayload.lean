import ItxLlama.Coreboot.SelfBoot
import ItxLlama.Lib.Bytes
import Mathlib.Data.List.Basic

/-!
# Making a SELF payload

`util/cbfstool/cbfs-mkpayload.c` on a little-endian host: the payload made of an
ELF file, and its segments as the loader reads them. A file is the function of its
bytes; sizes and offsets are `int`s, which must not overflow.
-/

namespace ItxLlama.Coreboot.MkPayload

open Lib.Word Lib.Bytes
open SelfBoot hiding Byte

-- ---------------------------------------------------------------------------
-- ELF
-- ---------------------------------------------------------------------------

/-- `Elf32_Phdr`, the fields that are read. -/
structure Phdr where
  type : Nat
  offset : Nat
  paddr : Nat
  filesz : Nat
  memsz : Nat
  flags : Nat
  deriving DecidableEq, Repr

/-- `Elf32_Shdr`, the fields that are read. -/
structure Shdr where
  name : Nat
  offset : Nat
  size : Nat
  deriving DecidableEq, Repr

def ptLoad : Nat := 1
def pfX : Nat := 1

section Elf

variable (header : Nat → Byte)

def elfmag : List Byte := [0x7f, 0x45, 0x4c, 0x46]

def iself : Bool := (List.range 4).all fun i => header i = elfmag.getD i 0

def eMachine : Nat := le16 header 18
def eEntry : Nat := le32 header 24
def ePhoff : Nat := le32 header 28
def eShoff : Nat := le32 header 32
def ePhnum : Nat := le16 header 44
def eShnum : Nat := le16 header 48
def eShstrndx : Nat := le16 header 50

/-- `phdr[i]`. -/
def phdr (i : Nat) : Phdr :=
  let a := ePhoff header + 32 * i
  { type := le32 header a
    offset := le32 header (a + 4)
    paddr := le32 header (a + 12)
    filesz := le32 header (a + 16)
    memsz := le32 header (a + 20)
    flags := le32 header (a + 24) }

/-- The program headers, which both loops go through. -/
def phdrs : List Phdr := (List.range (ePhnum header)).map (phdr header)

/-- `shdr[i]`. -/
def shdr (i : Nat) : Shdr :=
  let a := eShoff header + 40 * i
  { name := le32 header a, offset := le32 header (a + 16), size := le32 header (a + 20) }

def strtab : Nat := (shdr header (eShstrndx header)).offset

def notePinfo : List Byte := [0x2e, 0x6e, 0x6f, 0x74, 0x65, 0x2e, 0x70, 0x69, 0x6e, 0x66, 0x6f]

/-- What neither loop over the sections skips. -/
def isPinfo (i : Nat) : Bool :=
  i ≠ eShstrndx header && (shdr header i).size ≠ 0 &&
    streq header (strtab header + (shdr header i).name) notePinfo

def bytesAt (a n : Nat) : List Byte := (List.range n).map fun i => header (a + i)

end Elf

-- ---------------------------------------------------------------------------
-- The output
-- ---------------------------------------------------------------------------

/-- `struct buffer`. -/
structure Buffer where
  data : Nat → Byte
  size : Nat

/-- Bytes that are stored at an offset; `none` is a store outside of the buffer. -/
def Buffer.store (b : Buffer) (off : Nat) (bytes : List Byte) : Option Buffer :=
  if off + bytes.length ≤ b.size then
    some { b with data := fun x =>
      if off ≤ x ∧ x < off + bytes.length then bytes.getD (x - off) 0 else b.data x }
  else none

def swab32 (x : Nat) : Nat :=
  x % 2 ^ 8 * 2 ^ 24 + x / 2 ^ 8 % 2 ^ 8 * 2 ^ 16 + x / 2 ^ 16 % 2 ^ 8 * 2 ^ 8 + x / 2 ^ 24 % 2 ^ 8

def swab64 (x : Nat) : Nat := swab32 (x % 2 ^ 32) * 2 ^ 32 + swab32 (x / 2 ^ 32)

def htonl (x : Nat) : Nat := swab32 x
def htonll (x : Nat) : Nat := swab64 x

def payloadSegmentCode : Nat := 0x45444F43
def payloadSegmentData : Nat := 0x41544144
def payloadSegmentBss : Nat := 0x20535342
def payloadSegmentParams : Nat := 0x41524150
def payloadSegmentEntry : Nat := 0x52544E45

/-- A `cbfs_payload_segment` as it is stored, on zeroed memory. -/
structure RawSegment where
  type : Nat := 0
  compression : Nat := 0
  offset : Nat := 0
  loadAddr : Nat := 0
  len : Nat := 0
  memLen : Nat := 0
  deriving DecidableEq, Repr

/-- `sizeof(struct cbfs_payload_segment)`; it is packed. -/
def sizeofSegment : Nat := 28

def RawSegment.toBytes (s : RawSegment) : List Byte :=
  le32Bytes s.type ++ le32Bytes s.compression ++ le32Bytes s.offset ++
    (le32Bytes s.loadAddr ++ le32Bytes (s.loadAddr / 2 ^ 32)) ++ le32Bytes s.len ++ le32Bytes s.memLen

inductive CompAlgo where
  | none | lzma
  deriving DecidableEq, Repr

def CompAlgo.toNat : CompAlgo → Nat
  | .none => cbfsCompressNone
  | .lzma => cbfsCompressLzma

/-- The `compress` function of the algorithm. -/
def compress (doLzmaCompress : List Byte → List Byte) : CompAlgo → List Byte → List Byte
  | .none, input => input
  | .lzma, input => doLzmaCompress input

-- ---------------------------------------------------------------------------
-- parse_elf_to_payload
-- ---------------------------------------------------------------------------

section Parse

variable (header : Nat → Byte)

/-- The counting pass over the sections: `segments` and `isize`. -/
def countSections (count : Nat × Nat) : Nat × Nat :=
  (List.range (eShnum header)).foldl (fun count i =>
    if isPinfo header i then (count.1 + 1, count.2 + (shdr header i).size) else count) count

/-- One round of the counting pass over the program headers. -/
def countHeader (count : Nat × Nat) (ph : Phdr) : Nat × Nat :=
  if ph.type ≠ ptLoad then count
  else if ph.memsz = 0 then count
  else (count.1 + 1, count.2 + ph.filesz)

def counted : Nat × Nat := (phdrs header).foldl countHeader (countSections header (1, 0))

/-- What the emitting pass carries. -/
structure Emit where
  buf : Buffer
  segments : Nat
  doffset : Nat
  osize : Nat

def Emit.putSegment (s : Emit) (seg : RawSegment) : Option Emit := do
  let buf ← s.buf.store (sizeofSegment * s.segments) seg.toBytes
  some { s with buf, segments := s.segments + 1 }

/-- The fields of a parameter segment are not converted. -/
def emitPinfo (s : Emit) (sh : Shdr) : Option Emit := do
  let buf ← s.buf.store s.doffset (bytesAt header sh.offset sh.size)
  let s' ← { s with buf }.putSegment { type := payloadSegmentParams, len := sh.size, offset := s.doffset }
  some { s' with doffset := s.doffset + sh.size, osize := s.osize + sh.size }

def emitBss (s : Emit) (ph : Phdr) : Option Emit :=
  s.putSegment {
    type := payloadSegmentBss
    loadAddr := htonll ph.paddr
    memLen := htonl ph.memsz
    offset := htonl s.doffset }

def emitLoad (comp : CompAlgo → List Byte → List Byte) (algo : CompAlgo) (s : Emit) (ph : Phdr) :
    Option Emit := do
  let plain := bytesAt header ph.offset ph.filesz
  let packed := comp algo plain
  let buf ← s.buf.store s.doffset packed
  -- if the compressed section is larger, then use the original stuff
  let larger : Bool := packed.length > ph.filesz
  let buf ← if larger then buf.store s.doffset plain else some buf
  let len := if larger then ph.filesz else packed.length
  let s' ← { s with buf }.putSegment {
    type := if ph.flags &&& pfX ≠ 0 then payloadSegmentCode else payloadSegmentData
    loadAddr := htonll ph.paddr
    memLen := htonl ph.memsz
    compression := if larger then 0 else htonl algo.toNat
    offset := htonl s.doffset
    len := htonl len }
  some { s' with doffset := s.doffset + len, osize := s.osize + len }

def emitSections (s : Emit) : Option Emit :=
  (List.range (eShnum header)).foldlM (fun s i =>
    if isPinfo header i then emitPinfo header s (shdr header i) else some s) s

def emitHeader (comp : CompAlgo → List Byte → List Byte) (algo : CompAlgo) (s : Emit) (ph : Phdr) :
    Option Emit :=
  if ph.type ≠ ptLoad then some s
  else if ph.memsz = 0 then some s
  else if ph.filesz = 0 then emitBss s ph
  else emitLoad header comp algo s ph

def archUnknown : Nat := 0xffffffff
def archX86 : Nat := 1
def archArmv7 : Nat := 0x10
def em386 : Nat := 3
def emArm : Nat := 40

/-- Whether the tool works on files of this machine. -/
def archAccepts (arch machine : Nat) : Bool :=
  arch = archUnknown ∨ machine = emArm ∧ arch = archArmv7 ∨ machine = em386 ∧ arch = archX86

/-- `none` is an error, or an `int` that overflows. -/
def parseElfToPayload (arch : Nat) (comp : CompAlgo → List Byte → List Byte) (algo : CompAlgo) :
    Option Buffer := do
  if !iself header then none
  else if !archAccepts arch (eMachine header) then none
  else
    let (segments, isize) := counted header
    let size := sizeofSegment * segments + isize
    if size < 2 ^ 31 then
      let s ← emitSections header ⟨⟨fun _ => 0, size⟩, 0, sizeofSegment * segments, 0⟩
      let s ← (phdrs header).foldlM (emitHeader header comp algo) s
      let s ← s.putSegment { type := payloadSegmentEntry, loadAddr := htonll (eEntry header) }
      some { s.buf with size := sizeofSegment * s.segments + s.osize }
    else none

end Parse

-- ---------------------------------------------------------------------------
-- Reading
-- ---------------------------------------------------------------------------

def payloadType (type : Nat) : PayloadType :=
  if type = payloadSegmentCode then .code
  else if type = payloadSegmentData then .data
  else if type = payloadSegmentBss then .bss
  else if type = payloadSegmentParams then .params
  else if type = payloadSegmentEntry then .entry
  else .other type

/-- A segment as `selfboot.c` reads it, its fields converted with `ntohl` and `ntohll`. -/
def readSegment (m : Nat → Byte) (a : Nat) : PayloadSegment where
  type := payloadType (le32 m a)
  compression := be32 m (a + 4)
  offset := be32 m (a + 8)
  loadAddr := be64 m (a + 12)
  len := be32 m (a + 20)
  memLen := be32 m (a + 24)

/-- The first `n` segments from an address on, in a memory of 32-bit addresses. -/
def readSegments (rom : Nat → Byte) (firstSegment n : Nat) : List PayloadSegment :=
  (List.range n).map fun i =>
    readSegment (fun x => rom (u32 (firstSegment + x))) (sizeofSegment * i)

end ItxLlama.Coreboot.MkPayload
