import ItxLlama.Coreboot.MkPayload
import ItxLlama.Lib.Word

/-!
# Making a stage and loading it

`util/cbfstool/cbfs-mkstage.c` on a little-endian host, without compression: the
loadable segments of an ELF file are copied into one buffer, from the given
location on. `cbfs_load_stage` of `lib/cbfs.c` copies the buffer to its load
address and clears what is behind it. An `unsigned int` has 32 bits.
-/

namespace ItxLlama.Coreboot.MkStage

open Lib.Word Lib.Bytes Lib.Wrap
open MkPayload
open SelfBoot (cbfsCompressNone)

/-- A read or a write outside of a buffer, or a run that ends without a stage. -/
inductive Fault where
  | outside
  | rejected
  deriving DecidableEq

/-- For which sizes there is memory. -/
structure Host where
  calloc : Nat → Bool
  bufferCreate : Nat → Bool

/-- `memcpy` between buffers. -/
def memcpy (dst : Buffer) (off : Nat) (src : Buffer) (start n : Nat) : Except Fault Buffer :=
  if n = 0 then .ok dst
  else if start + n ≤ src.size ∧ off + n ≤ dst.size then
    .ok { dst with data := fun x =>
      if off ≤ x ∧ x < off + n then src.data (start + (x - off)) else dst.data x }
  else .error .outside

-- ---------------------------------------------------------------------------
-- parse_elf_to_stage
-- ---------------------------------------------------------------------------

def sizeofEhdr : Nat := 52
def sizeofPhdr : Nat := 32

/-- `sizeof(struct cbfs_stage)`; it is packed. -/
def sizeofStage : Nat := 28

def eiData : Nat := 5
def elfdata2Msb : Byte := 2

/-- `elf32_to_native`, which is set for the byte order of the file. -/
def elf32ToNative (header : Nat → Byte) (x : Nat) : Nat :=
  if header eiData = elfdata2Msb then swab32 x else x

/-- `phdr[i]`, with its fields converted. -/
def stagePhdr (header : Nat → Byte) (i : Nat) : Phdr :=
  let native := elf32ToNative header
  let a := native (ePhoff header) + sizeofPhdr * i
  { type := native (le32 header a)
    offset := native (le32 header (a + 4))
    paddr := native (le32 header (a + 12))
    filesz := native (le32 header (a + 16))
    memsz := native (le32 header (a + 20))
    flags := native (le32 header (a + 24)) }

def stagePhdrs (header : Nat → Byte) : List Phdr :=
  (List.range (ePhnum header)).map (stagePhdr header)

structure Extents where
  dataStart : Nat
  dataEnd : Nat
  memEnd : Nat

/-- One round of the first loop. -/
def Extents.add (e : Extents) (ph : Phdr) : Extents :=
  if ph.type ≠ ptLoad then e
  -- empty segments are never interesting
  else if ph.memsz = 0 then e
  else
    let start := ph.paddr
    let mend := u32 (start + ph.memsz)
    let rend := u32 (start + ph.filesz)
    { dataStart := if start < e.dataStart then start else e.dataStart
      dataEnd := if rend > e.dataEnd then rend else e.dataEnd
      memEnd := if mend > e.memEnd then mend else e.memEnd }

def extents (phs : List Phdr) : Extents := phs.foldl Extents.add ⟨0xffffffff, 0, 0⟩

/-- One round of the second loop. -/
def copySegment (input : Buffer) (location dataStart : Nat) (buffer : Buffer) (ph : Phdr) :
    Except Fault Buffer :=
  if ph.type ≠ ptLoad then .ok buffer
  else if ph.memsz = 0 then .ok buffer
  else
    let lOffset := if ph.paddr < location then location - ph.paddr else 0
    let lStart := if ph.paddr < location then location else ph.paddr
    memcpy buffer (sub32 lStart dataStart) input (u32 (ph.offset + lOffset))
      (sub32 ph.filesz lOffset)

/-- `none_compress`, with its length as an `int`. -/
def noneCompress (out : Buffer) (off : Nat) (input : Buffer) (inLen : Nat) : Except Fault Buffer :=
  if inLen < 2 ^ 31 then memcpy out off input 0 inLen else .error .outside

/-- `struct cbfs_stage`. -/
def stageHeader (compression entry load len memlen : Nat) : List Byte :=
  le32Bytes compression ++ (le32Bytes entry ++ le32Bytes (entry / 2 ^ 32)) ++
    (le32Bytes load ++ le32Bytes (load / 2 ^ 32)) ++ le32Bytes len ++ le32Bytes memlen

/-- The stage, and the location that is left. -/
def parseElfToStage (host : Host) (arch : Nat) (input : Buffer) (location : Nat) :
    Except Fault (Buffer × Nat) :=
  let header := input.data
  if input.size < sizeofEhdr then .error .outside
  else if !iself header then .error .rejected
  else if !archAccepts arch (eMachine header) then .error .rejected
  else if input.size < elf32ToNative header (ePhoff header) + sizeofPhdr * ePhnum header then
    .error .outside
  else
    let e := extents (stagePhdrs header)
    let dataStart := if e.dataStart < location then location else e.dataStart
    -- the data ends before it starts
    if e.dataEnd ≤ dataStart then .error .rejected
    else if !host.calloc (e.dataEnd - dataStart) then .error .rejected
    else do
      let buffer ← (stagePhdrs header).foldlM (copySegment input location dataStart)
        ⟨fun _ => 0, e.dataEnd - dataStart⟩
      if !host.bufferCreate (sizeofStage + (e.dataEnd - dataStart)) then .error .rejected
      else do
        let fields := stageHeader cbfsCompressNone (eEntry header) dataStart
          (e.dataEnd - dataStart) (sub32 e.memEnd dataStart)
        let output := ⟨fun x => fields.getD x 0, sizeofStage + (e.dataEnd - dataStart)⟩
        let output ← noneCompress output sizeofStage buffer (e.dataEnd - dataStart)
        .ok (output, if location ≠ 0 then sub32 location sizeofStage else location)

-- ---------------------------------------------------------------------------
-- cbfs_load_stage
-- ---------------------------------------------------------------------------

/-- `n` bytes stored from an address on, in a memory of 32-bit addresses. -/
def store32 (mem : Nat → Byte) (dst n : Nat) (src : Nat → Byte) : Nat → Byte := fun a =>
  if a < 2 ^ 32 ∧ sub32 a dst < n then src (sub32 a dst) else mem a

/-- The final size. A stage that is compressed is left out. -/
def cbfsDecompress (algo : Nat) (src : Nat → Byte) (dst len : Nat) (mem : Nat → Byte) :
    Nat × (Nat → Byte) :=
  if algo = cbfsCompressNone then (len, store32 mem dst len src) else (0, mem)

def clearBss (load finalSize memlen : Nat) (mem : Nat → Byte) : Nat → Byte :=
  store32 mem (u32 (load + finalSize)) (sub32 memlen finalSize) fun _ => 0

/-- The entry point, `none` without one, and the memory. -/
def cbfsLoadStage (stage mem : Nat → Byte) : Option Nat × (Nat → Byte) :=
  let load := u32 (le64 stage 12)
  let r := cbfsDecompress (le32 stage 0) (fun i => stage (sizeofStage + i)) load (le32 stage 20) mem
  let finalSize := r.1
  if finalSize = 0 then (none, r.2)
  else (some (u32 (le64 stage 4)), clearBss load finalSize (le32 stage 24) r.2)

end ItxLlama.Coreboot.MkStage
