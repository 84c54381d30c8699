import ItxLlama.Coreboot.CbfsImage

/-!
# The CBFS reader of coreboot

`lib/cbfs_core.c` over the memory-mapped media of `arch/x86/lib/rom_media.c`.
The memory wraps at 4 GiB; the ROM is at its end.
-/

namespace ItxLlama.Coreboot.Cbfs

open Lib.Word
open Lib.Bytes

/-- A byte of the 32-bit address space. -/
def fetch (mem : Nat → Byte) : Nat → Byte := fun a => mem (u32 a)

section Media

variable (configRomSize : Nat) (mem : Nat → Byte)

/-- `*(uint32_t *)0xfffffffc` -/
def cbfsHeaderRomAddress : Nat := le32 (fetch mem) 0xfffffffc

/-- `media->context`, which `init_x86rom_cbfs_media` sets. -/
def mediaContext : Nat :=
  let header := cbfsHeaderRomAddress mem
  if headerMagic (fetch mem) header ≠ cbfsHeaderMagic then configRomSize
  else headerRomsize (fetch mem) header

/-- An offset above `0xf0000000` is an address. -/
def x86RomMap (context offset : Nat) : Nat :=
  if offset > 0xf0000000 then offset else u32 (2 ^ 32 - context + offset)

def cbfsMediaInvalidMapAddress : Nat := 0xffffffff

def cbfsGetHeader : Option Nat :=
  let header := x86RomMap (mediaContext configRomSize mem) (cbfsHeaderRomAddress mem)
  if header = cbfsMediaInvalidMapAddress then none
  else if headerMagic (fetch mem) header ≠ cbfsHeaderMagic then none
  else some header

/-- The loop of `cbfs_get_file`; `test` compares the name at an address.
`none` is a loop that has not ended within its bound. -/
def cbfsGetFileLoop (test : Nat → Bool) (context align romsize : Nat) :
    (fuel offset : Nat) → Option (Option Nat)
  | 0, _ => none
  | fuel + 1, offset =>
    if offset < romsize then
      let file := x86RomMap context offset
      if hasMagic (fetch mem) file = false then
        let newAlign := if offset % align ≠ 0 then u32 (align + (align - offset % align)) else align
        cbfsGetFileLoop test context align romsize fuel (u32 (offset + newAlign))
      else
        let fileName := x86RomMap context (u32 (offset + sizeofFile))
        if fileName ≠ cbfsMediaInvalidMapAddress ∧ test fileName then some (some file)
        else
          let offset := u32 (offset + u32 (fileLen (fetch mem) file + fileOffset (fetch mem) file))
          let offset := if offset % align ≠ 0 then u32 (offset + (align - offset % align)) else offset
          cbfsGetFileLoop test context align romsize fuel offset
    else some none

/-- `romsize`, on x86. -/
def cbfsRomsize (header : Nat) : Nat :=
  u32 (headerRomsize (fetch mem) header + 2 ^ 32 - headerBootblocksize (fetch mem) header)

/-- `cbfs_get_file`, for the file whose name passes the test. -/
def cbfsGetFileBy (test : Nat → Bool) (fuel : Nat) : Option (Option Nat) :=
  (cbfsGetHeader configRomSize mem).elim (some none) fun header =>
    cbfsGetFileLoop mem test (mediaContext configRomSize mem) (headerAlign (fetch mem) header)
      (cbfsRomsize mem header) fuel (headerOffset (fetch mem) header)

def cbfsGetFile (name : List Byte) (fuel : Nat) : Option (Option Nat) :=
  cbfsGetFileBy configRomSize mem (fun fileName => streq (fetch mem) fileName name) fuel

end Media

end ItxLlama.Coreboot.Cbfs
