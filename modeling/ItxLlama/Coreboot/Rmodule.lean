import ItxLlama.Lib.FlatMemory
import ItxLlama.Lib.Word

/-!
# Relocatable modules

`rmodule_parse`, `rmodule_load` and `rmodule_calc_region` of `lib/rmodule.c`.
The header stays in memory and is read there at each use.
-/

namespace ItxLlama.Coreboot.Rmodules

open Lib.FlatMemory Lib.Word Lib.Wrap

def rmoduleMagic : BitVec 16 := 0xf8fe
def rmoduleVersion1 : BitVec 8 := 1
def r386Relative : BitVec 32 := 8
def sizeofElf32Rel : Nat := 8

/-- `struct rmodule_header` without the padding and what only callers read. -/
structure RmoduleHeader where
  magic : BitVec 16
  version : BitVec 8
  payloadBeginOffset : BitVec 32
  payloadEndOffset : BitVec 32
  relocationsBeginOffset : BitVec 32
  relocationsEndOffset : BitVec 32
  moduleLinkStartAddress : BitVec 32
  moduleProgramSize : BitVec 32
  bssBegin : BitVec 32
  bssEnd : BitVec 32
  deriving DecidableEq, Repr

def sizeofRmoduleHeader : Nat := 64

def rmoduleHeader (mem : Memory) (rhdr : Address) : RmoduleHeader where
  magic := mem (rhdr + 1#32) ++ mem rhdr
  version := mem (rhdr + 2#32)
  payloadBeginOffset := word mem (rhdr + 4#32)
  payloadEndOffset := word mem (rhdr + 8#32)
  relocationsBeginOffset := word mem (rhdr + 12#32)
  relocationsEndOffset := word mem (rhdr + 16#32)
  moduleLinkStartAddress := word mem (rhdr + 20#32)
  moduleProgramSize := word mem (rhdr + 24#32)
  bssBegin := word mem (rhdr + 40#32)
  bssEnd := word mem (rhdr + 44#32)

structure Rmodule where
  location : Address
  header : Address
  payload : Address
  payloadSize : BitVec 32
  relocations : Address
  deriving DecidableEq, Repr

/-- The module that `rmodule_parse` makes of the raw data at `ptr`. -/
def rmoduleParse (mem : Memory) (ptr : Address) : Option Rmodule :=
  let rhdr := rmoduleHeader mem ptr
  if ptr = 0 then none
  else if rhdr.magic ≠ rmoduleMagic then none
  else if rhdr.version ≠ rmoduleVersion1 then none
  else some
    { location := 0
      header := ptr
      payload := ptr + rhdr.payloadBeginOffset
      payloadSize := rhdr.payloadEndOffset - rhdr.payloadBeginOffset
      relocations := ptr + rhdr.relocationsBeginOffset }

def rmoduleLoadAddr (mem : Memory) (module : Rmodule) (blobAddr : BitVec 32) : Address :=
  module.location + (blobAddr - (rmoduleHeader mem module.header).moduleLinkStartAddress)

def rmoduleClearBss (mem : Memory) (module : Rmodule) : Memory :=
  let rhdr := rmoduleHeader mem module.header
  memset mem (rmoduleLoadAddr mem module rhdr.bssBegin) 0 (rhdr.bssEnd - rhdr.bssBegin).toNat

def rmoduleNumberRelocations (mem : Memory) (module : Rmodule) : Nat :=
  let rhdr := rmoduleHeader mem module.header
  (rhdr.relocationsEndOffset - rhdr.relocationsBeginOffset).toNat / sizeofElf32Rel

def rmoduleCopyPayload (mem : Memory) (module : Rmodule) : Memory :=
  if module.location = module.payload then mem
  else memcpy mem module.location module.payload module.payloadSize.toNat

/-- 0 is `NULL`: header field entries are not relocated. The comparison is an
unsigned one. -/
def rmoduleAdjustmentLocation (mem : Memory) (module : Rmodule) (reloc : Address) : Address :=
  let relocOffset := word mem reloc
  if relocOffset < (rmoduleHeader mem module.header).moduleLinkStartAddress then 0
  else rmoduleLoadAddr mem module relocOffset

def relocateLoop (module : Rmodule) (adjustment : BitVec 32) :
    (numRelocations : Nat) → (reloc : Address) → Memory → Int × Memory
  | 0, _, mem => (0, mem)
  | n + 1, reloc, mem =>
    if word mem (reloc + 4#32) ≠ r386Relative then (-1, mem)
    else
      let adjustLoc := rmoduleAdjustmentLocation mem module reloc
      let mem := if adjustLoc ≠ 0 then patch adjustment mem adjustLoc else mem
      relocateLoop module adjustment n (reloc + 8#32) mem

def rmoduleRelocate (mem : Memory) (module : Rmodule) : Int × Memory :=
  relocateLoop module (rmoduleLoadAddr mem module 0) (rmoduleNumberRelocations mem module)
    module.relocations mem

def rmoduleLoad (mem : Memory) (base : Address) (module : Rmodule) : Int × Memory :=
  let module := { module with location := base }
  let r := rmoduleRelocate (rmoduleCopyPayload mem module) module
  if r.1 ≠ 0 then (-1, r.2) else (0, rmoduleClearBss r.2 module)

-- ---------------------------------------------------------------------------
-- Where to put a module
-- ---------------------------------------------------------------------------

/-- What `rmodule_calc_region` gives back: the size, the load offset and the
offset of the header. -/
structure Region where
  regionSize : Nat
  loadOffset : Nat
  rmoduleOffset : Nat
  deriving DecidableEq, Repr

/-- The region, behind the number of times that `BUG()` printed its line; the code goes on after
each. -/
def rmoduleCalcRegion (regionAlignment rmoduleSize : Nat) : Nat × Region :=
  let bugs := if regionAlignment &&& sub32 regionAlignment 1 ≠ 0 then 1 else 0
  let regionAlignment := if regionAlignment < 4096 then 4096 else regionAlignment
  let bugs := if regionAlignment < sizeofRmoduleHeader then bugs + 1 else bugs
  (bugs,
    { regionSize := alignDown (u32 (u32 (rmoduleSize + regionAlignment) + (4096 - 1))) 4096
      loadOffset := regionAlignment
      rmoduleOffset := regionAlignment - sizeofRmoduleHeader })

end ItxLlama.Coreboot.Rmodules
