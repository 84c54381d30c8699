import ItxLlama.Coreboot.DeviceTree
import Mathlib.Logic.Function.Basic

/-!
# The resources of a PCI function

`device/pci_device.c`: the base address registers and the bridge windows are
sized by writing ones and zeros, and programmed with the addresses that the
allocator gave them. A bit of the configuration space is hard-wired or can be
written. A loop over the bits that finds none is `none`.
-/

namespace ItxLlama.Coreboot

open Lib.Word

/-- `bytes` is what the registers hold, `writable` the bits of them that a write changes. -/
structure ConfigSpace where
  bytes : Nat → BitVec 8
  writable : Nat → BitVec 8

def pciReadConfig8 (c : ConfigSpace) (reg : Nat) : BitVec 8 := c.bytes reg

def pciReadConfig16 (c : ConfigSpace) (reg : Nat) : BitVec 16 :=
  pciReadConfig8 c (reg + 1) ++ pciReadConfig8 c reg

def pciReadConfig32 (c : ConfigSpace) (reg : Nat) : BitVec 32 :=
  pciReadConfig16 c (reg + 2) ++ pciReadConfig16 c reg

def pciWriteConfig8 (c : ConfigSpace) (reg : Nat) (value : BitVec 8) : ConfigSpace :=
  let held := (c.bytes reg &&& ~~~c.writable reg) ||| (value &&& c.writable reg)
  { c with bytes := Function.update c.bytes reg held }

def pciWriteConfig16 (c : ConfigSpace) (reg : Nat) (value : BitVec 16) : ConfigSpace :=
  pciWriteConfig8 (pciWriteConfig8 c reg (value.extractLsb' 0 8)) (reg + 1) (value.extractLsb' 8 8)

def pciWriteConfig32 (c : ConfigSpace) (reg : Nat) (value : BitVec 32) : ConfigSpace :=
  pciWriteConfig16 (pciWriteConfig16 c reg (value.extractLsb' 0 16)) (reg + 2)
    (value.extractLsb' 16 16)

def pciMovingConfig8 (dev : ConfigSpace) (reg : Nat) : BitVec 8 × ConfigSpace :=
  let value := pciReadConfig8 dev reg
  let dev := pciWriteConfig8 dev reg 0xff
  let ones := pciReadConfig8 dev reg
  let dev := pciWriteConfig8 dev reg 0x00
  let zeroes := pciReadConfig8 dev reg
  let dev := pciWriteConfig8 dev reg value
  (ones ^^^ zeroes, dev)

def pciMovingConfig16 (dev : ConfigSpace) (reg : Nat) : BitVec 16 × ConfigSpace :=
  let value := pciReadConfig16 dev reg
  let dev := pciWriteConfig16 dev reg 0xffff
  let ones := pciReadConfig16 dev reg
  let dev := pciWriteConfig16 dev reg 0x0000
  let zeroes := pciReadConfig16 dev reg
  let dev := pciWriteConfig16 dev reg value
  (ones ^^^ zeroes, dev)

def pciMovingConfig32 (dev : ConfigSpace) (reg : Nat) : BitVec 32 × ConfigSpace :=
  let value := pciReadConfig32 dev reg
  let dev := pciWriteConfig32 dev reg 0xffffffff
  let ones := pciReadConfig32 dev reg
  let dev := pciWriteConfig32 dev reg 0x00000000
  let zeroes := pciReadConfig32 dev reg
  let dev := pciWriteConfig32 dev reg value
  (ones ^^^ zeroes, dev)

def pciBaseAddressSpaceIo : BitVec 32 := 0x01
def pciBaseAddressMemLimitMask : BitVec 32 := 0x06
def pciBaseAddressMemLimit32 : BitVec 32 := 0x00
def pciBaseAddressMemLimit1M : BitVec 32 := 0x02
def pciBaseAddressMemLimit64 : BitVec 32 := 0x04
def pciBaseAddressMemPrefetch : BitVec 32 := 0x08
def pciBaseAddressMemAttrMask : BitVec 32 := 0x0f
def pciBaseAddressIoAttrMask : BitVec 32 := 0x03

def pciIoBase : BitVec 32 := 0x1c
def pciIoLimit : Nat := 0x1d
def pciMemoryBase : BitVec 32 := 0x20
def pciMemoryLimit : Nat := 0x22
def pciPrefMemoryBase : BitVec 32 := 0x24
def pciPrefMemoryLimit : Nat := 0x26
def pciPrefBaseUpper32 : Nat := 0x28
def pciPrefLimitUpper32 : Nat := 0x2c
def pciIoBaseUpper16 : Nat := 0x30
def pciIoLimitUpper16 : Nat := 0x32

def pciCommandIo : BitVec 16 := 0x1
def pciCommandMemory : BitVec 16 := 0x2
def pciCommandMaster : BitVec 16 := 0x4

def ioresourcePci64 : BitVec 32 := 0x1
def ioresourcePciBridge : BitVec 32 := 0x2

/-- `new_resource`, where `resource` is what the device has for the index, zeroed if it has none. -/
def newResource (resource : Resource) (index : BitVec 32) : Resource :=
  let resource :=
    if !resource.has ioresourceFixed then { resource with flags := 0, base := 0 } else resource
  { resource with size := 0, limit := 0, index := index, align := 0, gran := 0 }

/-- The loops that look for the lowest bit that moves: the bit, and its number. -/
def lowestBit (moving : BitVec 64) : Nat → BitVec 64 → Nat → Option (BitVec 64 × Nat)
  | 0, _, _ => none
  | turns + 1, step, gran =>
    if moving &&& step = 0 then lowestBit moving turns (step <<< 1) (gran + 1)
    else some (step, gran)

/-- The flags and the limit of a register by the bits that do not move. -/
def barConstraints (resource : Resource) (moving : BitVec 64) (attr : BitVec 32) : Resource :=
  if moving = 0 then { resource with flags := 0 }
  else if attr &&& pciBaseAddressSpaceIo ≠ 0 then
    -- an I/O mapped base address
    { resource with flags := resource.flags ||| ioresourceIo, limit := 0xffff }
  else
    -- a memory mapped base address
    let attr := attr &&& pciBaseAddressMemAttrMask
    let resource := { resource with flags := resource.flags ||| ioresourceMem }
    let resource :=
      if attr &&& pciBaseAddressMemPrefetch ≠ 0 then
        { resource with flags := resource.flags ||| ioresourcePrefetch }
      else resource
    let attr := attr &&& pciBaseAddressMemLimitMask
    if attr = pciBaseAddressMemLimit32 then { resource with limit := 0xffffffff }
    else if attr = pciBaseAddressMemLimit1M then { resource with limit := 0x000fffff }
    else if attr = pciBaseAddressMemLimit64 then
      { resource with limit := 0xffffffffffffffff, flags := resource.flags ||| ioresourcePci64 }
    else { resource with flags := 0 }

/-- The bits that move, with those of the high half of a 64 bit resource. -/
def barMoving (dev : ConfigSpace) (index : BitVec 32) (attr moving : BitVec 32) :
    BitVec 64 × ConfigSpace :=
  if attr &&& pciBaseAddressSpaceIo = 0 ∧
      attr &&& pciBaseAddressMemLimitMask = pciBaseAddressMemLimit64 then
    let (high, dev) := pciMovingConfig32 dev (index.toNat + 4)
    (moving.zeroExtend 64 ||| high.zeroExtend 64 <<< 32, dev)
  else (moving.zeroExtend 64, dev)

/-- The size and the alignment by the lowest bit that moves, and the highest address. -/
def barSize (resource : Resource) (moving : BitVec 64) : Option (Resource × Nat) :=
  if moving ≠ 0 then do
    let (size, gran) ← lowestBit moving 64 1 0
    let limit := (moving ||| (size - 1)).toNat
    pure ({ resource with size := size.toNat, align := gran, gran := gran, limit := limit }, limit)
  else some (resource, 0)

def pciGetResource (dev : ConfigSpace) (resource : Resource) (index : BitVec 32) :
    Option (Resource × ConfigSpace) := do
  let resource := newResource resource index
  let value := pciReadConfig32 dev index.toNat
  let (moving, dev) := pciMovingConfig32 dev index.toNat
  let attr := value &&& ~~~moving
  let (moving, dev) := barMoving dev index attr moving
  let (resource, limit) ← barSize resource moving
  let resource := barConstraints resource moving attr
  -- the limit does not exceed the bits that move
  let resource := if resource.limit > limit then { resource with limit := limit } else resource
  pure (resource, dev)

/-- The resource of a window, where `resource` is what the device has for the index. -/
def pciRecordBridgeResource (resource : Resource) (moving : BitVec 64) (index type : BitVec 32) :
    Option (Option Resource) :=
  if moving = 0 then some none
  else do
    let resource := newResource resource index
    let (step, gran) ← lowestBit moving 64 1 0
    pure (some { resource with
      size := 0
      gran := gran
      align := gran
      limit := (moving ||| (step - 1)).toNat
      flags := type ||| ioresourcePciBridge ||| ioresourceBridge })

structure BridgeBases where
  io : Option Resource
  pref : Option Resource
  mem : Option Resource

def pciBridgeReadBases (dev : ConfigSpace) (io pref mem : Resource) :
    Option (BridgeBases × ConfigSpace) := do
  let (base, dev) := pciMovingConfig8 dev pciIoBase.toNat
  let (baseUpper, dev) := pciMovingConfig16 dev pciIoBaseUpper16
  let movingBase := base.zeroExtend 64 <<< 8 ||| baseUpper.zeroExtend 64 <<< 16
  let (limit, dev) := pciMovingConfig8 dev pciIoLimit
  let (limitUpper, dev) := pciMovingConfig16 dev pciIoLimitUpper16
  let movingLimit := limit.zeroExtend 64 <<< 8 ||| limitUpper.zeroExtend 64 <<< 16
  let io ← pciRecordBridgeResource io (movingBase &&& movingLimit) pciIoBase ioresourceIo
  let (base, dev) := pciMovingConfig16 dev pciPrefMemoryBase.toNat
  let (baseUpper, dev) := pciMovingConfig32 dev pciPrefBaseUpper32
  let movingBase := base.zeroExtend 64 <<< 16 ||| baseUpper.zeroExtend 64 <<< 32
  let (limit, dev) := pciMovingConfig16 dev pciPrefMemoryLimit
  let (limitUpper, dev) := pciMovingConfig32 dev pciPrefLimitUpper32
  let movingLimit := limit.zeroExtend 64 <<< 16 ||| limitUpper.zeroExtend 64 <<< 32
  let pref ← pciRecordBridgeResource pref (movingBase &&& movingLimit) pciPrefMemoryBase
    (ioresourceMem ||| ioresourcePrefetch)
  let (base, dev) := pciMovingConfig16 dev pciMemoryBase.toNat
  let (limit, dev) := pciMovingConfig16 dev pciMemoryLimit
  let mem ← pciRecordBridgeResource mem
    (base.zeroExtend 64 <<< 16 &&& limit.zeroExtend 64 <<< 16) pciMemoryBase ioresourceMem
  pure (⟨io, pref, mem⟩, dev)

/-- `align_up` of a 64-bit value. -/
def alignUp64 (val gran : Nat) : Nat := alignDown (u64 (val + (2 ^ gran - 1))) (2 ^ gran)

def resourceEnd (resource : Resource) : Nat :=
  u64 (resource.base + alignUp64 resource.size resource.gran + (2 ^ 64 - 1))

/-- `1 << gran` as an `int`, in 64 bits. -/
def intShift (gran : Nat) : Nat := ((1#32 <<< gran).signExtend 64).toNat

/-- The configuration space, and the field of the device for the command register. -/
structure PciDev where
  config : ConfigSpace
  command : BitVec 16

/-- What is enabled in the command register. -/
def resourceCommand (resource : Resource) : BitVec 16 :=
  if resource.size ≠ 0 then
    (if resource.has ioresourceMem then pciCommandMemory else 0) |||
    (if resource.has ioresourceIo then pciCommandIo else 0) |||
    (if resource.has ioresourcePciBridge then pciCommandMaster else 0)
  else 0

/-- The writes of a base address register. -/
def setBar (config : ConfigSpace) (resource : Resource) (base : Nat) : ConfigSpace :=
  let baseLo := BitVec.ofNat 32 base
  let baseHi := BitVec.ofNat 32 (base >>> 32)
  let baseLo := if resource.has ioresourceIo then baseLo ||| pciBaseAddressSpaceIo else baseLo
  let config := pciWriteConfig32 config resource.index.toNat baseLo
  if resource.has ioresourcePci64 then pciWriteConfig32 config (resource.index.toNat + 4) baseHi
  else config

/-- The writes of a bridge window; `none` for another index. -/
def setWindow (config : ConfigSpace) (index : BitVec 32) (base fin : Nat) : Option ConfigSpace :=
  if index = pciIoBase then
    let config := pciWriteConfig8 config pciIoBase.toNat (BitVec.ofNat 8 (base >>> 8))
    let config := pciWriteConfig16 config pciIoBaseUpper16 (BitVec.ofNat 16 (base >>> 16))
    let config := pciWriteConfig8 config pciIoLimit (BitVec.ofNat 8 (fin >>> 8))
    some (pciWriteConfig16 config pciIoLimitUpper16 (BitVec.ofNat 16 (fin >>> 16)))
  else if index = pciMemoryBase then
    let config := pciWriteConfig16 config pciMemoryBase.toNat (BitVec.ofNat 16 (base >>> 16))
    some (pciWriteConfig16 config pciMemoryLimit (BitVec.ofNat 16 (fin >>> 16)))
  else if index = pciPrefMemoryBase then
    let config := pciWriteConfig16 config pciPrefMemoryBase.toNat (BitVec.ofNat 16 (base >>> 16))
    let config := pciWriteConfig32 config pciPrefBaseUpper32 (BitVec.ofNat 32 (base >>> 32))
    let config := pciWriteConfig16 config pciPrefMemoryLimit (BitVec.ofNat 16 (fin >>> 16))
    some (pciWriteConfig32 config pciPrefLimitUpper32 (BitVec.ofNat 32 (fin >>> 32)))
  else none

def Resource.markStored (resource : Resource) : Resource :=
  { resource with flags := resource.flags ||| ioresourceStored }

/-- The first and the last address to store. -/
def storedRange (resource : Resource) : Nat × Nat × Resource :=
  if resource.size = 0 ∧ resource.has ioresourcePciBridge then
    -- a bridge has no enable bit, so its range ends before it begins
    (resource.limit, u64 (resource.limit + (2 ^ 64 - intShift resource.gran)),
      { resource with base := resource.limit })
  else (resource.base, resourceEnd resource, resource)

def storeRange (config : ConfigSpace) (resource : Resource) (base fin : Nat) : Option ConfigSpace :=
  if !resource.has ioresourcePciBridge then some (setBar config resource base)
  else setWindow config resource.index base fin

def pciSetResource (dev : PciDev) (resource : Resource) : PciDev × Resource :=
  if !resource.has ioresourceAssigned then (dev, resource)
  else if resource.has ioresourceFixed then (dev, resource)
  else if resource.has ioresourceStored then (dev, resource)
  else if resource.has ioresourceSubtractive then (dev, resource)
  else if !resource.has (ioresourceMem ||| ioresourceIo) then (dev, resource)
  else
    let command := dev.command ||| resourceCommand resource
    let (base, fin, resource) := storedRange resource.markStored
    match storeRange dev.config resource base fin with
    | some config => (⟨config, command⟩, resource)
    | none =>
      -- not stored
      (⟨dev.config, command⟩, { resource with flags := resource.flags &&& ~~~ioresourceStored })

end ItxLlama.Coreboot
