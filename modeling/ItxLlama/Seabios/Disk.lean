import ItxLlama.Lib.Word

/-!
# Drives and the INT 13h front ends

`block.h`, `disk.c` and the drive setup of `hw/ata.c`, `hw/blockcmd.c`,
`hw/floppy.c` and `hw/ramdisk.c`. CD drives are left out. A drive carries
the state of its driver that a transfer reads.
-/

namespace ItxLlama.Seabios

open Lib.Word

def diskSectorSize : Nat := 512

def cmdRead : Nat := 0x02
def cmdWrite : Nat := 0x03

def diskRetSuccess : Nat := 0x00
def diskRetEparam : Nat := 0x01
def diskRetEbadtrack : Nat := 0x0c

/-- The transports behind `process_scsi_op`. -/
inductive ScsiTransport where
  | usb | usb32 | uas | uas32 | virtioScsi | lsiScsi | espScsi | megasas | pvscsi
  deriving DecidableEq, Repr

/-- `DTYPE_*`, with the I/O base of the bus master of an ATA channel, which
is 0 where there is none. -/
inductive DriveType where
  | floppy
  | ata (iomaster : Nat)
  | ramdisk
  | virtioBlk
  | ahci
  | scsi (transport : ScsiTransport)
  deriving DecidableEq, Repr

structure Chs where
  head : Nat
  cylinder : Nat
  sector : Nat
  deriving DecidableEq, Repr

structure Drive where
  type : DriveType
  lchs : Chs
  sectors : Nat
  cntlId : Nat
  blksize : Nat
  deriving DecidableEq, Repr

structure DiskOp where
  lba : Nat
  buf : Nat
  count : Nat
  command : Nat
  deriving DecidableEq, Repr

def DiskOp.iswrite (op : DiskOp) : Bool := op.command = cmdWrite

-- ---------------------------------------------------------------------------
-- Drive setup
-- ---------------------------------------------------------------------------

def floppyInfo : List Chs :=
  [⟨0, 0, 0⟩, ⟨2, 40, 9⟩, ⟨2, 80, 15⟩, ⟨2, 80, 9⟩, ⟨2, 80, 18⟩, ⟨2, 80, 36⟩, ⟨1, 40, 8⟩,
    ⟨1, 40, 9⟩, ⟨2, 40, 8⟩]

def Chs.total (c : Chs) : Nat := c.cylinder * c.head * c.sector

/-- The first type from 1 on whose image has this size. -/
def findFloppyType (size : Nat) : Option Nat :=
  ((List.range floppyInfo.length).tail).find? fun i =>
    (floppyInfo[i]?).any fun c => c.total * diskSectorSize = size

def initFloppy (floppyid ftype : Nat) : Option Drive :=
  if ftype = 0 then none
  else (floppyInfo[ftype]?).map fun chs =>
    { type := .floppy, lchs := chs, sectors := 2 ^ 64 - 1, cntlId := floppyid,
      blksize := diskSectorSize }

/-- The drive for an image of `size` bytes that was copied to `pos`. -/
def ramdiskSetup (pos size : Nat) : Option Drive :=
  match findFloppyType size with
  | none => none
  | some ftype => (initFloppy pos ftype).map fun d => { d with type := .ramdisk }

/-- The sector count of an ATA or AHCI disk, from its IDENTIFY data. -/
def identifySectors (buffer : Nat → Nat) : Nat :=
  if (buffer 83).testBit 10 then
    buffer 100 + buffer 101 * 2 ^ 16 + buffer 102 * 2 ^ 32 + buffer 103 * 2 ^ 48
  else buffer 60 + buffer 61 * 2 ^ 16

/-- The drives that end up in `IDMap`. The logical geometry of a hard disk
comes from `setup_translation`; nothing here depends on how. -/
inductive Mapped : Drive → Prop
  | floppy (h : initFloppy floppyid ftype = some d) (hid : floppyid < 2) : Mapped d
  | ramdisk (h : ramdiskSetup pos size = some d) (hpos : pos + size ≤ 2 ^ 32) : Mapped d
  | ata (iomaster : Nat) (lchs : Chs) (cntlId : Nat) (buffer : Nat → Nat)
      (hbuf : ∀ i, buffer i < 2 ^ 16) :
      Mapped ⟨.ata iomaster, lchs, identifySectors buffer, cntlId, diskSectorSize⟩
  | ahci (lchs : Chs) (cntlId : Nat) (buffer : Nat → Nat) (hbuf : ∀ i, buffer i < 2 ^ 16) :
      Mapped ⟨.ahci, lchs, identifySectors buffer, cntlId, diskSectorSize⟩
  | virtioBlk (lchs : Chs) (cntlId capacity : Nat) (hcap : capacity < 2 ^ 64) :
      Mapped ⟨.virtioBlk, lchs, capacity, cntlId, diskSectorSize⟩
  | scsi (transport : ScsiTransport) (lchs : Chs) (cntlId last : Nat) (hlast : last < 2 ^ 32) :
      Mapped ⟨.scsi transport, lchs, last + 1, cntlId, diskSectorSize⟩

-- ---------------------------------------------------------------------------
-- Front ends
-- ---------------------------------------------------------------------------

/-- The registers and the packet at DS:SI that a read or write reads. -/
structure Bregs where
  al : UInt8
  ch : UInt8
  cl : UInt8
  dh : UInt8
  es : UInt16
  bx : UInt16
  deriving DecidableEq, Repr

structure Int13ext where
  count : UInt16
  seg : UInt16
  offset : UInt16
  lba : UInt64
  deriving DecidableEq, Repr

def Bregs.cylinder (regs : Bregs) : Nat :=
  regs.ch.toNat ||| ((regs.cl.toNat <<< 2) &&& 0x300)

def Bregs.sector (regs : Bregs) : Nat := regs.cl.toNat &&& 0x3f

/-- The op that `basic_access` sends, unless it refuses the registers. -/
def basicOp (regs : Bregs) (d : Drive) (command : Nat) : Option DiskOp :=
  let count := regs.al.toNat
  let cylinder := regs.cylinder
  let sector := regs.sector
  let head := regs.dh.toNat
  if count > 128 ∨ count = 0 ∨ sector = 0 then none
  else if cylinder ≥ d.lchs.cylinder ∨ head ≥ d.lchs.head ∨ sector > d.lchs.sector then none
  else some
    { lba := u32 ((cylinder * d.lchs.head + head) * d.lchs.sector + sector - 1)
      buf := regs.es.toNat * 16 + regs.bx.toNat
      count
      command }

/-- The op that `extended_access` sends; it refuses a start beyond the end,
and has nothing to do where the count is 0. -/
def extendedOp (param : Int13ext) (d : Drive) (command : Nat) : Option DiskOp :=
  if param.lba.toNat ≥ d.sectors then none
  else if param.count = 0 then none
  else some
    { lba := param.lba.toNat
      buf := param.seg.toNat * 16 + param.offset.toNat
      count := param.count.toNat
      command }

/-- What `send_disk_op` gives back: a return code and the updated count. -/
structure OpResult where
  ret : Nat
  count : Nat
  deriving DecidableEq, Repr

/-- AL and the status, given what `send_disk_op` does. -/
def basicAccess (send : DiskOp → OpResult) (regs : Bregs) (d : Drive) (command : Nat) :
    Nat × Nat :=
  match basicOp regs d command with
  | none => (regs.al.toNat, diskRetEparam)
  | some op => (u8 (send op).count, (send op).ret)

/-- The count in the packet and the status. -/
def extendedAccess (send : DiskOp → OpResult) (param : Int13ext) (d : Drive) (command : Nat) :
    Nat × Nat :=
  if param.lba.toNat ≥ d.sectors then (param.count.toNat, diskRetEparam)
  else match extendedOp param d command with
    | none => (param.count.toNat, diskRetSuccess)
    | some op => ((send op).count, (send op).ret)

/-- The drives of `map_floppy_drive`: `floppy_13` keeps the extended
functions from them. -/
def Drive.isFloppy (d : Drive) : Bool := d.type = .floppy ∨ d.type = .ramdisk

/-- A read or write call of INT 13h: functions 02h/03h and 42h/43h. -/
inductive Int13Access where
  | basic (regs : Bregs) (iswrite : Bool)
  | extended (param : Int13ext) (iswrite : Bool)
  deriving DecidableEq, Repr

/-- The op that the call makes for drive `d`. -/
def Int13Access.op (d : Drive) : Int13Access → Option DiskOp
  | basic regs iswrite => basicOp regs d (if iswrite then cmdWrite else cmdRead)
  | extended param iswrite =>
    if d.isFloppy then none else extendedOp param d (if iswrite then cmdWrite else cmdRead)

end ItxLlama.Seabios
