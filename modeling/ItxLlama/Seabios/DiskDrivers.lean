import ItxLlama.Seabios.Disk

/-!
# The drivers' commands

What `process_op` makes a drive's driver tell its device for a read or a
write: the ATA and AHCI task files, the READ(10)/WRITE(10) block, the virtio
request, the floppy controller's parameters and the memory a ramdisk copy
touches.
-/

namespace ItxLlama.Seabios

open Lib.Word

-- ---------------------------------------------------------------------------
-- ATA and AHCI
-- ---------------------------------------------------------------------------

structure AtaPioCommand where
  sectorCount : Nat
  lbaLow : Nat
  lbaMid : Nat
  lbaHigh : Nat
  device : Nat
  command : Nat
  sectorCount2 : Nat := 0
  lbaLow2 : Nat := 0
  lbaMid2 : Nat := 0
  lbaHigh2 : Nat := 0
  deriving DecidableEq, Repr

def ataCmdReadSectors : Nat := 0x20
def ataCmdReadSectorsExt : Nat := 0x24
def ataCmdReadDmaExt : Nat := 0x25
def ataCmdWriteSectors : Nat := 0x30
def ataCmdWriteSectorsExt : Nat := 0x34
def ataCmdWriteDmaExt : Nat := 0x35
def ataCmdReadDma : Nat := 0xc8
def ataCmdWriteDma : Nat := 0xca
def ataCbDhLba : Nat := 0x40

/-- The ops whose count or sectors the first set of registers cannot hold. -/
def DiskOp.NeedsExt (op : DiskOp) : Prop :=
  op.count ≥ 2 ^ 8 ∨ u64 (op.lba + op.count) ≥ 2 ^ 28

instance (op : DiskOp) : Decidable op.NeedsExt := inferInstanceAs (Decidable (_ ∨ _))

/-- The task file of `ata_readwrite`, and with `usepio` off that of
`sata_prep_readwrite`. -/
def ataCommand (op : DiskOp) (iswrite usepio : Bool) : AtaPioCommand :=
  if op.NeedsExt then
    let lba := op.lba % 2 ^ 24
    { sectorCount2 := u8 (op.count / 2 ^ 8)
      lbaLow2 := u8 (op.lba / 2 ^ 24)
      lbaMid2 := u8 (op.lba / 2 ^ 32)
      lbaHigh2 := u8 (op.lba / 2 ^ 40)
      command :=
        if usepio then if iswrite then ataCmdWriteSectorsExt else ataCmdReadSectorsExt
        else if iswrite then ataCmdWriteDmaExt else ataCmdReadDmaExt
      sectorCount := u8 op.count
      lbaLow := u8 lba
      lbaMid := u8 (lba / 2 ^ 8)
      lbaHigh := u8 (lba / 2 ^ 16)
      device := (lba / 2 ^ 24) % 16 ||| ataCbDhLba }
  else
    { command :=
        if usepio then if iswrite then ataCmdWriteSectors else ataCmdReadSectors
        else if iswrite then ataCmdWriteDma else ataCmdReadDma
      sectorCount := u8 op.count
      lbaLow := u8 op.lba
      lbaMid := u8 (op.lba / 2 ^ 8)
      lbaHigh := u8 (op.lba / 2 ^ 16)
      device := (op.lba / 2 ^ 24) % 16 ||| ataCbDhLba }

/-- The commands for which `send_cmd` writes the second set of registers,
and the device reads it. -/
def AtaPioCommand.isExt (cmd : AtaPioCommand) : Bool :=
  cmd.command &&& 0xee = ataCmdReadSectorsExt

/-- The first sector the device takes the command to be about. -/
def AtaPioCommand.lba (cmd : AtaPioCommand) : Nat :=
  let low := cmd.lbaLow + cmd.lbaMid * 2 ^ 8 + cmd.lbaHigh * 2 ^ 16
  if cmd.isExt then
    low + cmd.lbaLow2 * 2 ^ 24 + cmd.lbaMid2 * 2 ^ 32 + cmd.lbaHigh2 * 2 ^ 40
  else low + (cmd.device &&& 0xf) * 2 ^ 24

/-- The number of sectors, where 0 stands for one more than the largest. -/
def AtaPioCommand.count (cmd : AtaPioCommand) : Nat :=
  if cmd.isExt then
    let n := cmd.sectorCount + cmd.sectorCount2 * 2 ^ 8
    if n = 0 then 2 ^ 16 else n
  else if cmd.sectorCount = 0 then 2 ^ 8 else cmd.sectorCount

/-- The sectors the device goes through: it numbers them in 48 bits. -/
def AtaPioCommand.sectors (cmd : AtaPioCommand) : List Nat :=
  (List.range cmd.count).map fun i => (cmd.lba + i) % 2 ^ 48

structure SffDmaPrd where
  buf : Nat
  count : Nat
  last : Bool
  deriving DecidableEq, Repr

/-- The descriptors of `ata_try_dma`: each ends at a 64 KiB boundary, and
`room` more of them fit. -/
def buildPrd (dest bytes : Nat) : (room : Nat) → Option (List SffDmaPrd)
  | 0 => if bytes = 0 then some [] else none
  | room + 1 =>
    if bytes = 0 then some []
    else
      let count := min bytes (0x10000 - dest % 0x10000)
      (buildPrd (u32 (dest + count)) (bytes - count) room).map
        (⟨dest, count, bytes - count = 0⟩ :: ·)

def ataTryDma (op : DiskOp) (iomaster : Nat) : Option (List SffDmaPrd) :=
  let dest := op.buf
  if dest % 2 = 1 then none
  else if iomaster = 0 then none
  else
    let bytes := op.count * diskSectorSize
    if bytes = 0 then none else buildPrd dest bytes 16

/-- The commands of `ahci_disk_readwrite`: one, or one for each sector where
the buffer is not word aligned. -/
def ahciCommands (op : DiskOp) : List AtaPioCommand :=
  if op.buf % 2 = 0 then [ataCommand op op.iswrite false]
  else (List.range op.count).map fun block =>
    ataCommand { op with lba := u64 (op.lba + block), count := 1 } op.iswrite false

-- ---------------------------------------------------------------------------
-- SCSI and virtio
-- ---------------------------------------------------------------------------

structure CdbRwdata10 where
  lba : Nat
  count : Nat
  deriving DecidableEq, Repr

def cdbRwdata (op : DiskOp) : CdbRwdata10 := ⟨u32 op.lba, u16 op.count⟩

structure VirtioBlkReq where
  sector : Nat
  length : Nat
  deriving DecidableEq, Repr

def virtioBlkOp (d : Drive) (op : DiskOp) : VirtioBlkReq := ⟨op.lba, d.blksize * op.count⟩

-- ---------------------------------------------------------------------------
-- Floppy
-- ---------------------------------------------------------------------------

def lba2chs (d : Drive) (op : DiskOp) : Chs :=
  let tmp := u32 op.lba
  let sector := u16 (tmp % d.lchs.sector + 1)
  let tmp := tmp / d.lchs.sector
  let head := u16 (tmp % d.lchs.head)
  let tmp := tmp / d.lchs.head
  ⟨head, u16 tmp, sector⟩

/-- The parameters of a read or write command that name its place: the
cylinder, head and first sector, and the last sector. -/
structure FloppyParam where
  cylinder : Nat
  head : Nat
  sector : Nat
  eot : Nat
  deriving DecidableEq, Repr

def floppyParam (d : Drive) (op : DiskOp) : FloppyParam :=
  let chs := lba2chs d op
  ⟨u8 chs.cylinder, u8 chs.head, u8 chs.sector, u8 (chs.sector + op.count - 1)⟩

/-- `dma_floppy` refuses a buffer that crosses a 64 KiB boundary. -/
def dmaFloppy (addr count : Nat) : Bool :=
  let end_ := u16 (count - 1)
  addr / 2 ^ 16 = u32 (addr + end_) / 2 ^ 16

/-- The sectors that the controller goes through: from the first on, up to
the last sector of the command. -/
def FloppyParam.sectors (d : Drive) (p : FloppyParam) : List Nat :=
  List.range' ((p.cylinder * d.lchs.head + p.head) * d.lchs.sector + p.sector - 1)
    (p.eot + 1 - p.sector)

-- ---------------------------------------------------------------------------
-- Ramdisk
-- ---------------------------------------------------------------------------

/-- The words that `ramdisk_copy` asks of INT 15h function 87h. -/
def ramdiskWords (op : DiskOp) : Nat := u16 (op.count * diskSectorSize / 2)

/-- The bytes of either segment that `rep movsw` goes over: SI and DI are 16
bits wide and start over after 64 KiB. -/
def movswSpan (words : Nat) : Nat := min (words * 2) (2 ^ 16)

def ramdiskOffset (d : Drive) (op : DiskOp) : Nat :=
  u32 (d.cntlId + u32 (u32 op.lba * diskSectorSize))

-- ---------------------------------------------------------------------------
-- Any drive
-- ---------------------------------------------------------------------------

/-- The sectors that the drive's device is told to transfer, in their order:
`none` where nothing is sent to a device. -/
def sentSectors (d : Drive) (op : DiskOp) : Option (List Nat) :=
  match d.type with
  | .floppy =>
    if dmaFloppy op.buf (op.count * diskSectorSize) then some ((floppyParam d op).sectors d)
    else none
  | .ata iomaster => some (ataCommand op op.iswrite (ataTryDma op iomaster).isNone).sectors
  | .ramdisk => none
  | .virtioBlk =>
    let req := virtioBlkOp d op
    some (List.range' req.sector (req.length / diskSectorSize))
  | .ahci => some ((ahciCommands op).flatMap AtaPioCommand.sectors)
  | .scsi _ =>
    let cmd := cdbRwdata op
    some (List.range' cmd.lba cmd.count)

/-- The memory behind a ramdisk that the copy reads or writes. -/
def touchedMemory (d : Drive) (op : DiskOp) : Option (Nat × Nat) :=
  match d.type with
  | .ramdisk => some (ramdiskOffset d op, ramdiskOffset d op + movswSpan (ramdiskWords op))
  | _ => none

end ItxLlama.Seabios
