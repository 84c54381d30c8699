import ItxLlama.Seabios.DiskDrivers

/-!
# Transfers and their counts

`process_op` for reads and writes on ATA disks, USB mass storage and
ramdisks: how each driver turns what its device answers into a return code
and an updated count. A device is the answers it gives, in the order in
which the driver asks; beside them stands what, by its interface, it has
then transferred.
-/

namespace ItxLlama.Seabios

open Lib.Word

-- ---------------------------------------------------------------------------
-- ATA
-- ---------------------------------------------------------------------------

/-- The outcome of a wait for a status without BSY: `none` on a timeout. -/
abbrev Poll := Option Nat

def ataCbStatBsy : Nat := 0x80
def ataCbStatDf : Nat := 0x20
def ataCbStatDrq : Nat := 0x08
def ataCbStatErr : Nat := 0x01

def bmStatusIrq : Nat := 0x04
def bmStatusError : Nat := 0x02
def bmStatusActive : Nat := 0x01

/-- What an ATA channel answers to one command: the waits of `send_cmd` and
the device/head register in between, the wait of `ata_wait_data`, the wait
after each sector, and for DMA the bus master's status at the end of its
wait and the wait that follows. -/
structure AtaDevice where
  notBsy : Poll
  olddh : Nat
  newdh : Nat
  selected : Poll
  waitData : Poll
  pio : Nat → Poll
  bmStatus : Nat
  ide : Poll

def sendCmd (dev : AtaDevice) : Int :=
  match dev.notBsy with
  | none => -1
  | some _ =>
    if (dev.olddh ^^^ dev.newdh).testBit 4 then
      match dev.selected with
      | none => -1
      | some _ => 0
    else 0

def ataWaitData (dev : AtaDevice) : Int :=
  match dev.waitData with
  | none => -1
  | some status =>
    if status &&& ataCbStatErr ≠ 0 then -4
    else if status &&& ataCbStatDrq = 0 then -5
    else 0

/-- The end of `ata_pio_transfer`: its return code, what is left of `count`
to take off `op->count`, and the sectors moved through the data register. -/
structure PioEnd where
  ret : Int
  left : Nat
  moved : Nat
  deriving DecidableEq, Repr

/-- The bits that stop the loop short unless only DRQ is among them. -/
def goesOn (status : Nat) : Bool :=
  status &&& (ataCbStatBsy ||| ataCbStatDrq ||| ataCbStatErr) = ataCbStatDrq

/-- The bits checked after the last sector: a read leaves DF out. -/
def endMask (iswrite : Bool) : Nat :=
  if iswrite then ataCbStatBsy ||| ataCbStatDf ||| ataCbStatDrq ||| ataCbStatErr
  else ataCbStatBsy ||| ataCbStatDrq ||| ataCbStatErr

/-- The loop, from sector `k` on with `count` sectors left. -/
def pioLoop (iswrite : Bool) (pio : Nat → Poll) (k : Nat) : (count : Nat) → PioEnd
  | 0 => ⟨0, 0, k⟩
  | count + 1 =>
    match pio k with
    | none => ⟨-1, count + 1, k + 1⟩
    | some status =>
      if count = 0 then
        ⟨if status &&& endMask iswrite ≠ 0 then -7 else 0, 0, k + 1⟩
      else if goesOn status then pioLoop iswrite pio (k + 1) count
      else ⟨-6, count, k + 1⟩

/-- A count of 0 would first be 0 again after `2 ^ 32` sectors; the front
ends send no such op. -/
def ataPioTransfer (op : DiskOp) (dev : AtaDevice) : PioEnd :=
  pioLoop op.iswrite dev.pio 0 (if op.count = 0 then 2 ^ 32 else op.count)

/-- A return code, `op->count` as the driver leaves it, and the number of
leading sectors that its device has transferred without reporting an
error. -/
structure DriverEnd where
  ret : Int
  count : Nat
  transferred : Nat
  deriving DecidableEq, Repr

/-- A status in which the device reports that the sector before it failed. -/
def reportsError (status : Nat) : Bool := status &&& (ataCbStatErr ||| ataCbStatDf) ≠ 0

/-- The leading ones of the next `n` indices from `i` on at which `p` holds. -/
def leading (p : Nat → Bool) (i : Nat) : (n : Nat) → Nat
  | 0 => 0
  | n + 1 => if p i then leading p (i + 1) n + 1 else 0

/-- A sector read counts where DRQ was up when it was taken, which is what
the status before it said; a sector written counts where the status after it
reports no error. -/
def pioAccepted (iswrite : Bool) (dev : AtaDevice) (k : Nat) : Bool :=
  if iswrite then (dev.pio k).any fun status => !reportsError status
  else match k with
    | 0 => dev.waitData.any fun status => status &&& ataCbStatDrq ≠ 0
    | k + 1 => (dev.pio k).any fun status => status &&& ataCbStatDrq ≠ 0

def ataPioCmdData (op : DiskOp) (dev : AtaDevice) : DriverEnd :=
  if sendCmd dev ≠ 0 then ⟨sendCmd dev, op.count, 0⟩
  else if ataWaitData dev ≠ 0 then ⟨ataWaitData dev, op.count, 0⟩
  else
    let done := ataPioTransfer op dev
    ⟨done.ret, u16 (op.count + 2 ^ 32 - done.left),
      leading (pioAccepted op.iswrite dev) 0 done.moved⟩

/-- The device's side of a DMA transfer has ended well. -/
def ideDone (dev : AtaDevice) : Bool :=
  dev.ide.any fun status =>
    status &&& (ataCbStatBsy ||| ataCbStatDf ||| ataCbStatDrq ||| ataCbStatErr) = 0

/-- The bus master's transfer has ended, as far as the driver looks. -/
def bmDone (dev : AtaDevice) : Bool :=
  dev.bmStatus &&& (bmStatusIrq ||| bmStatusActive) = bmStatusIrq

/-- All sectors are transferred where both sides are done and the bus master
has had no error on its way to memory; else none is certain to be. -/
def ataDmaCmdData (op : DiskOp) (dev : AtaDevice) : DriverEnd :=
  if sendCmd dev ≠ 0 then ⟨sendCmd dev, op.count, 0⟩
  else
    ⟨if bmDone dev ∧ ideDone dev then 0 else -1, op.count,
      if bmDone dev ∧ ideDone dev ∧ dev.bmStatus &&& bmStatusError = 0 then op.count else 0⟩

/-- Any error of a command is a bad track to the caller. -/
def DriverEnd.diskRet (e : DriverEnd) : DriverEnd :=
  { e with ret := if e.ret ≠ 0 then diskRetEbadtrack else diskRetSuccess }

def ataReadwrite (op : DiskOp) (iomaster : Nat) (dev : AtaDevice) : DriverEnd :=
  if (ataTryDma op iomaster).isNone then (ataPioCmdData op dev).diskRet
  else (ataDmaCmdData op dev).diskRet

-- ---------------------------------------------------------------------------
-- USB mass storage
-- ---------------------------------------------------------------------------

/-- The command status wrapper. -/
structure Csw where
  dataResidue : UInt32
  status : UInt8
  deriving DecidableEq, Repr

/-- The three bulk transfers of one command: whether each went through, and
the wrapper that the last one brought. `scsi_drive_setup` takes disks with
one block size and CD drives with another. -/
structure UsbDevice where
  cdrom : Bool
  sendCbw : Bool
  sendData : Bool
  csw : Option Csw
  deriving DecidableEq, Repr

def cdromSectorSize : Nat := 2048

def UsbDevice.blksize (dev : UsbDevice) : Nat :=
  if dev.cdrom then cdromSectorSize else diskSectorSize

/-- The sectors that a wrapper accounts for: the residue is what the device
has not processed of the `bytes` it was to transfer. -/
def Csw.sectors (csw : Csw) (bytes blocksize : Nat) : Nat :=
  (bytes - csw.dataResidue.toNat) / blocksize

def usbCmdData (op : DiskOp) (dev : UsbDevice) : DriverEnd :=
  let blocksize := dev.blksize
  let bytes := u32 (blocksize * op.count)
  if !dev.sendCbw then ⟨diskRetEbadtrack, op.count, 0⟩
  else if bytes ≠ 0 ∧ !dev.sendData then ⟨diskRetEbadtrack, op.count, 0⟩
  else match dev.csw with
    | none => ⟨diskRetEbadtrack, op.count, 0⟩
    | some csw =>
      if csw.status = 0 then ⟨diskRetSuccess, op.count, csw.sectors bytes blocksize⟩
      else if csw.status = 2 then ⟨diskRetEbadtrack, op.count, 0⟩
      else
        ⟨diskRetEbadtrack,
          if blocksize ≠ 0 then u16 (op.count + 2 ^ 32 - csw.dataResidue.toNat / blocksize)
          else op.count,
          csw.sectors bytes blocksize⟩

-- ---------------------------------------------------------------------------
-- Ramdisk
-- ---------------------------------------------------------------------------

/-- INT 15h function 87h, as the carry flag it returns: where it is clear the
words have been moved. -/
def ramdiskCopy (op : DiskOp) (carry : Bool) : DriverEnd :=
  if carry then ⟨diskRetEbadtrack, op.count, 0⟩
  else ⟨diskRetSuccess, op.count, movswSpan (ramdiskWords op) / diskSectorSize⟩

-- ---------------------------------------------------------------------------
-- process_op
-- ---------------------------------------------------------------------------

/-- A drive's device, of one of the three kinds. -/
inductive Device where
  | ata (iomaster : Nat) (dev : AtaDevice)
  | usb (dev : UsbDevice)
  | ramdisk (carry : Bool)

def Device.transfer (op : DiskOp) : Device → DriverEnd
  | ata iomaster dev => ataReadwrite op iomaster dev
  | usb dev => usbCmdData op dev
  | ramdisk carry => ramdiskCopy op carry

/-- For a read or a write. An unchanged count on an error stands for
nothing transferred. -/
def processOp (op : DiskOp) (dev : Device) : DriverEnd :=
  let done := dev.transfer op
  if done.ret ≠ 0 ∧ done.count = op.count then { done with count := 0 } else done

def sendDiskOp (dev : Device) (op : DiskOp) : OpResult :=
  ⟨(processOp op dev).ret.toNat, (processOp op dev).count⟩

end ItxLlama.Seabios
