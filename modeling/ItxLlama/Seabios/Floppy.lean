import ItxLlama.Lib.Failing
import ItxLlama.Seabios.DiskBounds

/-!
# The floppy driver

The commands of `hw/floppy.c`, the DMA set-up of `hw/dma.c` and the calls of
INT 13h that lead there. What the controller does at each turn is given from
outside: when it is ready, whether its interrupt comes before the motor
counter runs out, what it answers and where the head ends up.
-/

namespace ItxLlama.Seabios.Floppy

open Lib.Word Lib.Failing

def diskRetEwriteprotect : Int := 0x03
def diskRetEboundary : Int := 0x09
def diskRetEcontroller : Int := 0x20
def diskRetEtimeout : Int := 0x80
def diskRetEmedia : Int := 0xc0

/-- The `FC_*` codes. -/
inductive FloppyCommand where
  | checkIrq
  | seek
  | recalibrate
  | readId
  | read
  | write
  | format
  deriving DecidableEq, Repr

def FloppyCommand.send : FloppyCommand → Nat
  | checkIrq => 0
  | seek => 2
  | recalibrate => 1
  | readId => 1
  | read => 8
  | write => 8
  | format => 5

def FloppyCommand.receive : FloppyCommand → Nat
  | checkIrq => 2
  | seek => 0
  | recalibrate => 0
  | _ => 7

/-- `FCF_WAITIRQ` -/
def FloppyCommand.waitIrq (command : FloppyCommand) : Bool := command != .checkIrq

/-- What the controller does from one command to the next. `send` and
`receive` are the direction bits with which it gets ready for a byte, `none`
where it does not in time; `completed` is whether a recalibrate or seek that
is started here arrives, `head` where it stops if not. -/
structure Answers where
  send : Nat → Option Bool
  irq : Bool
  receive : Nat → Option Bool
  data : Nat → Nat
  completed : Bool
  head : Nat

structure Dma where
  page : Nat
  address : Nat
  count : Nat
  mode : Nat
  deriving DecidableEq, Repr

/-- A command whose bytes the controller has taken. `recalibrated` is the bit
of its drive in `floppy_recalibration_status`, `turn` counts the commands. -/
structure Issue where
  command : FloppyCommand
  param : List Nat
  recalibrated : Bool
  head : Nat → Nat
  dma : Option Dma
  turn : Nat

/-- The BDA fields, `FloppyDOR`, the DMA controller and the heads of the
drives. -/
structure State where
  recalibrationStatus : BitVec 8
  mediaState : Nat → Nat
  track : Nat → Nat
  lastDataRate : Nat
  dor : BitVec 8
  dma : Option Dma
  head : Nat → Nat
  turn : Nat
  log : List Issue

abbrev FloppyM := Program State Int

def frsIrq : BitVec 8 := 0x80

def driveBit (floppyid : Nat) : BitVec 8 := BitVec.ofNat 8 (1 <<< floppyid)

def State.Recalibrated (s : State) (floppyid : Nat) : Prop :=
  s.recalibrationStatus &&& driveBit floppyid ≠ 0

instance (s : State) (floppyid : Nat) : Decidable (s.Recalibrated floppyid) :=
  inferInstanceAs (Decidable (_ ≠ _))

-- ---------------------------------------------------------------------------
-- Low-level floppy IO
-- ---------------------------------------------------------------------------

def floppyDorWrite (val : BitVec 8) : FloppyM Unit := change fun s => { s with dor := val }

def floppyDisableController : FloppyM Unit := floppyDorWrite 0x00

/-- The controller is switched off. -/
def fail (ret : Int) : FloppyM α := do
  floppyDisableController
  raise ret

def clearIrq (s : State) : State :=
  { s with recalibrationStatus := s.recalibrationStatus &&& ~~~frsIrq }

def floppyWaitIrq (irq : Bool) : FloppyM Unit := do
  change clearIrq
  if irq then change clearIrq else fail diskRetEtimeout

/-- The error with which bytes cannot be sent. -/
def sendError (a : Answers) (command : FloppyCommand) : Option Int :=
  (List.range (command.send + 1)).findSome? fun i =>
    match a.send i with
    | none => some diskRetEtimeout
    | some dir => if dir then some diskRetEcontroller else none

def receiveError (a : Answers) (command : FloppyCommand) : Option Int :=
  (List.range (command.receive + 1)).findSome? fun i =>
    match a.receive i with
    | none => some diskRetEtimeout
    | some dir =>
      if i ≥ command.receive then (if dir then some diskRetEcontroller else none)
      else if dir then none else some diskRetEcontroller

/-- The drive that a command selects. -/
def unit (param : List Nat) : Nat := param.getD 0 0 % 4

/-- The cylinder that a recalibrate or seek makes for. -/
def target (command : FloppyCommand) (param : List Nat) : Option Nat :=
  match command with
  | .recalibrate => some 0
  | .seek => some (param.getD 1 0)
  | _ => none

/-- The controller starts on a command. -/
def issue (a : Answers) (command : FloppyCommand) (param : List Nat) (s : State) : State :=
  { s with
    head :=
      match target command param with
      | none => s.head
      | some cylinder =>
        Function.update s.head (unit param) (if a.completed then cylinder else a.head)
    log := s.log ++
      [{ command, param, head := s.head, dma := s.dma, turn := s.turn
         recalibrated := decide (s.Recalibrated (unit param)) }] }

def orFail (err : Option Int) : FloppyM Unit :=
  match err with
  | none => pure ()
  | some ret => fail ret

section

variable (world : Nat → Answers)

def floppyPio (command : FloppyCommand) (param : List Nat) : FloppyM (List Nat) := do
  let s ← current
  let a := world s.turn
  match sendError a command with
  | some ret =>
    change fun s => { s with turn := s.turn + 1 }
    fail ret
  | none =>
    change (issue a command param)
    change fun s => { s with turn := s.turn + 1 }
    -- wait for command to complete
    provided (command.waitIrq = true) (floppyWaitIrq a.irq)
    orFail (receiveError a command)
    pure ((List.range command.receive).map a.data)

def floppyEnableController : FloppyM Unit := do
  floppyDorWrite 0x00
  floppyDorWrite 0x0c
  let s ← current
  floppyWaitIrq (world s.turn).irq
  let _ ← floppyPio world .checkIrq []
  pure ()

/-- `floppy_drive_pio` up to the command. -/
def floppySelect (floppyid : Nat) : FloppyM Unit := do
  let s ← current
  -- enable controller if it isn't running
  provided (s.dor &&& 0x04 = 0) (floppyEnableController world)
  floppyDorWrite ((if floppyid ≠ 0 then 0x20 else 0x10) ||| 0x0c ||| BitVec.ofNat 8 floppyid)

def floppyDrivePio (floppyid : Nat) (command : FloppyCommand) (param : List Nat) :
    FloppyM (List Nat) := do
  floppySelect world floppyid
  let param ← floppyPio world command param
  if command.waitIrq ∧ command.receive = 0 then floppyPio world .checkIrq param else pure param

-- ---------------------------------------------------------------------------
-- Floppy media sense and seeking
-- ---------------------------------------------------------------------------

def floppyDriveRecal (floppyid : Nat) : FloppyM Unit := do
  let _ ← floppyDrivePio world floppyid .recalibrate [floppyid]
  change fun s =>
    { s with
      recalibrationStatus := s.recalibrationStatus ||| driveBit floppyid
      track := Function.update s.track floppyid 0 }

def floppyDriveReadid (floppyid head : Nat) : FloppyM Unit := do
  let param ← floppyDrivePio world floppyid .readId [(head <<< 2) ||| floppyid]
  if param.getD 0 0 &&& 0xc0 ≠ 0 then raise (-1) else pure ()

/-- `floppy_size` and `data_rate` of `FloppyInfo`; the rest is `floppyInfo`. -/
def floppyKinds : List (Nat × Nat) :=
  [(0, 0), (1, 1), (1, 0), (2, 2), (2, 0), (2, 3), (1, 2), (1, 1), (1, 2)]

def floppySize (ftype : Nat) : Nat := (floppyKinds.getD ftype (0, 0)).1
def floppyDataRate (ftype : Nat) : Nat := (floppyKinds.getD ftype (0, 0)).2
def floppyChs (ftype : Nat) : Chs := floppyInfo.getD ftype ⟨0, 0, 0⟩

/-- Not a type that a drive of another one could hold. -/
def skipType (ftype stype : Nat) : Prop :=
  stype = ftype ∨ floppySize stype ≠ floppySize ftype ∨
    (floppyChs stype).head > (floppyChs ftype).head ∨
    (floppyChs stype).cylinder > (floppyChs ftype).cylinder ∨
    (floppyChs stype).sector > (floppyChs ftype).sector

instance (ftype stype : Nat) : Decidable (skipType ftype stype) :=
  inferInstanceAs (Decidable (_ ∨ _))

/-- The loop over the types, with the one that is found. -/
def senseLoop (floppyid ftype : Nat) : List Nat → FloppyM Nat
  | [] => raise diskRetEmedia
  | stype :: stypes => do
    if skipType ftype stype then senseLoop floppyid ftype stypes
    else
      match ← attempt (floppyDriveReadid world floppyid 0) with
      | .ok _ => pure stype
      | .error _ => senseLoop floppyid ftype stypes

def fmsMediaDriveEstablished : Nat := 0x10
def fmsDoubleStepping : Nat := 0x20

def establish (floppyid ftype stype : Nat) (s : State) : State :=
  let dataRate := floppyDataRate stype
  let oldDataRate := s.mediaState floppyid >>> 6
  let media := if stype = 1 then 0x04 else if stype = 2 then 0x05 else 0x07
  let fms := (dataRate <<< 6) ||| fmsMediaDriveEstablished ||| media
  let fms :=
    if (floppyChs stype).cylinder < (floppyChs ftype).cylinder then fms ||| fmsDoubleStepping
    else fms
  { s with
    lastDataRate := u8 ((oldDataRate <<< 2) ||| (dataRate <<< 6))
    mediaState := Function.update s.mediaState floppyid (u8 fms) }

def senseType (floppyid ftype : Nat) : FloppyM Nat := do
  match ← attempt (floppyDriveReadid world floppyid 0) with
  | .ok _ => pure ftype
  | .error _ => senseLoop world floppyid ftype (List.range' 1 (floppyKinds.length - 1))

def floppyMediaSense (floppyid ftype : Nat) : FloppyM Unit := do
  let stype ← senseType world floppyid ftype
  change (establish floppyid ftype stype)

def seekTo (floppyid cylinder : Nat) : FloppyM Unit := do
  let _ ← floppyDrivePio world floppyid .seek [floppyid, cylinder]
  change fun s => { s with track := Function.update s.track floppyid cylinder }

def floppyPrep (floppyid ftype cylinder : Nat) : FloppyM Unit := do
  let s ← current
  provided (¬ s.Recalibrated floppyid ∨ s.mediaState floppyid &&& fmsMediaDriveEstablished = 0)
    (floppyDriveRecal world floppyid >>= fun _ => floppyMediaSense world floppyid ftype)
  -- seek to cylinder if needed
  let s ← current
  provided (cylinder ≠ s.track floppyid) (seekTo world floppyid cylinder)

-- ---------------------------------------------------------------------------
-- Floppy DMA transfer
-- ---------------------------------------------------------------------------

def dmaFloppy (addr count : Nat) (isWrite : Bool) : FloppyM Unit :=
  if Seabios.dmaFloppy addr count then
    change fun s =>
      { s with
        dma := some
          { mode := if isWrite then 0x4a else 0x46
            address := u16 addr
            count := u16 (count - 1)
            page := u8 (addr >>> 16) } }
  else raise diskRetEboundary

def floppyDmaCmd (floppyid buf count : Nat) (command : FloppyCommand) (param : List Nat) :
    FloppyM Unit := do
  dmaFloppy buf count (command != .read)
  let param ← floppyDrivePio world floppyid command param
  if param.getD 0 0 &&& 0xc0 ≠ 0 then
    raise (if param.getD 1 0 &&& 0x02 ≠ 0 then diskRetEwriteprotect else diskRetEcontroller)
  else pure ()

-- ---------------------------------------------------------------------------
-- Floppy handlers
-- ---------------------------------------------------------------------------

def floppyReset : FloppyM Unit := do
  change fun s =>
    { s with
      recalibrationStatus := 0
      mediaState := Function.update (Function.update s.mediaState 0 0) 1 0
      track := Function.update (Function.update s.track 0 0) 1 0
      lastDataRate := 0 }
  floppyDisableController
  floppyEnableController world

/-- A drive of a known type. -/
structure FloppyDrive where
  drive : Drive
  ftype : Nat
  init : initFloppy drive.cntlId ftype = some drive
  id_lt : drive.cntlId < 2

def FloppyDrive.id (d : FloppyDrive) : Nat := d.drive.cntlId

def floppySizeCode : Nat := 0x02
def floppyDatalen : Nat := 0xff
def floppyGaplen : Nat := 0x1b
def floppyFormatGaplen : Nat := 0x6c
def floppyFillbyte : Nat := 0xf6

/-- `floppy_read` and `floppy_write`. -/
def floppyAccess (d : FloppyDrive) (op : DiskOp) (command : FloppyCommand) : FloppyM Unit := do
  let chs := lba2chs d.drive op
  floppyPrep world d.id d.ftype (u8 chs.cylinder)
  let place := floppyParam d.drive op
  floppyDmaCmd world d.id op.buf (op.count * diskSectorSize) command
    [u8 ((chs.head <<< 2) ||| d.id), place.cylinder, place.head, place.sector, floppySizeCode,
      place.eot, floppyGaplen, floppyDatalen]

def floppyRead (d : FloppyDrive) (op : DiskOp) := floppyAccess world d op .read

def floppyWrite (d : FloppyDrive) (op : DiskOp) := floppyAccess world d op .write

def floppyVerify (d : FloppyDrive) (op : DiskOp) : FloppyM Unit :=
  let chs := lba2chs d.drive op
  floppyPrep world d.id d.ftype (u8 chs.cylinder)

def floppyFormat (d : FloppyDrive) (op : DiskOp) : FloppyM Unit := do
  let chs := lba2chs d.drive op
  floppyPrep world d.id d.ftype (u8 chs.cylinder)
  floppyDmaCmd world d.id op.buf (op.count * 4) .format
    [u8 ((chs.head <<< 2) ||| d.id), floppySizeCode, u8 op.count, floppyFormatGaplen,
      floppyFillbyte]

def cmdReset : Nat := 0x00
def cmdVerify : Nat := 0x04
def cmdFormat : Nat := 0x05

def processFloppyOp (d : FloppyDrive) (op : DiskOp) : FloppyM Unit :=
  if op.command = cmdReset then floppyReset world
  else if op.command = cmdRead then floppyRead world d op
  else if op.command = cmdWrite then floppyWrite world d op
  else if op.command = cmdVerify then floppyVerify world d op
  else if op.command = cmdFormat then floppyFormat world d op
  else raise diskRetEparam

-- ---------------------------------------------------------------------------
-- INT 13h
-- ---------------------------------------------------------------------------

/-- The op that `disk_1305` sends, unless it refuses the registers. -/
def formatOp (regs : Bregs) (d : Drive) : Option DiskOp :=
  let count := regs.al.toNat
  let cylinder := regs.ch.toNat
  let head := regs.dh.toNat
  if cylinder ≥ d.lchs.cylinder ∨ head ≥ d.lchs.head ∨ count = 0 ∨ count > d.lchs.sector then none
  else some
    { lba := u32 ((cylinder * d.lchs.head + head) * d.lchs.sector)
      buf := regs.es.toNat * 16 + regs.bx.toNat
      count
      command := cmdFormat }

inductive Call where
  | reset
  | read (regs : Bregs)
  | write (regs : Bregs)
  | verify (regs : Bregs)
  | format (regs : Bregs)
  deriving DecidableEq, Repr

def Call.op (d : Drive) : Call → Option DiskOp
  | reset => some ⟨0, 0, 0, cmdReset⟩
  | read regs => basicOp regs d cmdRead
  | write regs => basicOp regs d cmdWrite
  | verify regs => basicOp regs d cmdVerify
  | format regs => formatOp regs d

/-- The state after a call, with the commands issued by it. -/
def call (d : FloppyDrive) (c : Call) (s : State) : State :=
  match c.op d.drive with
  | none => { s with log := [] }
  | some op => (processFloppyOp world d op { s with log := [] }).2

def calls : List (FloppyDrive × Call) → State → State × List ((FloppyDrive × Call) × Issue)
  | [], s => (s, [])
  | (d, c) :: rest, s =>
    let s := call world d c s
    ((calls rest s).1, s.log.map (Prod.mk (d, c)) ++ (calls rest s).2)

end

end ItxLlama.Seabios.Floppy
