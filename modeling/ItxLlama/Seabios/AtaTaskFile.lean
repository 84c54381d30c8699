import ItxLlama.Seabios.AtaDma
import ItxLlama.Seabios.DiskBounds

/-!
# ATA register writes

`send_cmd` and `ata_readwrite` of `hw/ata.c` as the writes to a channel's
registers, and a device that reads them: each address register keeps the last
two values, and a write to the command register says which of them count.
-/

namespace ItxLlama.Seabios

/-- The registers at `iobase1`, and the device control register. -/
inductive AtaReg where
  | fr | sc | sn | cl | ch | dh | cmd | dc
  deriving DecidableEq, Repr

/-- `struct ata_pio_command` with the two registers that no transfer uses. -/
structure AtaTaskFile extends AtaPioCommand where
  feature : Nat := 0
  feature2 : Nat := 0
  deriving DecidableEq, Repr

def ataCbDhDev0 : Nat := 0xa0
def ataCbDhDev1 : Nat := 0xb0
def ataCbDcHd15 : Nat := 0x08
def ataCbDcNien : Nat := 0x02

def newdh (slave : Bool) (cmd : AtaTaskFile) : Nat :=
  -- `~ATA_CB_DH_DEV1` in 8 bits
  (cmd.device &&& 0x4f) ||| (if slave then ataCbDhDev1 else ataCbDhDev0)

def AtaTaskFile.writes (cmd : AtaTaskFile) : List (AtaReg × Nat) :=
  (if cmd.isExt then
    [(.fr, cmd.feature2), (.sc, cmd.sectorCount2), (.sn, cmd.lbaLow2), (.cl, cmd.lbaMid2),
      (.ch, cmd.lbaHigh2)]
  else []) ++
  [(.fr, cmd.feature), (.sc, cmd.sectorCount), (.sn, cmd.lbaLow), (.cl, cmd.lbaMid),
    (.ch, cmd.lbaHigh), (.cmd, cmd.command)]

/-- The return value of `send_cmd` and what it writes. -/
def sendCmdRegs (slave : Bool) (dev : AtaDevice) (cmd : AtaTaskFile) : Int × List (AtaReg × Nat) :=
  match dev.notBsy with
  | none => (-1, [])
  | some _ =>
    let dh := newdh slave cmd
    if (dev.olddh ^^^ dh).testBit 4 then
      match dev.selected with
      | none => (-1, [(.dh, dh)])
      | some _ => (0, (.dh, dh) :: cmd.writes)
    else (0, (.dh, dh) :: cmd.writes)

/-- What `send_cmd` returns, and the register writes of `ata_readwrite` with
those of `ata_pio_cmd_data` or `ata_dma_cmd_data`. The data register is left
out. -/
def ataReadwriteRegs (op : DiskOp) (iswrite slave : Bool) (dev : AtaDevice)
    (iomaster oldcmd origdma : Nat) : Int × List (AtaReg × Nat) :=
  let usepio : Bool := (ataTryDmaSetup op iswrite diskSectorSize iomaster oldcmd origdma).ret ≠ 0
  let sent := sendCmdRegs slave dev { ataCommand op iswrite usepio with }
  if usepio then
    (sent.1, (.dc, ataCbDcHd15 ||| ataCbDcNien) :: sent.2 ++ [(.dc, ataCbDcHd15)])
  else sent

-- ---------------------------------------------------------------------------
-- The device
-- ---------------------------------------------------------------------------

/-- A register that keeps its last two values. -/
structure RegPair where
  current : Nat
  previous : Nat
  deriving DecidableEq, Repr

def RegPair.push (r : RegPair) (v : Nat) : RegPair := ⟨v, r.current⟩

structure AtaOpcode where
  ext : Bool
  iswrite : Bool
  dma : Bool
  deriving DecidableEq, Repr

def ataOpcode : Nat → Option AtaOpcode
  | 0x20 => some ⟨false, false, false⟩
  | 0x24 => some ⟨true, false, false⟩
  | 0x25 => some ⟨true, false, true⟩
  | 0x30 => some ⟨false, true, false⟩
  | 0x34 => some ⟨true, true, false⟩
  | 0x35 => some ⟨true, true, true⟩
  | 0xc8 => some ⟨false, false, true⟩
  | 0xca => some ⟨false, true, true⟩
  | _ => none

/-- A transfer as the addressed device understands it. -/
structure AtaRequest where
  slave : Bool
  lba : Nat
  count : Nat
  iswrite : Bool
  dma : Bool
  deriving DecidableEq, Repr

structure AtaRegs where
  count : RegPair
  low : RegPair
  mid : RegPair
  high : RegPair
  device : Nat
  requests : List AtaRequest
  deriving DecidableEq, Repr

def AtaRegs.lba (s : AtaRegs) (ext : Bool) : Nat :=
  let low := s.low.current + s.mid.current * 2 ^ 8 + s.high.current * 2 ^ 16
  if ext then
    low + s.low.previous * 2 ^ 24 + s.mid.previous * 2 ^ 32 + s.high.previous * 2 ^ 40
  else low + s.device % 16 * 2 ^ 24

def AtaRegs.sectors (s : AtaRegs) (ext : Bool) : Nat :=
  let n := if ext then s.count.current + s.count.previous * 2 ^ 8 else s.count.current
  if n = 0 then if ext then 2 ^ 16 else 2 ^ 8 else n

/-- A device without the LBA bit would take the address for a CHS one. -/
def AtaRegs.accept (s : AtaRegs) (command : Nat) : Option AtaRequest :=
  match ataOpcode command with
  | none => none
  | some o =>
    if s.device.testBit 6 then
      some ⟨s.device.testBit 4, s.lba o.ext, s.sectors o.ext, o.iswrite, o.dma⟩
    else none

def AtaRegs.write (s : AtaRegs) : AtaReg × Nat → AtaRegs
  | (.sc, v) => { s with count := s.count.push v }
  | (.sn, v) => { s with low := s.low.push v }
  | (.cl, v) => { s with mid := s.mid.push v }
  | (.ch, v) => { s with high := s.high.push v }
  | (.dh, v) => { s with device := v }
  | (.cmd, v) => { s with requests := s.requests ++ (s.accept v).toList }
  | (.fr, _) | (.dc, _) => s

def AtaRegs.run (s : AtaRegs) (ws : List (AtaReg × Nat)) : AtaRegs := ws.foldl AtaRegs.write s

-- ---------------------------------------------------------------------------
-- A command and its reading
-- ---------------------------------------------------------------------------

theorem AtaRegs.run_append (s : AtaRegs) (ws ws' : List (AtaReg × Nat)) :
    s.run (ws ++ ws') = (s.run ws).run ws' := List.foldl_append

/-- The opcodes for which `send_cmd` writes the second set are those for which
the device reads it. -/
theorem ataOpcode_ext (h : ataOpcode cmd.command = some o) : o.ext = AtaPioCommand.isExt cmd := by
  simp only [ataOpcode] at h
  split at h <;> simp_all [AtaPioCommand.isExt, ataCmdReadSectorsExt] <;> subst h <;> rfl

theorem newdh_spec (slave : Bool) (cmd : AtaTaskFile) (hdev : cmd.device = x % 16 ||| ataCbDhLba) :
    (newdh slave cmd).testBit 6 = true ∧ (newdh slave cmd).testBit 4 = slave ∧
      newdh slave cmd % 16 = cmd.device &&& 0xf := by
  have hall : ∀ y < 16, ∀ b : Bool,
      let dh := ((y ||| ataCbDhLba) &&& 0x4f) ||| (if b then ataCbDhDev1 else ataCbDhDev0)
      dh.testBit 6 = true ∧ dh.testBit 4 = b ∧ dh % 16 = (y ||| ataCbDhLba) &&& 0xf := by decide
  rw [newdh, hdev]
  exact hall _ (Nat.mod_lt _ (by decide)) slave

/-- Whatever was in the registers, the device takes the command as its fields
say. -/
theorem accept_sent (s : AtaRegs) (slave : Bool) (cmd : AtaTaskFile)
    (hdev : cmd.device = x % 16 ||| ataCbDhLba) (hop : ataOpcode cmd.command = some o) :
    (s.run ((.dh, newdh slave cmd) :: cmd.writes)).requests =
      s.requests ++ [⟨slave, cmd.lba, cmd.count, o.iswrite, o.dma⟩] := by
  obtain ⟨hlba, hslave, hlow⟩ := newdh_spec slave cmd hdev
  have hext := ataOpcode_ext hop
  cases he : cmd.isExt with
  | true =>
    simp [AtaTaskFile.writes, AtaRegs.run, AtaRegs.write, AtaRegs.accept, RegPair.push, hop, hext,
      he, hlba, hslave, AtaRegs.lba, AtaRegs.sectors, AtaPioCommand.lba, AtaPioCommand.count]
  | false =>
    simp [AtaTaskFile.writes, AtaRegs.run, AtaRegs.write, AtaRegs.accept, RegPair.push, hop, hext,
      he, hlba, hslave, hlow, AtaRegs.lba, AtaRegs.sectors, AtaPioCommand.lba, AtaPioCommand.count]

/-- The return value is that of the transfer's first step elsewhere. -/
theorem sendCmdRegs_ret (slave : Bool) (dev : AtaDevice) (cmd : AtaTaskFile) :
    (sendCmdRegs slave dev cmd).1 = sendCmd { dev with newdh := newdh slave cmd } := by
  cases hready : dev.notBsy <;> simp only [sendCmdRegs, sendCmd, hready]
  split
  · cases dev.selected <;> rfl
  · rfl

theorem sendCmdRegs_run (s : AtaRegs) (slave : Bool) (dev : AtaDevice) (cmd : AtaTaskFile)
    (hdev : cmd.device = x % 16 ||| ataCbDhLba) (hop : ataOpcode cmd.command = some o) :
    (s.run (sendCmdRegs slave dev cmd).2).requests = s.requests ++
      if (sendCmdRegs slave dev cmd).1 = 0 then [⟨slave, cmd.lba, cmd.count, o.iswrite, o.dma⟩]
      else [] := by
  cases hready : dev.notBsy <;> simp only [sendCmdRegs, hready]
  · exact (List.append_nil _).symm
  split
  · cases dev.selected with
    | none => exact (List.append_nil _).symm
    | some _ => exact accept_sent s slave cmd hdev hop
  · exact accept_sent s slave cmd hdev hop

-- ---------------------------------------------------------------------------
-- Transfers
-- ---------------------------------------------------------------------------

theorem ataCommand_device (op : DiskOp) (iswrite usepio : Bool) :
    ∃ x, (ataCommand op iswrite usepio).device = x % 16 ||| ataCbDhLba := by
  by_cases h : op.NeedsExt
  · exact ⟨op.lba % 2 ^ 24 / 2 ^ 24, by rw [ataCommand, if_pos h]⟩
  · exact ⟨op.lba / 2 ^ 24, by rw [ataCommand, if_neg h]⟩

theorem ataCommand_opcode (op : DiskOp) (iswrite usepio : Bool) :
    ataOpcode (ataCommand op iswrite usepio).command = some ⟨op.NeedsExt, iswrite, !usepio⟩ := by
  by_cases h : op.NeedsExt <;> rw [ataCommand] <;> simp only [h, if_true, if_false] <;>
    cases iswrite <;> cases usepio <;> rfl

theorem AtaRegs.run_bracket (s : AtaRegs) (ws : List (AtaReg × Nat)) (v v' : Nat) :
    s.run ((.dc, v) :: ws ++ [(.dc, v')]) = s.run ws :=
  s.run_append ((.dc, v) :: ws) [(.dc, v')]

/-- What is sent, read as a device reads it, is the transfer asked for. -/
theorem ataReadwriteRegs_denotes (hlba : op.lba < 2 ^ 48) (hpos : 0 < op.count)
    (hcount : op.count < 2 ^ 16) (s : AtaRegs) (iswrite slave : Bool) (dev : AtaDevice)
      (iomaster oldcmd origdma : Nat) :
    let r := ataReadwriteRegs op iswrite slave dev iomaster oldcmd origdma
    let dma : Bool := (ataTryDmaSetup op iswrite diskSectorSize iomaster oldcmd origdma).ret = 0
    (s.run r.2).requests = s.requests ++
      if r.1 = 0 then [⟨slave, op.lba, op.count, iswrite, dma⟩] else [] := by
  generalize hsetup : ataTryDmaSetup op iswrite diskSectorSize iomaster oldcmd origdma = setup
  simp only [ataReadwriteRegs, hsetup]
  obtain ⟨x, hdev⟩ := ataCommand_device op iswrite (setup.ret ≠ 0)
  have hrun := sendCmdRegs_run s slave dev { ataCommand op iswrite (setup.ret ≠ 0) with } hdev
    (ataCommand_opcode op iswrite (setup.ret ≠ 0))
  simp only [ataCommand_lba op iswrite _ (by omega : op.lba + op.count < 2 ^ 64),
    Nat.mod_eq_of_lt hlba, ataCommand_count op iswrite _ hpos hcount] at hrun
  by_cases hpio : setup.ret = 0
  · simp only [hpio, ne_eq, not_true_eq_false, decide_false, decide_true, Bool.false_eq_true,
      if_false] at hrun ⊢
    exact hrun
  · simp only [hpio, ne_eq, not_false_eq_true, decide_false, decide_true, if_true] at hrun ⊢
    rw [AtaRegs.run_bracket]
    exact hrun

def freshRegs : AtaRegs := ⟨⟨0, 0⟩, ⟨0, 0⟩, ⟨0, 0⟩, ⟨0, 0⟩, 0, []⟩

def readyAta : AtaDevice :=
  { notBsy := some 0x50, olddh := 0, newdh := 0, selected := some 0x50, waitData := none,
    pio := fun _ => none, bmStatus := 4, ide := some 0x50 }

/-- The first transfer that the 28-bit commands do not reach. -/
def boundaryOp : DiskOp := { lba := 2 ^ 28 - 1, buf := 0x10000, count := 1, command := cmdRead }

theorem ataReadwriteRegs_denotes_boundary :
    let r := ataReadwriteRegs boundaryOp false true readyAta 0xc000 0 0x7000
    r.1 = 0 ∧ (freshRegs.run r.2).requests = freshRegs.requests ++
      if r.1 = 0 then [⟨true, 2 ^ 28 - 1, 1, false, true⟩] else [] :=
  ⟨by decide +kernel,
    ataReadwriteRegs_denotes (by decide) (by decide) (by decide) freshRegs false true readyAta
      0xc000 0 0x7000⟩

end ItxLlama.Seabios
