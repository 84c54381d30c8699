import ItxLlama.Lib.Nor
import Mathlib.Data.BitVec

/-!
# The SPI flash driver

`llama_spi_flash.c` over a command-level chip. The chip collects the bytes
shifted in while chip select is low, answers reads by the command they
form, and carries out write enable, program and erase when chip select
rises. A program or an erase keeps it busy for an arbitrary number of
status reads, which the driver's wait loop has to outlast.
-/

namespace ItxLlama.Llama

open Lib.Nor

abbrev Byte := BitVec 8

def spiRomSize : Nat := 8 * 1024 * 1024
def spiSectorSize : Nat := 4096
def spiPageSize : Nat := 256
def spiSectorOffset : Nat := spiRomSize - spiSectorSize
def spiCrossbarOffset : Nat := spiRomSize - 3 * spiPageSize
def spiBiosSettingsOffset : Nat := spiRomSize - spiPageSize

structure FlashInfo where
  id : List Byte
  name : String
  size : Nat
  deriving DecidableEq, Repr

def flashInfoTable : List FlashInfo :=
  [ ⟨[0xc2, 0x20, 0x12], "MX25L2005", 256 * 1024⟩,
    ⟨[0xc2, 0x20, 0x15], "MX25L1605", 2 * 1024 * 1024⟩,
    ⟨[0xc2, 0x25, 0x37], "MX25U6435F", 8 * 1024 * 1024⟩,
    ⟨[0xc2, 0x25, 0x38], "MX25U12835F", 16 * 1024 * 1024⟩ ]

def getFlashInfo (id : List Byte) : Option FlashInfo :=
  flashInfoTable.find? (·.id == id)

-- ---------------------------------------------------------------------------
-- The chip
-- ---------------------------------------------------------------------------

/-- `rx` and `tx` count within one chip-select window; `busy` is the number
of status reads that will still see WIP set. -/
structure Chip where
  id : List Byte
  size : Nat
  programDelay : Nat
  eraseDelay : Nat
  cells : Cells 8
  wel : Bool
  busy : Nat
  rx : List Byte
  tx : Nat

def addr24 (a2 a1 a0 : Byte) : Nat := a2.toNat * 65536 + a1.toNat * 256 + a0.toNat

/-- Address bits above the array's size are not decoded. -/
def Chip.cellOf (c : Chip) (addr : Nat) : Nat := addr % c.size

def Chip.select (c : Chip) : Chip := { c with rx := [], tx := 0 }

def Chip.receive (c : Chip) (n : Byte) : Chip := { c with rx := c.rx ++ [n] }

def Chip.transmit (c : Chip) : Byte × Chip :=
  match c.rx with
  | [op] =>
    if op = 0x05 then (if c.busy = 0 then 0 else 1, { c with busy := c.busy - 1 })
    else if op = 0x9F ∧ c.busy = 0 then (c.id.getD c.tx 0xFF, { c with tx := c.tx + 1 })
    else (0xFF, c)
  | [op, a2, a1, a0] =>
    if op = 0x03 ∧ c.busy = 0 then
      (c.cells (c.cellOf (addr24 a2 a1 a0 + c.tx)), { c with tx := c.tx + 1 })
    else (0xFF, c)
  | _ => (0xFF, c)

/-- What a command does when chip select rises; a busy chip ignores it. -/
def Chip.commit (c : Chip) : Chip :=
  if c.busy ≠ 0 then c else
  match c.rx with
  | [op] =>
    if op = 0x06 then { c with wel := true }
    else if op = 0x04 then { c with wel := false }
    else c
  | [op, a2, a1, a0] =>
    if op = 0x20 ∧ c.wel then
      { c with
        cells := eraseBlock c.cells spiSectorSize (c.cellOf (addr24 a2 a1 a0))
        wel := false, busy := c.eraseDelay }
    else c
  | [op, a2, a1, a0, v] =>
    if op = 0x02 ∧ c.wel then
      { c with
        cells := program c.cells (c.cellOf (addr24 a2 a1 a0)) v
        wel := false, busy := c.programDelay }
    else c
  | _ => c

def Chip.deselect (c : Chip) : Chip := { c.commit with rx := [], tx := 0 }

-- ---------------------------------------------------------------------------
-- The driver
-- ---------------------------------------------------------------------------

/-- `none` is a wait loop that has not ended within its bound. -/
abbrev Spi := StateT Chip Option

def writeSpiByte (n : Byte) : Spi Unit := modify (·.receive n)
def readSpiByte : Spi Byte := fun c => some c.transmit
def enableCs : Spi Unit := modify Chip.select
def disableCs : Spi Unit := modify Chip.deselect

def addrByte (addr shift : Nat) : Byte := BitVec.ofNat 8 (addr >>> shift &&& 0xFF)

def writeSpi24bitAddr (addr : Nat) : Spi Unit := do
  writeSpiByte (addrByte addr 16)
  writeSpiByte (addrByte addr 8)
  writeSpiByte (addrByte addr 0)

/-- `while (1) { s = read; … }`: leaves after three status bytes in a row
without WIP. -/
def waitWip : (fuel : Nat) → (wipCnt : Nat) → Spi Unit
  | 0, _ => fun _ => none
  | fuel + 1, wipCnt => do
    let s ← readSpiByte
    if s &&& 1 = 0 then
      if wipCnt + 1 ≥ 3 then pure () else waitWip fuel (wipCnt + 1)
    else waitWip fuel 0

/-- The part that `spi_flash_write_byte` and `spi_flash_erase_sector` share:
write enable, one command, the wait for WIP and write disable. -/
def writeCommand (command : Spi Unit) : Spi Unit := do
  enableCs
  writeSpiByte 0x06
  disableCs
  enableCs
  command
  disableCs
  enableCs
  writeSpiByte 0x05
  let c ← get
  waitWip (c.busy + 3) 0
  disableCs
  enableCs
  writeSpiByte 0x04
  disableCs

def spiFlashWriteByte (inAddr : Nat) (inValue : Byte) : Spi Unit :=
  writeCommand do
    writeSpiByte 0x02
    writeSpi24bitAddr inAddr
    writeSpiByte inValue

def spiFlashEraseSector (inAddr : Nat) : Spi Unit :=
  writeCommand do
    writeSpiByte 0x20
    writeSpi24bitAddr inAddr

def spiFlashReadByte (inAddr : Nat) : Spi Byte := do
  enableCs
  writeSpiByte 0x03
  writeSpi24bitAddr inAddr
  let value ← readSpiByte
  disableCs
  pure value

def spiFlashReadWord (inAddr : Nat) : Spi (BitVec 16) := do
  let lo ← spiFlashReadByte inAddr
  let hi ← spiFlashReadByte (inAddr + 1)
  pure (lo.setWidth 16 ||| hi.setWidth 16 <<< 8)

def readFlashDeviceId : Spi (List Byte) := do
  enableCs
  writeSpiByte 0x9F
  let p0 ← readSpiByte
  let p1 ← readSpiByte
  let p2 ← readSpiByte
  disableCs
  pure [p0, p1, p2]

def getSpiFlashInfo : Spi Nat := do
  let id ← readFlashDeviceId
  match getFlashInfo id with
  | some _ => pure 1
  | none => pure 0

-- ---------------------------------------------------------------------------
-- What a driver call does to an idle chip
-- ---------------------------------------------------------------------------

/-- Between driver calls the chip is deselected, ready and write protected. -/
structure Chip.Idle (c : Chip) : Prop where
  ready : c.busy = 0
  locked : c.wel = false
  rx : c.rx = []
  tx : c.tx = 0

theorem Chip.Idle.withCells {c : Chip} (h : c.Idle) (m : Cells 8) : { c with cells := m }.Idle :=
  ⟨h.ready, h.locked, h.rx, h.tx⟩

theorem addr24_bytes (h : addr < 2 ^ 24) :
    addr24 (addrByte addr 16) (addrByte addr 8) (addrByte addr 0) = addr := by
  have hand (n : Nat) : n &&& 0xFF = n % 256 := Nat.and_two_pow_sub_one_eq_mod n 8
  simp only [addr24, addrByte, BitVec.toNat_ofNat, hand, Nat.shiftRight_eq_div_pow]
  omega

theorem bind_run {m : Spi α} {c c' : Chip} (h : m.run c = some (a, c')) (f : α → Spi β) :
    (m >>= f).run c = (f a).run c' := by
  rw [StateT.run_bind, h, Option.bind_eq_bind, Option.bind_some]

@[simp] theorem enableCs_run (c : Chip) : enableCs.run c = some ((), c.select) := rfl
@[simp] theorem disableCs_run (c : Chip) : disableCs.run c = some ((), c.deselect) := rfl
@[simp] theorem readSpiByte_run (c : Chip) : readSpiByte.run c = some c.transmit := rfl
@[simp] theorem writeSpiByte_run (c : Chip) (n : Byte) :
    (writeSpiByte n).run c = some ((), c.receive n) := rfl
@[simp] theorem writeSpi24bitAddr_run (c : Chip) (addr : Nat) :
    (writeSpi24bitAddr addr).run c = some ((),
      ((c.receive (addrByte addr 16)).receive (addrByte addr 8)).receive (addrByte addr 0)) := rfl

/-- The wait ends after at most `busy + 3` status reads, whatever the count
it starts from. -/
theorem waitWip_run (c : Chip) (hrx : c.rx = [0x05]) (hf : c.busy + 3 ≤ fuel + wipCnt)
    (hw : wipCnt ≤ 2) (hb : c.busy ≠ 0 → c.busy + 3 ≤ fuel) :
    (waitWip fuel wipCnt).run c = some ((), { c with busy := 0 }) := by
  induction fuel generalizing c wipCnt with
  | zero => omega
  | succ fuel ih =>
    have hread : c.transmit =
        (if c.busy = 0 then 0 else 1, { c with busy := c.busy - 1 }) := by
      simp [Chip.transmit, hrx]
    simp only [waitWip, StateT.run_bind, readSpiByte_run, hread, Option.bind_eq_bind,
      Option.bind_some]
    by_cases hz : c.busy = 0
    · have hsame : { c with busy := c.busy - 1 } = { c with busy := 0 } := by rw [hz]
      simp only [hz, ↓reduceIte]
      by_cases h3 : wipCnt + 1 ≥ 3
      · simp [h3]
      · simpa [h3, hz] using ih { c with busy := 0 } hrx (by simp; omega) (by omega) (by simp)
    · have := hb hz
      simpa [hz] using ih { c with busy := c.busy - 1 } hrx (by simp; omega) (by omega)
        (fun _ => by simp; omega)

section
variable {c : Chip}

theorem spiFlashReadByte_run (h : c.Idle) (ha : addr < 2 ^ 24) :
    (spiFlashReadByte addr).run c = some (c.cells (c.cellOf addr), c) := by
  obtain ⟨hb, hl, hr, ht⟩ := h
  have hread : ((((c.select.receive 0x03).receive (addrByte addr 16)).receive
      (addrByte addr 8)).receive (addrByte addr 0)).transmit =
      (c.cells (c.cellOf addr), { c with
        rx := [0x03, addrByte addr 16, addrByte addr 8, addrByte addr 0], tx := 1 }) := by
    simp [Chip.select, Chip.receive, Chip.transmit, hb, addr24_bytes ha, Chip.cellOf]
  simp only [spiFlashReadByte, StateT.run_bind, enableCs_run, writeSpiByte_run,
    writeSpi24bitAddr_run, readSpiByte_run, disableCs_run, Option.bind_eq_bind, Option.bind_some,
    StateT.run_pure, hread]
  cases c
  simp_all [Chip.deselect, Chip.commit]

theorem writeCommand_run (delay : Nat) (h : c.Idle) (command : Spi Unit) (bytes : List Byte)
    (hcmd : ∀ c' : Chip, command.run c' = some ((), { c' with rx := c'.rx ++ bytes }))
    (hd : Chip.commit { c with wel := true, rx := bytes } =
      { c with cells := m, wel := false, busy := delay, rx := bytes }) :
    (writeCommand command).run c = some ((), { c with cells := m }) := by
  obtain ⟨hb, hl, hr, ht⟩ := h
  have hwel : (c.select.receive 0x06).deselect = { c with wel := true } := by
    simp [Chip.select, Chip.receive, Chip.deselect, Chip.commit, hb, hr, ht]
  have hcommit : Chip.deselect { Chip.select { c with wel := true } with rx := bytes } =
      { c with cells := m, wel := false, busy := delay } := by
    have : { Chip.select { c with wel := true } with rx := bytes } =
        { c with wel := true, rx := bytes } := by simp [Chip.select, ht]
    rw [this, Chip.deselect, hd]
    cases c; simp_all
  let waiting : Chip := { c with cells := m, wel := false, busy := delay, rx := [0x05] }
  have hwait : (waitWip (delay + 3) 0).run waiting = some ((), { waiting with busy := 0 }) :=
    waitWip_run waiting rfl (by simp [waiting]) (by omega) (by simp [waiting])
  have hselect : Chip.receive (Chip.select { c with cells := m, wel := false, busy := delay })
      0x05 = waiting := by
    simp [Chip.select, Chip.receive, waiting, ht]
  have hend : (Chip.receive (Chip.select (Chip.deselect { waiting with busy := 0 })) 0x04).deselect
      = { c with cells := m } := by
    cases c
    simp_all [Chip.select, Chip.receive, Chip.deselect, Chip.commit, waiting]
  have hselected : (Chip.select { c with wel := true }).rx = [] := rfl
  simp only [writeCommand, StateT.run_bind, enableCs_run, writeSpiByte_run, disableCs_run,
    Option.bind_eq_bind, Option.bind_some, StateT.run_get, pure, hwel, hcmd, hselected,
    List.nil_append, hcommit, hselect]
  rw [show waiting.busy = delay from rfl, hwait]
  simp only [Option.bind_some, hend]

theorem spiFlashWriteByte_run (h : c.Idle) (ha : addr < 2 ^ 24) (v : Byte) :
    (spiFlashWriteByte addr v).run c =
      some ((), { c with cells := program c.cells (c.cellOf addr) v }) := by
  refine writeCommand_run c.programDelay h _
    [0x02, addrByte addr 16, addrByte addr 8, addrByte addr 0, v] ?_ ?_
  · intro c'
    simp [StateT.run_bind, Chip.receive]
  · simp [Chip.commit, h.ready, addr24_bytes ha, Chip.cellOf]

theorem spiFlashEraseSector_run (h : c.Idle) (ha : addr < 2 ^ 24) :
    (spiFlashEraseSector addr).run c =
      some ((), { c with cells := eraseBlock c.cells spiSectorSize (c.cellOf addr) }) := by
  refine writeCommand_run c.eraseDelay h _
    [0x20, addrByte addr 16, addrByte addr 8, addrByte addr 0] ?_ ?_
  · intro c'
    simp [StateT.run_bind, Chip.receive]
  · simp [Chip.commit, h.ready, addr24_bytes ha, Chip.cellOf]

theorem spiFlashReadWord_run (h : c.Idle) (ha : addr + 1 < 2 ^ 24) :
    (spiFlashReadWord addr).run c = some ((c.cells (c.cellOf addr)).setWidth 16 |||
      (c.cells (c.cellOf (addr + 1))).setWidth 16 <<< 8, c) := by
  rw [spiFlashReadWord, bind_run (spiFlashReadByte_run h (by omega)),
    bind_run (spiFlashReadByte_run h ha), StateT.run_pure, Option.pure_def]

/-- The three bytes that answer RDID. -/
def Chip.deviceId (c : Chip) : List Byte :=
  [c.id.getD 0 0xFF, c.id.getD 1 0xFF, c.id.getD 2 0xFF]

theorem readFlashDeviceId_run (h : c.Idle) : readFlashDeviceId.run c = some (c.deviceId, c) := by
  obtain ⟨hb, hl, hr, ht⟩ := h
  cases c
  simp only at hb hl hr ht
  subst hb hl hr ht
  rfl

end

/-- The chip's answer to RDID is one of the table's, and its array has the
size the table gives. -/
def Chip.Recognised (c : Chip) : Prop :=
  ∃ info ∈ flashInfoTable, c.id = info.id ∧ c.size = info.size

instance (c : Chip) : Decidable c.Recognised := by
  unfold Chip.Recognised
  infer_instance

theorem Chip.Recognised.id_cases {c : Chip} (h : c.Recognised) :
    ∃ i0 i1 i2, c.id = [i0, i1, i2] := by
  obtain ⟨info, hm, hid, -⟩ := h
  simp only [flashInfoTable, List.mem_cons, List.not_mem_nil, or_false] at hm
  rcases hm with rfl | rfl | rfl | rfl <;> exact ⟨_, _, _, hid⟩

theorem Chip.Recognised.size_cases {c : Chip} (h : c.Recognised) :
    c.size = 2 ^ 18 ∨ c.size = 2 ^ 21 ∨ c.size = 2 ^ 23 ∨ c.size = 2 ^ 24 := by
  obtain ⟨info, hm, -, hs⟩ := h
  simp only [flashInfoTable, List.mem_cons, List.not_mem_nil, or_false] at hm
  rcases hm with rfl | rfl | rfl | rfl <;> simp_all

theorem getSpiFlashInfo_found {c : Chip} (h : c.Idle) (hf : (getFlashInfo c.deviceId).isSome) :
    getSpiFlashInfo.run c = some (1, c) := by
  obtain ⟨info, hinfo⟩ := Option.isSome_iff_exists.mp hf
  simp [getSpiFlashInfo, readFlashDeviceId_run h, hinfo]

theorem getSpiFlashInfo_unknown {c : Chip} (h : c.Idle) (hf : ¬ (getFlashInfo c.deviceId).isSome) :
    getSpiFlashInfo.run c = some (0, c) := by
  simp [getSpiFlashInfo, readFlashDeviceId_run h, Option.not_isSome_iff_eq_none.mp hf]

theorem getSpiFlashInfo_run {c : Chip} (h : c.Idle) (hk : c.Recognised) :
    getSpiFlashInfo.run c = some (1, c) := by
  obtain ⟨i0, i1, i2, hid⟩ := hk.id_cases
  have hdevice : c.deviceId = c.id := by rw [Chip.deviceId, hid]; rfl
  obtain ⟨info, hm, hi, -⟩ := hk
  refine getSpiFlashInfo_found h ?_
  rw [hdevice, getFlashInfo, List.find?_isSome]
  exact ⟨info, hm, by simp [hi]⟩

end ItxLlama.Llama
