import ItxLlama.Llama.SpiFlash

/-!
# The BIOS settings record

`llama_bios_settings.[ch]`. The offset of a setting in the settings page is
a parameter of its type: no code ever assigns an `offset` field, so a
record with other offsets than the declared ones cannot be built here.
-/

namespace ItxLlama.Llama

open Lib.Nor

structure SettingEntryU8 (offset : Nat) where
  value : Byte
  deriving DecidableEq, Repr

structure SettingEntryU16 (offset : Nat) where
  value : BitVec 16
  deriving DecidableEq, Repr

structure LlamaBiosSettings where
  hasChanges : Byte
  cs4237ExtFmPresent : Byte
  initialized : SettingEntryU8 0xC0
  cpuFreqIndex : SettingEntryU8 0xC1
  l1Cache : SettingEntryU8 0xC2
  l2Cache : SettingEntryU8 0xC3
  bootOrderIndex : SettingEntryU8 0xC4
  usbAsFixedDisks : SettingEntryU8 0xC5
  com1BaseClockIndex : SettingEntryU8 0xC6
  com2BaseClockIndex : SettingEntryU8 0xC7
  cs4237WssPort : SettingEntryU16 0xC8
  cs4237SynPort : SettingEntryU16 0xCA
  cs4237SbPort : SettingEntryU16 0xCC
  cs4237GamepadPort : SettingEntryU16 0xCE
  cs4237MpuPort : SettingEntryU16 0xD0
  cs4237ExtFm : SettingEntryU8 0xD2
  cs4237Digital : SettingEntryU8 0xD3
  macAddressIndex : SettingEntryU8 0xD4
  fan1TargetRpm : SettingEntryU16 0xD5
  fan2TargetRpm : SettingEntryU16 0xD7
  fan3TargetRpm : SettingEntryU16 0xD9
  bootTuneIndex : SettingEntryU8 0xDB
  deriving DecidableEq, Repr

def llamaBiosSettingsDefault : LlamaBiosSettings where
  hasChanges := 0
  cs4237ExtFmPresent := 0
  initialized := ⟨1⟩
  cpuFreqIndex := ⟨3⟩
  l1Cache := ⟨1⟩
  l2Cache := ⟨1⟩
  bootOrderIndex := ⟨0⟩
  usbAsFixedDisks := ⟨1⟩
  com1BaseClockIndex := ⟨0⟩
  com2BaseClockIndex := ⟨0⟩
  cs4237WssPort := ⟨0x534⟩
  cs4237SynPort := ⟨0x388⟩
  cs4237SbPort := ⟨0x220⟩
  cs4237GamepadPort := ⟨0x200⟩
  cs4237MpuPort := ⟨0x330⟩
  cs4237ExtFm := ⟨0⟩
  cs4237Digital := ⟨1⟩
  macAddressIndex := ⟨0⟩
  fan1TargetRpm := ⟨2000⟩
  fan2TargetRpm := ⟨2000⟩
  fan3TargetRpm := ⟨2000⟩
  bootTuneIndex := ⟨1⟩

def freqArray : List (List Byte) :=
  [ [0x48, 0x37, 0x21, 0x02, 0xCF, 0x07],
    [0x40, 0x26, 0x23, 0x02, 0x3F, 0x07],
    [0x30, 0x03, 0x23, 0x02, 0xDF, 0x07],
    [0x48, 0x03, 0x23, 0x02, 0x7F, 0x07],
    [0xA8, 0x53, 0x23, 0x02, 0x3F, 0x07],
    [0x78, 0x52, 0x23, 0x02, 0xDF, 0x07] ]

def macAddressArray : List (List Byte) :=
  [ [0x00, 0x0B, 0xB4, 0x00, 0x00, 0x01],
    [0x00, 0x0B, 0xB4, 0x00, 0x00, 0x02],
    [0x00, 0x0B, 0xB4, 0x00, 0x00, 0x03],
    [0x00, 0x0B, 0xB4, 0x00, 0x00, 0x04],
    [0x00, 0x0B, 0xB4, 0x00, 0x00, 0x05],
    [0x00, 0x0B, 0xB4, 0x00, 0x00, 0x06] ]

-- ---------------------------------------------------------------------------
-- Loading
-- ---------------------------------------------------------------------------

def loadU8 (offset : Nat) : Spi (SettingEntryU8 offset) := do
  pure ⟨← spiFlashReadByte (spiBiosSettingsOffset + offset)⟩

def loadU16 (offset : Nat) : Spi (SettingEntryU16 offset) := do
  pure ⟨← spiFlashReadWord (spiBiosSettingsOffset + offset)⟩

def llamaLoadBiosSettings (lbs : LlamaBiosSettings) : Spi LlamaBiosSettings := do
  let initialized ← spiFlashReadByte (spiBiosSettingsOffset + 0xC0)
  if initialized ≠ 1 then return lbs
  let cpuFreqIndex ← loadU8 _
  let l1Cache ← loadU8 _
  let l2Cache ← loadU8 _
  let bootOrderIndex ← loadU8 _
  let usbAsFixedDisks ← loadU8 _
  let com1BaseClockIndex ← loadU8 _
  let com2BaseClockIndex ← loadU8 _
  let cs4237WssPort ← loadU16 _
  let cs4237SynPort ← loadU16 _
  let cs4237SbPort ← loadU16 _
  let cs4237GamepadPort ← loadU16 _
  let cs4237MpuPort ← loadU16 _
  let cs4237ExtFm ← loadU8 _
  let cs4237Digital ← loadU8 _
  let macAddressIndex ← loadU8 _
  let fan1TargetRpm ← loadU16 _
  let fan2TargetRpm ← loadU16 _
  let fan3TargetRpm ← loadU16 _
  let bootTuneIndex ← loadU8 _
  return { lbs with
    cpuFreqIndex, l1Cache, l2Cache, bootOrderIndex, usbAsFixedDisks, com1BaseClockIndex,
    com2BaseClockIndex, cs4237WssPort, cs4237SynPort, cs4237SbPort, cs4237GamepadPort,
    cs4237MpuPort, cs4237ExtFm, cs4237Digital, macAddressIndex, fan1TargetRpm, fan2TargetRpm,
    fan3TargetRpm, bootTuneIndex }

-- ---------------------------------------------------------------------------
-- Saving
-- ---------------------------------------------------------------------------

/-- `for (i = 0; i < spi_page_size; i++) buf[i] = spi_flash_read_byte(base + i)` -/
def readPage (base : Nat) : Spi (List Byte) :=
  (List.range spiPageSize).mapM fun i => spiFlashReadByte (base + i)

/-- `for (i = 0; i < spi_page_size; i++) spi_flash_write_byte(base + i, buf[i])` -/
def writePage (base : Nat) (buf : List Byte) : Spi Unit :=
  forM (List.range spiPageSize) fun i => spiFlashWriteByte (base + i) (buf.getD i 0)

def SettingEntryU8.bytes (s : SettingEntryU8 offset) : List (Nat × Byte) :=
  [(offset, s.value)]

def SettingEntryU16.bytes (s : SettingEntryU16 offset) : List (Nat × Byte) :=
  [ (offset, (s.value &&& 0xFF).setWidth 8),
    (offset + 1, ((s.value >>> 8) &&& 0xFF).setWidth 8) ]

/-- The MAC and strap bytes, whose offsets are literals in the save. -/
def macOffsets : List Nat := [0xB0, 0xB1, 0xB2, 0xB3, 0xB4, 0xB5]
def freqOffsets : List Nat := [0xB6, 0xB7, 0xBB, 0xBC, 0xBD, 0xBF]

/-- `bios_settings[offset] = table[row][column]` for the six columns; `none`
is a row outside the table, which C leaves undefined. -/
def tableBytes (offsets : List Nat) (table : List (List Byte)) (row : Byte) :
    Option (List (Nat × Byte)) :=
  (table[row.toNat]?).map offsets.zip

def LlamaBiosSettings.entries (lbs : LlamaBiosSettings) : List (List (Nat × Byte)) :=
  [ [(0xC0, 1)],
    lbs.cpuFreqIndex.bytes,
    lbs.l1Cache.bytes,
    lbs.l2Cache.bytes,
    lbs.bootOrderIndex.bytes,
    lbs.usbAsFixedDisks.bytes,
    lbs.com1BaseClockIndex.bytes,
    lbs.com2BaseClockIndex.bytes,
    lbs.cs4237WssPort.bytes,
    lbs.cs4237SynPort.bytes,
    lbs.cs4237SbPort.bytes,
    lbs.cs4237GamepadPort.bytes,
    lbs.cs4237MpuPort.bytes,
    lbs.cs4237ExtFm.bytes,
    lbs.cs4237Digital.bytes,
    lbs.macAddressIndex.bytes,
    lbs.fan1TargetRpm.bytes,
    lbs.fan2TargetRpm.bytes,
    lbs.fan3TargetRpm.bytes,
    lbs.bootTuneIndex.bytes ]

def LlamaBiosSettings.bytes (lbs : LlamaBiosSettings) : List (Nat × Byte) := lbs.entries.flatten

/-- The assignments `bios_settings[offset] = byte` of the save, in order;
`none` when an index is outside its table. -/
def settingsBytes (lbs : LlamaBiosSettings) : Option (List (Nat × Byte)) := do
  let mac ← tableBytes macOffsets macAddressArray lbs.macAddressIndex.value
  let freq ← tableBytes freqOffsets freqArray lbs.cpuFreqIndex.value
  pure (mac ++ freq ++ lbs.bytes)

def assignAll (buf : List Byte) (assignments : List (Nat × Byte)) : List Byte :=
  assignments.foldl (fun b (offset, v) => b.set offset v) buf

def llamaSaveBiosSettings (lbs : LlamaBiosSettings) : Spi Unit := do
  if (← getSpiFlashInfo) = 0 then return ()
  let crossbar ← readPage spiCrossbarOffset
  let biosSettings ← readPage spiBiosSettingsOffset
  let assignments ← StateT.lift (settingsBytes lbs)
  let biosSettings := assignAll biosSettings assignments
  spiFlashEraseSector spiSectorOffset
  writePage spiCrossbarOffset crossbar
  writePage spiBiosSettingsOffset biosSettings

end ItxLlama.Llama
