import ItxLlama.Llama.BiosSettings
import Mathlib.Tactic.IntervalCases

/-!
# What a save leaves in flash

A save rewrites one 4096-byte sector. `llamaSaveBiosSettings_run` gives the
array it leaves, cell by cell; the frame of a save and the round trip
through a load are read off it.
-/

namespace ItxLlama.Llama

open Lib.Nor

-- ---------------------------------------------------------------------------
-- Page loops
-- ---------------------------------------------------------------------------

section
variable {c : Chip}

theorem readRange_run (h : c.Idle) (is : List Nat) (hr : ∀ i ∈ is, base + i < 2 ^ 24) :
    (is.mapM fun i => spiFlashReadByte (base + i)).run c =
      some (is.map fun i => c.cells (c.cellOf (base + i)), c) := by
  induction is with
  | nil => rfl
  | cons i is ih =>
    rw [List.mapM_cons, bind_run (spiFlashReadByte_run h (hr i (by simp))),
      bind_run (ih fun j hj => hr j (List.mem_cons_of_mem _ hj))]
    rfl

theorem readPage_run (h : c.Idle) (hr : base + spiPageSize ≤ 2 ^ 24) :
    (readPage base).run c =
      some ((List.range spiPageSize).map fun i => c.cells (c.cellOf (base + i)), c) :=
  readRange_run h _ fun i hi => by have := List.mem_range.mp hi; omega

/-- The induction is on the number of bytes left; the cells programmed so
far are the chip's. -/
theorem writeRange_run (h : c.Idle) (buf : List Byte) (hn : i + n ≤ buf.length)
    (hr : base + (i + n) ≤ 2 ^ 24)
    (hcell : ∀ j < i + n, c.cellOf (base + j) = c.cellOf base + j) :
    (forM (List.range' i n) fun j => spiFlashWriteByte (base + j) (buf.getD j 0)).run c =
      some ((), { c with cells := programAll c.cells (c.cellOf base + i) ((buf.drop i).take n) }) := by
  induction n generalizing c i with
  | zero => simp [programAll]
  | succ n ih =>
    have hi : i < buf.length := by omega
    have hdrop : (buf.drop i).take (n + 1) = buf[i] :: (buf.drop (i + 1)).take n := by
      rw [List.drop_eq_getElem_cons hi, List.take_succ_cons]
    have hstep := spiFlashWriteByte_run h (show base + i < 2 ^ 24 by omega) (buf.getD i 0)
    rw [hcell i (by omega)] at hstep
    rw [List.range'_succ, List.forM_cons, bind_run hstep]
    have hrest := ih (i := i + 1) (h.withCells (program c.cells (c.cellOf base + i) (buf.getD i 0)))
      (by omega) (by omega) fun j hj => hcell j (by omega)
    rw [hrest, hdrop, programAll, List.getD_eq_getElem?_getD, List.getElem?_eq_getElem hi,
      Option.getD_some]
    rfl

theorem writePage_run (h : c.Idle) (buf : List Byte) (hl : buf.length = spiPageSize)
    (hr : base + spiPageSize ≤ 2 ^ 24)
    (hcell : ∀ j < spiPageSize, c.cellOf (base + j) = c.cellOf base + j) :
    (writePage base buf).run c =
      some ((), { c with cells := programAll c.cells (c.cellOf base) buf }) := by
  rw [writePage, List.range_eq_range',
    writeRange_run h buf (by omega) (by omega) (by simpa using hcell)]
  simp [List.take_of_length_le, hl]

end

-- ---------------------------------------------------------------------------
-- Assignments to a page buffer
-- ---------------------------------------------------------------------------

@[simp] theorem length_assignAll (buf : List Byte) (as : List (Nat × Byte)) :
    (assignAll buf as).length = buf.length := by
  induction as generalizing buf with
  | nil => rfl
  | cons a as ih => simpa [assignAll] using ih (buf.set a.1 a.2)

theorem assignAll_other (buf : List Byte) (as : List (Nat × Byte)) (h : k ∉ as.map Prod.fst) :
    (assignAll buf as)[k]? = buf[k]? := by
  induction as generalizing buf with
  | nil => rfl
  | cons a as ih =>
    simp only [List.map_cons, List.mem_cons, not_or] at h
    have := ih (buf.set a.1 a.2) h.2
    rw [List.getElem?_set_ne (Ne.symm h.1)] at this
    exact this

theorem assignAll_mem (buf : List Byte) (as : List (Nat × Byte)) (hd : (as.map Prod.fst).Nodup)
    (hm : (k, v) ∈ as) (hk : k < buf.length) : (assignAll buf as)[k]? = some v := by
  induction as generalizing buf with
  | nil => simp at hm
  | cons a as ih =>
    simp only [List.map_cons, List.nodup_cons] at hd
    rcases List.mem_cons.mp hm with rfl | hm
    · have := assignAll_other (buf.set k v) as hd.1
      rw [List.getElem?_set_self hk] at this
      exact this
    · exact ih (buf.set a.1 a.2) hd.2 hm (by simpa using hk)

-- ---------------------------------------------------------------------------
-- The bytes of a record
-- ---------------------------------------------------------------------------

/-- Every offset of the page that a save assigns. -/
def settingOffsets : List Nat :=
  macOffsets ++ freqOffsets ++ llamaBiosSettingsDefault.bytes.map Prod.fst

theorem settingOffsets_nodup : settingOffsets.Nodup := by decide

theorem settingOffsets_lt (h : k ∈ settingOffsets) : k < spiPageSize := by
  have : ∀ k ∈ settingOffsets, k < spiPageSize := by decide
  exact this k h

theorem bytes_offsets (lbs : LlamaBiosSettings) :
    lbs.bytes.map Prod.fst = llamaBiosSettingsDefault.bytes.map Prod.fst := by
  unfold LlamaBiosSettings.bytes LlamaBiosSettings.entries SettingEntryU8.bytes SettingEntryU16.bytes
  simp only [List.flatten_cons, List.flatten_nil, List.map_append, List.map_cons, List.map_nil]

theorem tableBytes_some (offsets : List Nat) (hrow : table[row.toNat]? = some bytes)
    (hl : bytes.length = offsets.length) :
    ∃ as, tableBytes offsets table row = some as ∧ as.map Prod.fst = offsets ∧
      as.map Prod.snd = bytes := by
  refine ⟨offsets.zip bytes, by simp [tableBytes, hrow], ?_, ?_⟩
  · exact List.map_fst_zip (by omega)
  · exact List.map_snd_zip (by omega)

/-- The indexes select rows of their tables. -/
def LlamaBiosSettings.InRange (lbs : LlamaBiosSettings) : Prop :=
  lbs.cpuFreqIndex.value.toNat < freqArray.length ∧
    lbs.macAddressIndex.value.toNat < macAddressArray.length

instance (lbs : LlamaBiosSettings) : Decidable lbs.InRange := by
  unfold LlamaBiosSettings.InRange
  infer_instance

theorem table_rows : ∀ r ∈ freqArray ++ macAddressArray, r.length = 6 := by decide

theorem settingsBytes_some (hr : LlamaBiosSettings.InRange lbs) :
    ∃ mac freq, settingsBytes lbs = some (mac ++ freq ++ lbs.bytes) ∧
      mac.map Prod.fst = macOffsets ∧ freq.map Prod.fst = freqOffsets ∧
      macAddressArray[lbs.macAddressIndex.value.toNat]? = some (mac.map Prod.snd) ∧
      freqArray[lbs.cpuFreqIndex.value.toNat]? = some (freq.map Prod.snd) := by
  obtain ⟨hf, hm⟩ := hr
  have hmac := List.getElem?_eq_getElem hm
  have hfreq := List.getElem?_eq_getElem hf
  obtain ⟨mac, hmb, hmk, hmv⟩ := tableBytes_some macOffsets hmac
    (table_rows _ (List.mem_append_right _ (List.getElem_mem hm)))
  obtain ⟨freq, hfb, hfk, hfv⟩ := tableBytes_some freqOffsets hfreq
    (table_rows _ (List.mem_append_left _ (List.getElem_mem hf)))
  refine ⟨mac, freq, ?_, hmk, hfk, ?_, ?_⟩
  · simp [settingsBytes, hmb, hfb]
  · rw [hmv, hmac]
  · rw [hfv, hfreq]

-- ---------------------------------------------------------------------------
-- The saved array
-- ---------------------------------------------------------------------------

def Chip.sector (c : Chip) : Nat := c.cellOf spiSectorOffset
def Chip.crossbarPage (c : Chip) : Nat := c.cellOf spiCrossbarOffset
def Chip.settingsPage (c : Chip) : Nat := c.cellOf spiBiosSettingsOffset

/-- The two pages lie in the last sector of the first 8 MiB, which every
chip of the table maps to one aligned sector of its array. -/
theorem Chip.Recognised.layout {c : Chip} (h : c.Recognised) :
    c.sector % spiSectorSize = 0 ∧ c.sector + spiSectorSize ≤ c.size ∧
      ∀ i < spiSectorSize, c.cellOf (spiSectorOffset + i) = c.sector + i := by
  simp only [Chip.sector, Chip.cellOf, spiSectorOffset, spiRomSize, spiSectorSize]
  rcases h.size_cases with hs | hs | hs | hs <;> rw [hs] <;>
    exact ⟨by decide, by decide, fun i hi => by omega⟩

theorem spiCrossbarOffset_eq : spiCrossbarOffset = spiSectorOffset + 0xD00 := by decide
theorem spiBiosSettingsOffset_eq : spiBiosSettingsOffset = spiSectorOffset + 0xF00 := by decide

section
variable {c : Chip} (h : c.Recognised)
include h

theorem Chip.Recognised.crossbarPage_eq : c.crossbarPage = c.sector + 0xD00 := by
  rw [Chip.crossbarPage, spiCrossbarOffset_eq]
  exact h.layout.2.2 _ (by decide)

theorem Chip.Recognised.settingsPage_eq : c.settingsPage = c.sector + 0xF00 := by
  rw [Chip.settingsPage, spiBiosSettingsOffset_eq]
  exact h.layout.2.2 _ (by decide)

theorem Chip.Recognised.crossbar_cell (hi : i < spiPageSize) :
    c.cellOf (spiCrossbarOffset + i) = c.crossbarPage + i := by
  have := h.layout.2.2 (0xD00 + i) (by simp only [spiPageSize, spiSectorSize] at *; omega)
  rw [h.crossbarPage_eq, spiCrossbarOffset_eq, Nat.add_assoc, Nat.add_assoc, this]

theorem Chip.Recognised.settings_cell (hi : i < spiPageSize) :
    c.cellOf (spiBiosSettingsOffset + i) = c.settingsPage + i := by
  have := h.layout.2.2 (0xF00 + i) (by simp only [spiPageSize, spiSectorSize] at *; omega)
  rw [h.settingsPage_eq, spiBiosSettingsOffset_eq, Nat.add_assoc, Nat.add_assoc, this]

end

def Chip.page (c : Chip) (start : Nat) : List Byte :=
  (List.range spiPageSize).map fun i => c.cells (start + i)

/-- The array after the erase and the two page writes. -/
def Chip.saved (c : Chip) (assignments : List (Nat × Byte)) : Cells 8 :=
  programAll
    (programAll (eraseBlock c.cells spiSectorSize c.sector) c.crossbarPage (c.page c.crossbarPage))
    c.settingsPage (assignAll (c.page c.settingsPage) assignments)

theorem readPages_run {c : Chip} (h : c.Idle) (hk : c.Recognised) :
    (readPage spiCrossbarOffset).run c = some (c.page c.crossbarPage, c) ∧
      (readPage spiBiosSettingsOffset).run c = some (c.page c.settingsPage, c) := by
  constructor
  · rw [readPage_run h (by decide), Chip.page]
    simp only [Option.some.injEq, Prod.mk.injEq, and_true, List.map_inj_left, List.mem_range]
    exact fun i hi => by rw [hk.crossbar_cell hi]
  · rw [readPage_run h (by decide), Chip.page]
    simp only [Option.some.injEq, Prod.mk.injEq, and_true, List.map_inj_left, List.mem_range]
    exact fun i hi => by rw [hk.settings_cell hi]

theorem eraseSettingsSector_run {c : Chip} (h : c.Idle) :
    (spiFlashEraseSector spiSectorOffset).run c =
      some ((), { c with cells := eraseBlock c.cells spiSectorSize c.sector }) := by
  rw [spiFlashEraseSector_run h (by decide), Chip.sector]

theorem writeCrossbar_run {c : Chip} (h : c.Idle) (hk : c.Recognised) (m : Cells 8)
    (buf : List Byte) (hl : buf.length = spiPageSize) :
    (writePage spiCrossbarOffset buf).run { c with cells := m } =
      some ((), { c with cells := programAll m c.crossbarPage buf }) :=
  writePage_run (h.withCells m) buf hl (by decide) fun j hj => hk.crossbar_cell hj

theorem writeSettings_run {c : Chip} (h : c.Idle) (hk : c.Recognised) (m : Cells 8)
    (buf : List Byte) (hl : buf.length = spiPageSize) :
    (writePage spiBiosSettingsOffset buf).run { c with cells := m } =
      some ((), { c with cells := programAll m c.settingsPage buf }) :=
  writePage_run (h.withCells m) buf hl (by decide) fun j hj => hk.settings_cell hj

@[simp] theorem Chip.length_page (c : Chip) (start : Nat) :
    (c.page start).length = spiPageSize := by
  simp [Chip.page]

theorem llamaSaveBiosSettings_run {c : Chip} (h : c.Idle) (hk : c.Recognised)
    (has : settingsBytes lbs = some as) :
    (llamaSaveBiosSettings lbs).run c = some ((), { c with cells := c.saved as }) := by
  obtain ⟨hx, hs⟩ := readPages_run h hk
  have hlift : (StateT.lift (settingsBytes lbs) : Spi _).run c = some (as, c) := by
    rw [has]; rfl
  unfold llamaSaveBiosSettings
  rw [bind_run (getSpiFlashInfo_run h hk), if_neg Nat.one_ne_zero]
  rw [bind_run hx, bind_run hs, bind_run hlift, bind_run (eraseSettingsSector_run h),
    bind_run (writeCrossbar_run h hk _ _ (by simp)), writeSettings_run h hk _ _ (by simp), Chip.saved]

section
variable {c : Chip} (h : c.Recognised)
include h

theorem Chip.Recognised.sector_div : b / spiSectorSize = c.sector / spiSectorSize ↔
    c.sector ≤ b ∧ b < c.sector + spiSectorSize := by
  have := h.layout.1
  simp only [spiSectorSize] at *
  omega

theorem Chip.Recognised.erased (hb : c.sector ≤ b) (hb' : b < c.sector + spiSectorSize) :
    eraseBlock c.cells spiSectorSize c.sector b = BitVec.allOnes 8 :=
  eraseBlock_inside _ (h.sector_div.mpr ⟨hb, hb'⟩)

theorem Chip.Recognised.saved_settings (as : List (Nat × Byte)) (hk : k < spiPageSize) :
    (assignAll (c.page c.settingsPage) as)[k]? = some (c.saved as (c.settingsPage + k)) := by
  have hX := h.crossbarPage_eq
  have hP := h.settingsPage_eq
  have hl : k < (assignAll (c.page c.settingsPage) as).length := by simpa using hk
  simp only [spiPageSize] at hk
  rw [Chip.saved, programAll_erased _ _ _ hl, List.getElem?_eq_getElem hl]
  rw [programAll_outside _ _ (by simp only [Chip.length_page, spiPageSize]; omega)]
  exact h.erased (by omega) (by simp only [spiSectorSize]; omega)

theorem Chip.Recognised.saved_crossbar (hk : k < spiPageSize) :
    c.saved as (c.crossbarPage + k) = c.cells (c.crossbarPage + k) := by
  have hX := h.crossbarPage_eq
  have hP := h.settingsPage_eq
  have hl : k < (c.page c.crossbarPage).length := by simpa using hk
  simp only [spiPageSize] at hk
  rw [Chip.saved, programAll_outside _ _ (by omega), programAll_erased _ _ _ hl]
  · simp [Chip.page]
  · exact h.erased (by omega) (by simp only [spiSectorSize]; omega)

/-- The pages of the sector that the save does not read come back blank. -/
theorem Chip.Recognised.saved_blank (hb : c.sector ≤ b) (hb' : b < c.sector + spiSectorSize)
    (hx : ¬ (c.crossbarPage ≤ b ∧ b < c.crossbarPage + spiPageSize))
    (hs : ¬ (c.settingsPage ≤ b ∧ b < c.settingsPage + spiPageSize)) :
    c.saved as b = 0xFF := by
  rw [Chip.saved, programAll_outside _ _ (by simp; omega), programAll_outside _ _ (by simp; omega)]
  exact h.erased hb hb'

theorem Chip.Recognised.saved_outside (hb : ¬ (c.sector ≤ b ∧ b < c.sector + spiSectorSize)) :
    c.saved as b = c.cells b := by
  have hX := h.crossbarPage_eq
  have hP := h.settingsPage_eq
  rw [Chip.saved, programAll_outside, programAll_outside, eraseBlock_outside]
  · rw [Ne, h.sector_div]
    exact hb
  all_goals
    simp only [length_assignAll, Chip.length_page, spiPageSize, spiSectorSize] at *
    omega

end

-- ---------------------------------------------------------------------------
-- The frame of a save
-- ---------------------------------------------------------------------------

def Chip.settingAddresses (c : Chip) : List Nat :=
  settingOffsets.map fun k => c.cellOf (spiBiosSettingsOffset + k)

/-- A save returns, and changes no cell but those of the settings it
declares. -/
def SaveFrame (c : Chip) (lbs : LlamaBiosSettings) : Prop :=
  ∃ c', (llamaSaveBiosSettings lbs).run c = some ((), c') ∧
    ∀ b < c.size, b ∉ c.settingAddresses → c'.cells b = c.cells b

/-- The part of the erased sector that the save neither reads nor writes
back: all but the crossbar page and the settings page. -/
def Chip.Unrestored (c : Chip) (b : Nat) : Prop :=
  (c.sector ≤ b ∧ b < c.sector + spiSectorSize) ∧
    ¬ (c.crossbarPage ≤ b ∧ b < c.crossbarPage + spiPageSize) ∧
    ¬ (c.settingsPage ≤ b ∧ b < c.settingsPage + spiPageSize)

theorem settingAddresses_page {c : Chip} (hk : c.Recognised) (hb : b ∈ c.settingAddresses) :
    ∃ k ∈ settingOffsets, k < spiPageSize ∧ b = c.settingsPage + k := by
  obtain ⟨k, hm, rfl⟩ := List.mem_map.mp hb
  exact ⟨k, hm, settingOffsets_lt hm, hk.settings_cell (settingOffsets_lt hm)⟩

theorem settingsBytes_offsets (hr : LlamaBiosSettings.InRange lbs) :
    ∃ as, settingsBytes lbs = some as ∧ as.map Prod.fst = settingOffsets := by
  obtain ⟨mac, freq, has, hm, hf, -, -⟩ := settingsBytes_some hr
  refine ⟨_, has, ?_⟩
  rw [List.map_append, List.map_append, hm, hf, bytes_offsets, settingOffsets]

theorem SaveFrame.blank {c : Chip} (h : c.Idle) (hk : c.Recognised) (hr : lbs.InRange)
    (hframe : SaveFrame c lbs) : ∀ b, c.Unrestored b → c.cells b = 0xFF := by
  obtain ⟨as, has, -⟩ := settingsBytes_offsets hr
  obtain ⟨c', hrun, hframe⟩ := hframe
  obtain rfl : { c with cells := c.saved as } = c' := by
    rw [llamaSaveBiosSettings_run h hk has] at hrun
    simpa using hrun
  rintro b ⟨⟨hlo, hhi⟩, hx, hs⟩
  have hfits := hk.layout.2.1
  have hnot : b ∉ c.settingAddresses := by
    intro hb
    obtain ⟨k, -, hlt, rfl⟩ := settingAddresses_page hk hb
    exact hs ⟨by omega, by omega⟩
  rw [← hframe b (by omega) hnot]
  exact hk.saved_blank hlo hhi hx hs

theorem SaveFrame.of_blank {c : Chip} (h : c.Idle) (hk : c.Recognised) (hr : lbs.InRange)
    (hblank : ∀ b, c.Unrestored b → c.cells b = 0xFF) : SaveFrame c lbs := by
  obtain ⟨as, has, hkeys⟩ := settingsBytes_offsets hr
  refine ⟨_, llamaSaveBiosSettings_run h hk has, fun b _ hb => ?_⟩
  by_cases hin : c.sector ≤ b ∧ b < c.sector + spiSectorSize
  · by_cases hx : c.crossbarPage ≤ b ∧ b < c.crossbarPage + spiPageSize
    · obtain ⟨k, rfl⟩ := Nat.exists_eq_add_of_le hx.1
      exact hk.saved_crossbar (by omega)
    · by_cases hs : c.settingsPage ≤ b ∧ b < c.settingsPage + spiPageSize
      · obtain ⟨k, rfl⟩ := Nat.exists_eq_add_of_le hs.1
        have hlt : k < spiPageSize := by omega
        have hnot : k ∉ as.map Prod.fst := by
          rw [hkeys]
          intro hm
          exact hb (List.mem_map.mpr ⟨k, hm, hk.settings_cell hlt⟩)
        have hcell := hk.saved_settings as hlt
        rw [assignAll_other _ _ hnot] at hcell
        simpa [Chip.page, hlt, eq_comm] using hcell
      · rw [hblank b ⟨hin, hx, hs⟩]
        exact hk.saved_blank hin.1 hin.2 hx hs
  · exact hk.saved_outside hin

/-- Inside the two restored pages a save is a frame; it blanks the rest of
the sector. So the frame holds exactly when the rest was blank before. -/
theorem save_frame_iff {c : Chip} (h : c.Idle) (hk : c.Recognised) (hr : lbs.InRange) :
    SaveFrame c lbs ↔ ∀ b, c.Unrestored b → c.cells b = 0xFF :=
  ⟨SaveFrame.blank h hk hr, SaveFrame.of_blank h hk hr⟩

/-- An MX25U6435F with every cell set to `v`. -/
def uniformChip (v : Byte) : Chip where
  id := [0xc2, 0x25, 0x37]
  size := 8 * 1024 * 1024
  programDelay := 2
  eraseDelay := 7
  cells := fun _ => v
  wel := false
  busy := 0
  rx := []
  tx := 0

theorem uniformChip_idle (v : Byte) : (uniformChip v).Idle := ⟨rfl, rfl, rfl, rfl⟩

theorem uniformChip_recognised (v : Byte) : (uniformChip v).Recognised :=
  ⟨⟨[0xc2, 0x25, 0x37], "MX25U6435F", 8 * 1024 * 1024⟩, by simp [flashInfoTable], rfl, rfl⟩

theorem save_frame_blankChip : SaveFrame (uniformChip 0xFF) llamaBiosSettingsDefault :=
  (save_frame_iff (uniformChip_idle _) (uniformChip_recognised _) (by decide)).mpr fun _ _ => rfl

theorem save_frame_zeroChip : ¬ SaveFrame (uniformChip 0) llamaBiosSettingsDefault := by
  intro h
  have := h.blank (uniformChip_idle _) (uniformChip_recognised _) (by decide)
    spiSectorOffset (by unfold Chip.Unrestored; decide)
  exact absurd this (by decide)

-- ---------------------------------------------------------------------------
-- The round trip
-- ---------------------------------------------------------------------------

def Chip.setting (c : Chip) (k : Nat) : Byte := c.cells (c.cellOf (spiBiosSettingsOffset + k))

/-- The entries that a load reads from the page. -/
def Chip.settingU8 (c : Chip) (k : Nat) : SettingEntryU8 k := ⟨c.setting k⟩

def Chip.settingU16 (c : Chip) (k : Nat) : SettingEntryU16 k :=
  ⟨(c.setting k).setWidth 16 ||| (c.setting (k + 1)).setWidth 16 <<< 8⟩

theorem loadU8_run {c : Chip} (h : c.Idle) (hk : k < 256) :
    (loadU8 k).run c = some (c.settingU8 k, c) := by
  have hb : spiBiosSettingsOffset + k < 2 ^ 24 := by
    simp only [spiBiosSettingsOffset, spiRomSize, spiPageSize]
    omega
  rw [loadU8, bind_run (spiFlashReadByte_run h hb)]
  rfl

theorem loadU16_run {c : Chip} (h : c.Idle) (hk : k + 1 < 256) :
    (loadU16 k).run c = some (c.settingU16 k, c) := by
  have hb : spiBiosSettingsOffset + k + 1 < 2 ^ 24 := by
    simp only [spiBiosSettingsOffset, spiRomSize, spiPageSize]
    omega
  rw [loadU16, bind_run (spiFlashReadWord_run h hb)]
  rfl

/-- The record of an initialized page. -/
def Chip.settings (c : Chip) (fresh : LlamaBiosSettings) : LlamaBiosSettings where
  hasChanges := fresh.hasChanges
  cs4237ExtFmPresent := fresh.cs4237ExtFmPresent
  initialized := fresh.initialized
  cpuFreqIndex := c.settingU8 _
  l1Cache := c.settingU8 _
  l2Cache := c.settingU8 _
  bootOrderIndex := c.settingU8 _
  usbAsFixedDisks := c.settingU8 _
  com1BaseClockIndex := c.settingU8 _
  com2BaseClockIndex := c.settingU8 _
  cs4237WssPort := c.settingU16 _
  cs4237SynPort := c.settingU16 _
  cs4237SbPort := c.settingU16 _
  cs4237GamepadPort := c.settingU16 _
  cs4237MpuPort := c.settingU16 _
  cs4237ExtFm := c.settingU8 _
  cs4237Digital := c.settingU8 _
  macAddressIndex := c.settingU8 _
  fan1TargetRpm := c.settingU16 _
  fan2TargetRpm := c.settingU16 _
  fan3TargetRpm := c.settingU16 _
  bootTuneIndex := c.settingU8 _

theorem readInitialized_run {c : Chip} (h : c.Idle) :
    (spiFlashReadByte (spiBiosSettingsOffset + 0xC0)).run c = some (c.setting 0xC0, c) :=
  spiFlashReadByte_run h (by decide)

theorem llamaLoadBiosSettings_initialized {c : Chip} (h : c.Idle) (hinit : c.setting 0xC0 = 1)
    (fresh : LlamaBiosSettings) :
    (llamaLoadBiosSettings fresh).run c = some (c.settings fresh, c) := by
  unfold llamaLoadBiosSettings
  rw [bind_run (readInitialized_run h), if_neg (not_not.mpr hinit)]
  iterate 7 refine (bind_run (loadU8_run h (by decide)) _).trans ?_
  iterate 5 refine (bind_run (loadU16_run h (by decide)) _).trans ?_
  iterate 3 refine (bind_run (loadU8_run h (by decide)) _).trans ?_
  iterate 3 refine (bind_run (loadU16_run h (by decide)) _).trans ?_
  refine (bind_run (loadU8_run h (by decide)) _).trans ?_
  rfl

theorem llamaLoadBiosSettings_blank {c : Chip} (h : c.Idle) (hinit : c.setting 0xC0 ≠ 1)
    (fresh : LlamaBiosSettings) :
    (llamaLoadBiosSettings fresh).run c = some (fresh, c) := by
  unfold llamaLoadBiosSettings
  rw [bind_run (readInitialized_run h), if_pos hinit]
  rfl

theorem word_of_bytes (w : BitVec 16) :
    ((w &&& 0xFF).setWidth 8).setWidth 16 ||| (((w >>> 8) &&& 0xFF).setWidth 8).setWidth 16 <<< 8
      = w := by
  ext i hi
  interval_cases i <;> simp

/-- The flash holds the bytes of the record's persisted settings. -/
def Chip.Stores (c : Chip) (lbs : LlamaBiosSettings) : Prop :=
  ∀ k v, (k, v) ∈ lbs.bytes → c.setting k = v

theorem Chip.Stores.u8 {c : Chip} {e : SettingEntryU8 k} (h : c.Stores lbs)
    (hm : e.bytes ∈ lbs.entries) : c.settingU8 k = e := by
  rw [Chip.settingU8, h k e.value (List.mem_flatten.mpr ⟨_, hm, by simp [SettingEntryU8.bytes]⟩)]

theorem Chip.Stores.u16 {c : Chip} {e : SettingEntryU16 k} (h : c.Stores lbs)
    (hm : e.bytes ∈ lbs.entries) : c.settingU16 k = e := by
  have hlo := h k _ (List.mem_flatten.mpr ⟨_, hm, List.mem_cons_self ..⟩)
  have hhi := h (k + 1) _
    (List.mem_flatten.mpr ⟨_, hm, List.mem_cons_of_mem _ (List.mem_cons_self ..)⟩)
  rw [Chip.settingU16, hlo, hhi, word_of_bytes]

theorem llamaLoadBiosSettings_run {c : Chip} (h : c.Idle) (hs : c.Stores lbs)
    (fresh : LlamaBiosSettings) :
    (llamaLoadBiosSettings fresh).run c = some ({ lbs with
      hasChanges := fresh.hasChanges
      cs4237ExtFmPresent := fresh.cs4237ExtFmPresent
      initialized := fresh.initialized }, c) := by
  have hc0 : (0xC0, 1) ∈ lbs.bytes :=
    List.mem_flatten.mpr ⟨[(0xC0,
      1)], by simp only [LlamaBiosSettings.entries, List.mem_cons, true_or],
      List.mem_singleton.mpr rfl⟩
  rw [llamaLoadBiosSettings_initialized h (hs 0xC0 1 hc0), Chip.settings,
    hs.u8 (e := lbs.cpuFreqIndex) (by simp [LlamaBiosSettings.entries]),
    hs.u8 (e := lbs.l1Cache) (by simp [LlamaBiosSettings.entries]),
    hs.u8 (e := lbs.l2Cache) (by simp [LlamaBiosSettings.entries]),
    hs.u8 (e := lbs.bootOrderIndex) (by simp [LlamaBiosSettings.entries]),
    hs.u8 (e := lbs.usbAsFixedDisks) (by simp [LlamaBiosSettings.entries]),
    hs.u8 (e := lbs.com1BaseClockIndex) (by simp [LlamaBiosSettings.entries]),
    hs.u8 (e := lbs.com2BaseClockIndex) (by simp [LlamaBiosSettings.entries]),
    hs.u16 (e := lbs.cs4237WssPort) (by simp [LlamaBiosSettings.entries]),
    hs.u16 (e := lbs.cs4237SynPort) (by simp [LlamaBiosSettings.entries]),
    hs.u16 (e := lbs.cs4237SbPort) (by simp [LlamaBiosSettings.entries]),
    hs.u16 (e := lbs.cs4237GamepadPort) (by simp [LlamaBiosSettings.entries]),
    hs.u16 (e := lbs.cs4237MpuPort) (by simp [LlamaBiosSettings.entries]),
    hs.u8 (e := lbs.cs4237ExtFm) (by simp [LlamaBiosSettings.entries]),
    hs.u8 (e := lbs.cs4237Digital) (by simp [LlamaBiosSettings.entries]),
    hs.u8 (e := lbs.macAddressIndex) (by simp [LlamaBiosSettings.entries]),
    hs.u16 (e := lbs.fan1TargetRpm) (by simp [LlamaBiosSettings.entries]),
    hs.u16 (e := lbs.fan2TargetRpm) (by simp [LlamaBiosSettings.entries]),
    hs.u16 (e := lbs.fan3TargetRpm) (by simp [LlamaBiosSettings.entries]),
    hs.u8 (e := lbs.bootTuneIndex) (by simp [LlamaBiosSettings.entries])]

/-- After a save the flash holds every byte the save assigned. -/
theorem saved_setting {c : Chip} (hk : c.Recognised) (hd : (as.map Prod.fst).Nodup)
    (hm : (k, v) ∈ as) (hlt : k < spiPageSize) :
    Chip.setting { c with cells := c.saved as } k = v := by
  have hcell := hk.saved_settings as hlt
  rw [assignAll_mem _ _ hd hm (by simpa using hlt), Option.some.injEq] at hcell
  rw [hcell, Chip.setting, Chip.cellOf, ← hk.settings_cell hlt, Chip.cellOf]

/-- The persisted fields survive a save and a load into a fresh record, and
the strap and MAC bytes are the selected rows. -/
theorem save_load_roundtrip {c : Chip} (h : c.Idle) (hk : c.Recognised) (hr : lbs.InRange) :
    ∃ c', (llamaSaveBiosSettings lbs).run c = some ((), c') ∧
      (llamaLoadBiosSettings llamaBiosSettingsDefault).run c' = some ({ lbs with
        hasChanges := llamaBiosSettingsDefault.hasChanges
        cs4237ExtFmPresent := llamaBiosSettingsDefault.cs4237ExtFmPresent
        initialized := ⟨1⟩ }, c') ∧
      freqArray[lbs.cpuFreqIndex.value.toNat]? = some (freqOffsets.map c'.setting) ∧
      macAddressArray[lbs.macAddressIndex.value.toNat]? = some (macOffsets.map c'.setting) := by
  obtain ⟨mac, freq, has, hmk, hfk, hmv, hfv⟩ := settingsBytes_some hr
  have hkeys : (mac ++ freq ++ lbs.bytes).map Prod.fst = settingOffsets := by
    rw [List.map_append, List.map_append, hmk, hfk, bytes_offsets, settingOffsets]
  have hstored : ∀ k v, (k, v) ∈ mac ++ freq ++ lbs.bytes →
      Chip.setting { c with cells := c.saved (mac ++ freq ++ lbs.bytes) } k = v := by
    intro k v hm
    refine saved_setting hk (hkeys ▸ settingOffsets_nodup) hm (settingOffsets_lt ?_)
    rw [← hkeys]
    exact List.mem_map_of_mem hm
  have hrow (row : List (Nat × Byte)) (hsub : row ⊆ mac ++ freq ++ lbs.bytes) :
      (row.map Prod.fst).map
        (Chip.setting { c with cells := c.saved (mac ++ freq ++ lbs.bytes) }) =
        row.map Prod.snd := by
    rw [List.map_map]
    exact List.map_congr_left fun x hx => hstored x.1 x.2 (hsub hx)
  refine ⟨_, llamaSaveBiosSettings_run h hk has, ?_, ?_, ?_⟩
  · exact llamaLoadBiosSettings_run (h.withCells _)
      (fun k v hm => hstored k v (List.mem_append_right _ hm)) llamaBiosSettingsDefault
  · rw [hfv, ← hfk, hrow freq fun x hx => by simp [hx]]
  · rw [hmv, ← hmk, hrow mac fun x hx => by simp [hx]]

/-- Another clock, MAC address, boot order, port and fan speed. -/
def tunedSettings : LlamaBiosSettings :=
  { llamaBiosSettingsDefault with
    cpuFreqIndex := ⟨1⟩
    bootOrderIndex := ⟨2⟩
    cs4237WssPort := ⟨0xE80⟩
    macAddressIndex := ⟨2⟩
    fan1TargetRpm := ⟨3000⟩ }

theorem save_load_roundtrip_tuned :
    ∃ c', (llamaSaveBiosSettings tunedSettings).run (uniformChip 0) = some ((), c') ∧
      (llamaLoadBiosSettings llamaBiosSettingsDefault).run c' = some (tunedSettings, c') ∧
      some [0x40, 0x26, 0x23, 0x02, 0x3F, 0x07] = some (freqOffsets.map c'.setting) ∧
      some [0x00, 0x0B, 0xB4, 0x00, 0x00, 0x03] = some (macOffsets.map c'.setting) :=
  save_load_roundtrip (uniformChip_idle _) (uniformChip_recognised _)
    (show tunedSettings.InRange by decide)

end ItxLlama.Llama
