import ItxLlama.Llama.MenuRuns
import ItxLlama.Seabios.BootPriority

/-!
# The indexes in the settings

One boot from the settings page on: the load, the boot order it selects and
the menu with its saves. The menu only ever sets an index to a line of its
table, so the accesses are in bounds for any keys exactly when the page
holds indexes that are.
-/

namespace ItxLlama.Llama

open Lib.Nor
open ItxLlama.Seabios.Boot

-- ---------------------------------------------------------------------------
-- Saves
-- ---------------------------------------------------------------------------

/-- A save goes past the check of the device id. -/
def Chip.Known (c : Chip) : Prop := (getFlashInfo c.deviceId).isSome

instance (c : Chip) : Decidable c.Known := inferInstanceAs (Decidable (_ = true))

section
variable {c : Chip}

theorem writeBytes_some (h : c.Idle) (is : List Nat) (hr : ∀ i ∈ is, base + i < 2 ^ 24)
    (buf : List Byte) : ∃ m, (forM is fun i => spiFlashWriteByte (base + i) (buf.getD i 0)).run c =
      some ((), { c with cells := m }) := by
  induction is generalizing c with
  | nil => exact ⟨c.cells, rfl⟩
  | cons i is ih =>
    have hwrite := spiFlashWriteByte_run h (hr i (by simp)) (buf.getD i 0)
    obtain ⟨m, hm⟩ := ih (h.withCells (program c.cells (c.cellOf (base + i)) (buf.getD i 0)))
      fun j hj => hr j (List.mem_cons_of_mem _ hj)
    exact ⟨m, by rw [List.forM_cons, bind_run hwrite, hm]⟩

theorem writePage_some (h : c.Idle) (base : Nat) (hr : base + spiPageSize ≤ 2 ^ 24)
    (buf : List Byte) : ∃ m, (writePage base buf).run c = some ((), { c with cells := m }) :=
  writeBytes_some h _ (fun i hi => by have := List.mem_range.mp hi; omega) buf

/-- Past the check a save is defined if the assignments are, whatever the
size of the array. -/
theorem llamaSaveBiosSettings_known (h : c.Idle) (hk : c.Known) (lbs : LlamaBiosSettings) :
    ((llamaSaveBiosSettings lbs).run c = none ∧ settingsBytes lbs = none) ∨
      ∃ m as, (llamaSaveBiosSettings lbs).run c = some ((), { c with cells := m }) ∧
        settingsBytes lbs = some as := by
  have hcrossbar := readPage_run h (show spiCrossbarOffset + spiPageSize ≤ 2 ^ 24 by decide)
  have hpage := readPage_run h (show spiBiosSettingsOffset + spiPageSize ≤ 2 ^ 24 by decide)
  unfold llamaSaveBiosSettings
  rw [bind_run (getSpiFlashInfo_found h hk), if_neg Nat.one_ne_zero, bind_run hcrossbar,
    bind_run hpage]
  cases settingsBytes lbs with
  | none => exact .inl ⟨rfl, rfl⟩
  | some as =>
    have herase := spiFlashEraseSector_run h (show spiSectorOffset < 2 ^ 24 by decide)
    have herased := h.withCells (eraseBlock c.cells spiSectorSize (c.cellOf spiSectorOffset))
    obtain ⟨m₁, hfirst⟩ := writePage_some herased spiCrossbarOffset (by decide)
      ((List.range spiPageSize).map fun i => c.cells (c.cellOf (spiCrossbarOffset + i)))
    obtain ⟨m₂, hsecond⟩ := writePage_some (h.withCells m₁) spiBiosSettingsOffset
      (by decide) (assignAll ((List.range spiPageSize).map fun i =>
        c.cells (c.cellOf (spiBiosSettingsOffset + i))) as)
    refine .inr ⟨m₂, as, ?_, rfl⟩
    rw [lift_some_bind, bind_run herase, bind_run hfirst]
    exact hsecond

theorem settingsBytes_none (h : ¬ LlamaBiosSettings.InRange lbs) : settingsBytes lbs = none := by
  unfold settingsBytes tableBytes
  by_cases hmac : lbs.macAddressIndex.value.toNat < macAddressArray.length
  · have hcpu : ¬ lbs.cpuFreqIndex.value.toNat < freqArray.length := fun hcpu => h ⟨hcpu, hmac⟩
    rw [List.getElem?_eq_none (Nat.le_of_not_lt hcpu)]
    cases macAddressArray[lbs.macAddressIndex.value.toNat]? <;> rfl
  · rw [List.getElem?_eq_none (Nat.le_of_not_lt hmac)]
    rfl

/-- The indexes that a save reads are in their tables, if it reads them. -/
def SaveSafe (c : Chip) (lbs : LlamaBiosSettings) : Prop := c.Known → lbs.InRange

theorem llamaSaveBiosSettings_some (h : c.Idle) (hs : SaveSafe c lbs) :
    ∃ m, (llamaSaveBiosSettings lbs).run c = some ((), { c with cells := m }) := by
  by_cases hk : c.Known
  · rcases llamaSaveBiosSettings_known h hk lbs with ⟨-, hnone⟩ | ⟨m, -, hrun, -⟩
    · obtain ⟨mac, freq, has, -⟩ := settingsBytes_some (hs hk)
      cases hnone.symm.trans has
    · exact ⟨m, hrun⟩
  · unfold llamaSaveBiosSettings
    exact ⟨c.cells, by rw [bind_run (getSpiFlashInfo_unknown h hk), if_pos rfl]; rfl⟩

theorem llamaSaveBiosSettings_none (h : c.Idle) (hs : ¬ SaveSafe c lbs) :
    (llamaSaveBiosSettings lbs).run c = none := by
  obtain ⟨hk, hr⟩ := Classical.not_imp.mp hs
  rcases llamaSaveBiosSettings_known h hk lbs with ⟨hnone, -⟩ | ⟨m, as, -, has⟩
  · exact hnone
  · cases has.symm.trans (settingsBytes_none hr)

end

-- ---------------------------------------------------------------------------
-- The menu
-- ---------------------------------------------------------------------------

/-- A setter that leaves both indexes of a save alone. -/
def SetValue.LeavesIndexes (set : SetValue) : Prop :=
  ∀ lbs value, (set lbs value).cpuFreqIndex = lbs.cpuFreqIndex ∧
    (set lbs value).macAddressIndex = lbs.macAddressIndex

section
variable {set : SetValue} (h : set.LeavesIndexes)
include h

theorem SetValue.LeavesIndexes.keeps (value : BitVec 16) (lbs : LlamaBiosSettings)
    (hr : lbs.InRange) : (set lbs value).InRange := by
  obtain ⟨hcpu, hmac⟩ := h lbs value
  rw [LlamaBiosSettings.InRange, hcpu, hmac]
  exact hr

theorem SetValue.LeavesIndexes.selection {get : GetValue} {hc : values.length = num} :
    (selection num values get set hc).Keeps LlamaBiosSettings.InRange :=
  selection_keeps fun value _ => h.keeps value

theorem SetValue.LeavesIndexes.numberInput {get : GetValue} :
    (numberInput get set).Keeps LlamaBiosSettings.InRange :=
  numberInput_keeps h.keeps

end

theorem setField_leaves [DecidableEq α] {get : LlamaBiosSettings → α}
    {put : LlamaBiosSettings → α → LlamaBiosSettings}
    (hput : ∀ lbs val, (put lbs val).cpuFreqIndex = lbs.cpuFreqIndex ∧
      (put lbs val).macAddressIndex = lbs.macAddressIndex) (lbs : LlamaBiosSettings) (val : α) :
    (setField get put lbs val).cpuFreqIndex = lbs.cpuFreqIndex ∧
      (setField get put lbs val).macAddressIndex = lbs.macAddressIndex := by
  unfold setField
  split
  · exact hput lbs val
  · exact ⟨rfl, rfl⟩

theorem setField_value [DecidableEq α] (get : LlamaBiosSettings → α)
    (put : LlamaBiosSettings → α → LlamaBiosSettings) (lbs : LlamaBiosSettings) (val : α) :
    setField get put lbs val = { put lbs val with hasChanges := 1 } ∨
      setField get put lbs val = lbs := by
  unfold setField
  split
  · exact .inl rfl
  · exact .inr rfl

theorem sixLines_lt {value : BitVec 16} (hv : value ∈ [0, 1, 2, 3, 4, 5]) :
    ((value &&& 0xFF).setWidth 8 : Byte).toNat < 6 := by
  simp only [List.mem_cons, List.not_mem_nil, or_false] at hv
  rcases hv with rfl | rfl | rfl | rfl | rfl | rfl <;> decide

theorem cpuFreqIndex_keeps {get : GetValue} :
    (selection 6 [0, 1, 2, 3, 4, 5] get handlerSetCpuFreqIndex).Keeps
      LlamaBiosSettings.InRange := by
  refine selection_keeps fun value hv lbs hr => ?_
  rcases setField_value (·.cpuFreqIndex.value) (fun lbs val => { lbs with cpuFreqIndex := ⟨val⟩ }) lbs
    _ with h | h
  · rw [handlerSetCpuFreqIndex, setFieldU8, h]
    exact ⟨sixLines_lt hv, hr.2⟩
  · rw [handlerSetCpuFreqIndex, setFieldU8, h]
    exact hr

theorem macAddressIndex_keeps {get : GetValue} :
    (selection 6 [0, 1, 2, 3, 4, 5] get handlerSetMacAddressIndex).Keeps
      LlamaBiosSettings.InRange := by
  refine selection_keeps fun value hv lbs hr => ?_
  rcases setField_value (·.macAddressIndex.value)
    (fun lbs val => { lbs with macAddressIndex := ⟨val⟩ }) lbs
    _ with h | h
  · rw [handlerSetMacAddressIndex, setFieldU8, h]
    exact ⟨hr.1, sixLines_lt hv⟩
  · rw [handlerSetMacAddressIndex, setFieldU8, h]
    exact hr

theorem menuEntries_inRange : ∀ e ∈ menuEntries, e.Keeps LlamaBiosSettings.InRange := by
  have u8 {get put} (hput : ∀ lbs val, (put lbs val).cpuFreqIndex = lbs.cpuFreqIndex ∧
      (put lbs val).macAddressIndex = lbs.macAddressIndex) :
      SetValue.LeavesIndexes (setFieldU8 get put) := fun lbs _ => setField_leaves hput lbs _
  have u16 {get put} (hput : ∀ lbs val, (put lbs val).cpuFreqIndex = lbs.cpuFreqIndex ∧
      (put lbs val).macAddressIndex = lbs.macAddressIndex) :
      SetValue.LeavesIndexes (setField get put) := fun lbs _ => setField_leaves hput lbs _
  have setNothing : SetValue.LeavesIndexes fun lbs _ => lbs := fun _ _ => ⟨rfl, rfl⟩
  simp only [menuEntries_eq, mainMenuEntries, List.flatMap_cons, List.flatMap_nil, List.cons_append,
    List.nil_append, List.append_nil, List.forall_mem_cons, List.not_mem_nil]
  refine ⟨cpuFreqIndex_keeps, (u8 ?_).selection, (u8 ?_).selection,
    (u8 ?_).selection, (u8 ?_).selection,
    (u8 ?_).selection, (u8 ?_).selection,
    (u16 ?_).selection, (u16 ?_).selection, (u16 ?_).selection, (u16 ?_).selection,
    (u16 ?_).selection, ((u8 ?_).selection).enabled _, (u8 ?_).selection,
    macAddressIndex_keeps,
    (u16 ?_).numberInput, (u16 ?_).numberInput, (u16 ?_).numberInput,
    (u8 ?_).selection, setNothing.selection, setNothing.selection.enabled _,
    setNothing.selection, fun _ hnil => hnil.elim⟩
  all_goals exact fun _ _ => ⟨rfl, rfl⟩

theorem SubmenuEntry.Keeps.imp {P : LlamaBiosSettings → Prop} {e : SubmenuEntry} (h : e.Keeps P)
    (q : Prop) : e.Keeps fun lbs => q → P lbs :=
  ⟨fun set hset value hv lbs hl hq => h.selection set hset value hv lbs (hl hq),
    fun set hset value lbs hl hq => h.input set hset value lbs (hl hq)⟩

theorem menuEntries_saveSafe (c : Chip) : ∀ e ∈ menuEntries, e.Keeps (SaveSafe c) :=
  fun e he => (menuEntries_inRange e he).imp c.Known

section
variable {c : Chip} {s : Menu} (hc : c.Idle) (h : s.Ok) (hs : SaveSafe c s.lbs)
include hc h hs

theorem handleKey_some (p : KeyPress) :
    ∃ s' m, (handleKey p s).run c = some (s', { c with cells := m }) ∧ s'.Ok ∧
      SaveSafe c s'.lbs := by
  rcases handleKey_cases h p with ⟨s', hok, hedit, hstay⟩ | hsave
  · exact ⟨s', c.cells, hstay c, hok, hedit.keeps (menuEntries_saveSafe c) hs⟩
  · obtain ⟨m, hm⟩ := llamaSaveBiosSettings_some hc hs
    exact ⟨s.reboot, m, by rw [hsave, saveAndReboot, bind_run hm]; rfl, h.reboot, hs⟩

/-- No key of a run reads outside a table; the chip is left idle. -/
theorem menuRun_some (ps : List KeyPress) :
    ∃ s' m, (menuRun s ps).run c = some (s', { c with cells := m }) := by
  induction ps generalizing c s with
  | nil => exact ⟨s, c.cells, rfl⟩
  | cons p ps ih =>
    obtain ⟨s₁, m₁, hkey, hok, hs₁⟩ := handleKey_some hc h hs p
    obtain ⟨s₂, m₂, hrest⟩ := ih (hc.withCells m₁) hok hs₁
    exact ⟨s₂, m₂, by rw [menuRun, bind_run ((menuStep_run h p c).trans hkey), hrest]⟩

end

/-- The keystroke that saves from the main menu. -/
def f10Key : KeyPress := ⟨0x4400, fun _ => 0⟩

theorem f10Key_saves (lbs : LlamaBiosSettings) (leds : LedRegs) (c : Chip)
    (hsave : (llamaSaveBiosSettings lbs).run c = none) :
    (llamaBiosMenu lbs leds [f10Key]).run c = none := by
  have hkey : handleKey f10Key { lbs } = saveAndReboot { lbs } := rfl
  rw [llamaBiosMenu_run, menuRun, StateT.run_bind, menuStep_run (Menu.Ok.initial lbs), hkey,
    saveAndReboot, StateT.run_bind, hsave]
  rfl

-- ---------------------------------------------------------------------------
-- A boot
-- ---------------------------------------------------------------------------

/-- `boot_init`, the part of `llama_boot` that writes the record, and the
menu; `extFm` is the answer of the OPL3 test. -/
def bootSettings (heap : HeapAnswers) (extFm : Byte) (leds : LedRegs) (ps : List KeyPress) :
    Spi (BootOrder × Menu) := do
  let lbs ← llamaLoadBiosSettings llamaBiosSettingsDefault
  let order ← StateT.lift (loadBootOrder lbs.bootOrderIndex.value heap)
  let s ← llamaBiosMenu { lbs with cs4237ExtFmPresent := extFm } leds ps
  pure (order, s)

/-- Whatever the keys, no access is outside a table, and the boot order is
one of the defined ones with every pointer written. The text of the boot
order has been allocated. -/
def IndexesInBounds (c : Chip) : Prop :=
  ∀ (heap : HeapAnswers) (extFm : Byte) (leds : LedRegs) (ps : List KeyPress), heap.f →
    ∃ o s c', (bootSettings heap extFm leds ps).run c = some ((o, s), c') ∧ o.Filled ∧
      (heap.bootorder → ∃ order ∈ bootOrders, o = orderArray order)

/-- An initialized page holds the indexes of a boot order and, on a chip that
saves, of a frequency and a MAC address. -/
def Chip.IndexesStored (c : Chip) : Prop :=
  c.setting 0xC0 = 1 → (c.setting 0xC4).toNat < bootOrders.length ∧
    (c.Known → (c.setting 0xC1).toNat < freqArray.length ∧
      (c.setting 0xD4).toNat < macAddressArray.length)

instance (c : Chip) : Decidable c.IndexesStored := inferInstanceAs (Decidable (_ → _))

section
variable {c : Chip}

theorem Chip.Idle.load (h : c.Idle) : ∃ lbs,
    (llamaLoadBiosSettings llamaBiosSettingsDefault).run c = some (lbs, c) ∧
      (c.IndexesStored ↔ lbs.bootOrderIndex.value.toNat < bootOrders.length ∧ SaveSafe c lbs) := by
  by_cases hinit : c.setting 0xC0 = 1
  · refine ⟨_, llamaLoadBiosSettings_initialized h hinit _, ?_⟩
    rw [Chip.IndexesStored, imp_iff_right hinit]
    rfl
  · refine ⟨_, llamaLoadBiosSettings_blank h hinit _, ?_⟩
    refine iff_of_true (fun h => absurd h hinit) ⟨by decide, fun _ => by decide⟩

theorem loadBootOrder_none (hi : ¬ index.toNat < bootOrders.length) (heap : HeapAnswers) :
    loadBootOrder index heap = none := by
  have htext : bootOrderText index = none := by
    have hlen : bootOrders.length = 6 := rfl
    unfold bootOrderText
    split <;> first | omega | rfl
  rw [loadBootOrder, htext]
  cases heap.f <;> rfl

theorem IndexesInBounds.stored (h : c.Idle) (hbounds : IndexesInBounds c) : c.IndexesStored := by
  obtain ⟨lbs, hload, hstored⟩ := h.load
  rw [hstored]
  refine ⟨?_, ?_⟩
  · by_contra hi
    obtain ⟨o, s, c', hrun, -⟩ := hbounds ⟨true, true⟩ 0 (fun _ => 0) [] rfl
    rw [bootSettings, bind_run hload, loadBootOrder_none hi] at hrun
    cases hrun
  · by_contra hs
    obtain ⟨o, s, c', hrun, -⟩ := hbounds ⟨true, true⟩ 0 (fun _ => 0) [f10Key] rfl
    rw [bootSettings, bind_run hload] at hrun
    cases horder : loadBootOrder lbs.bootOrderIndex.value ⟨true, true⟩ with
    | none =>
      rw [horder] at hrun
      cases hrun
    | some order =>
      have hmenu := f10Key_saves { lbs with cs4237ExtFmPresent := 0 } (fun _ => 0) c
        (llamaSaveBiosSettings_none h hs)
      rw [horder, lift_some_bind, StateT.run_bind, hmenu] at hrun
      cases hrun

theorem Chip.IndexesStored.inBounds (hstored : c.IndexesStored) (h : c.Idle) :
    IndexesInBounds c := by
  obtain ⟨lbs, hload, hiff⟩ := h.load
  obtain ⟨hi, hs⟩ := hiff.mp hstored
  intro heap extFm leds ps hf
  have hbooted := loadBootOrder_entries (List.getElem?_eq_getElem hi) hf
  obtain ⟨s, m, hmenu⟩ := menuRun_some h (Menu.Ok.initial { lbs with cs4237ExtFmPresent := extFm })
    hs ps
  refine ⟨_, s, { c with cells := m }, ?_, loadBootOrder_filled hbooted, fun harray => ?_⟩
  · rw [bootSettings, bind_run hload, hbooted, lift_some_bind, llamaBiosMenu_run, bind_run hmenu]
    rfl
  · rw [if_pos harray]
    exact ⟨_, List.getElem_mem hi, rfl⟩

/-- The accesses of a boot are in bounds for every sequence of keys exactly
when the stored indexes are. -/
theorem indexes_in_bounds_iff (h : c.Idle) : IndexesInBounds c ↔ c.IndexesStored :=
  ⟨IndexesInBounds.stored h, fun hstored => hstored.inBounds h⟩

end

theorem indexes_in_bounds_blankChip : IndexesInBounds (uniformChip 0xFF) :=
  (indexes_in_bounds_iff (uniformChip_idle _)).mpr (by decide)

/-- An initialized page with every other byte set to ones. -/
def onesChip : Chip :=
  { uniformChip 0xFF with
    cells := fun a => if a = spiBiosSettingsOffset + 0xC0 then 1 else 0xFF }

theorem indexes_out_of_bounds_onesChip : ¬ IndexesInBounds onesChip := fun hbounds =>
  absurd (hbounds.stored ⟨rfl, rfl, rfl, rfl⟩) (by decide)

end ItxLlama.Llama
