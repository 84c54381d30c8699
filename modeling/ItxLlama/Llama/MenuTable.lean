import ItxLlama.Llama.BiosSettings

/-!
# The entries of the BIOS menu

`llama_bios_menu_handlers.c` and the tables of `llama_bios_menu.c`. A
handler is a function on the settings record; what the LED controller
answers over I2C is an argument of the getters, and writes to it or to the
fan controller leave the record alone.
-/

namespace ItxLlama.Llama

/-- `leds_get_reg_byte`, which answers 0 when the bus does not respond. -/
abbrev LedRegs := Byte → Byte

def ledsLedEnabledReg : Byte := 0x01
def ledsLedIntensityReg : Byte := 0x02
def ledsClickEnabledReg : Byte := 0x11

abbrev GetValue := LedRegs → LlamaBiosSettings → BitVec 16
abbrev SetValue := LlamaBiosSettings → BitVec 16 → LlamaBiosSettings
abbrev GetEnabled := LedRegs → LlamaBiosSettings → Byte

-- ---------------------------------------------------------------------------
-- Handlers
-- ---------------------------------------------------------------------------

def handlerGetCpuFreqIndex : GetValue := fun _ lbs => lbs.cpuFreqIndex.value.setWidth 16
def handlerGetL1Cache : GetValue := fun _ lbs => lbs.l1Cache.value.setWidth 16
def handlerGetL2Cache : GetValue := fun _ lbs => lbs.l2Cache.value.setWidth 16
def handlerGetBootOrderIndex : GetValue := fun _ lbs => lbs.bootOrderIndex.value.setWidth 16
def handlerGetUsbAsFixedDisks : GetValue := fun _ lbs => lbs.usbAsFixedDisks.value.setWidth 16
def handlerGetCom1BaseClockIndex : GetValue := fun _ lbs => lbs.com1BaseClockIndex.value.setWidth 16
def handlerGetCom2BaseClockIndex : GetValue := fun _ lbs => lbs.com2BaseClockIndex.value.setWidth 16
def handlerGetCs4237WssPort : GetValue := fun _ lbs => lbs.cs4237WssPort.value
def handlerGetCs4237SynPort : GetValue := fun _ lbs => lbs.cs4237SynPort.value
def handlerGetCs4237SbPort : GetValue := fun _ lbs => lbs.cs4237SbPort.value
def handlerGetCs4237GamepadPort : GetValue := fun _ lbs => lbs.cs4237GamepadPort.value
def handlerGetCs4237MpuPort : GetValue := fun _ lbs => lbs.cs4237MpuPort.value
def handlerGetCs4237ExtFm : GetValue := fun _ lbs => lbs.cs4237ExtFm.value.setWidth 16
def handlerGetCs4237Digital : GetValue := fun _ lbs => lbs.cs4237Digital.value.setWidth 16
def handlerGetMacAddressIndex : GetValue := fun _ lbs => lbs.macAddressIndex.value.setWidth 16
def handlerGetFan1TargetRpm : GetValue := fun _ lbs => lbs.fan1TargetRpm.value
def handlerGetFan2TargetRpm : GetValue := fun _ lbs => lbs.fan2TargetRpm.value
def handlerGetFan3TargetRpm : GetValue := fun _ lbs => lbs.fan3TargetRpm.value
def handlerGetBootTuneIndex : GetValue := fun _ lbs => lbs.bootTuneIndex.value.setWidth 16
def handlerGetLedsEnabled : GetValue := fun leds _ => (leds ledsLedEnabledReg).setWidth 16
def handlerGetLedsIntensity : GetValue := fun leds _ => (leds ledsLedIntensityReg).setWidth 16
def handlerGetClickEnabled : GetValue := fun leds _ => (leds ledsClickEnabledReg).setWidth 16

/-- `if (val != field) { field = val; has_changes = 1; }` -/
def setField [DecidableEq α] (get : LlamaBiosSettings → α)
    (put : LlamaBiosSettings → α → LlamaBiosSettings) (lbs : LlamaBiosSettings) (val : α) :
    LlamaBiosSettings :=
  if val ≠ get lbs then { put lbs val with hasChanges := 1 } else lbs

/-- The setters of byte settings keep the low byte of the value. -/
def setFieldU8 (get : LlamaBiosSettings → Byte)
    (put : LlamaBiosSettings → Byte → LlamaBiosSettings) : SetValue :=
  fun lbs value => setField get put lbs ((value &&& 0xFF).setWidth 8)

def handlerSetCpuFreqIndex : SetValue :=
  setFieldU8 (·.cpuFreqIndex.value) fun lbs val => { lbs with cpuFreqIndex := ⟨val⟩ }
def handlerSetL1Cache : SetValue :=
  setFieldU8 (·.l1Cache.value) fun lbs val => { lbs with l1Cache := ⟨val⟩ }
def handlerSetL2Cache : SetValue :=
  setFieldU8 (·.l2Cache.value) fun lbs val => { lbs with l2Cache := ⟨val⟩ }
def handlerSetBootOrderIndex : SetValue :=
  setFieldU8 (·.bootOrderIndex.value) fun lbs val => { lbs with bootOrderIndex := ⟨val⟩ }
def handlerSetUsbAsFixedDisks : SetValue :=
  setFieldU8 (·.usbAsFixedDisks.value) fun lbs val => { lbs with usbAsFixedDisks := ⟨val⟩ }
def handlerSetCom1BaseClockIndex : SetValue :=
  setFieldU8 (·.com1BaseClockIndex.value) fun lbs val => { lbs with com1BaseClockIndex := ⟨val⟩ }
def handlerSetCom2BaseClockIndex : SetValue :=
  setFieldU8 (·.com2BaseClockIndex.value) fun lbs val => { lbs with com2BaseClockIndex := ⟨val⟩ }
def handlerSetCs4237WssPort : SetValue :=
  setField (·.cs4237WssPort.value) fun lbs val => { lbs with cs4237WssPort := ⟨val⟩ }
def handlerSetCs4237SynPort : SetValue :=
  setField (·.cs4237SynPort.value) fun lbs val => { lbs with cs4237SynPort := ⟨val⟩ }
def handlerSetCs4237SbPort : SetValue :=
  setField (·.cs4237SbPort.value) fun lbs val => { lbs with cs4237SbPort := ⟨val⟩ }
def handlerSetCs4237GamepadPort : SetValue :=
  setField (·.cs4237GamepadPort.value) fun lbs val => { lbs with cs4237GamepadPort := ⟨val⟩ }
def handlerSetCs4237MpuPort : SetValue :=
  setField (·.cs4237MpuPort.value) fun lbs val => { lbs with cs4237MpuPort := ⟨val⟩ }
def handlerSetCs4237ExtFm : SetValue :=
  setFieldU8 (·.cs4237ExtFm.value) fun lbs val => { lbs with cs4237ExtFm := ⟨val⟩ }
def handlerSetCs4237Digital : SetValue :=
  setFieldU8 (·.cs4237Digital.value) fun lbs val => { lbs with cs4237Digital := ⟨val⟩ }
def handlerSetMacAddressIndex : SetValue :=
  setFieldU8 (·.macAddressIndex.value) fun lbs val => { lbs with macAddressIndex := ⟨val⟩ }
def handlerSetFan1TargetRpm : SetValue :=
  setField (·.fan1TargetRpm.value) fun lbs val => { lbs with fan1TargetRpm := ⟨val⟩ }
def handlerSetFan2TargetRpm : SetValue :=
  setField (·.fan2TargetRpm.value) fun lbs val => { lbs with fan2TargetRpm := ⟨val⟩ }
def handlerSetFan3TargetRpm : SetValue :=
  setField (·.fan3TargetRpm.value) fun lbs val => { lbs with fan3TargetRpm := ⟨val⟩ }
def handlerSetBootTuneIndex : SetValue :=
  setFieldU8 (·.bootTuneIndex.value) fun lbs val => { lbs with bootTuneIndex := ⟨val⟩ }
def handlerSetLedsEnabled : SetValue := fun lbs _ => lbs
def handlerSetLedsIntensity : SetValue := fun lbs _ => lbs
def handlerSetClickEnabled : SetValue := fun lbs _ => lbs

def extFmPresent : GetEnabled := fun _ lbs => lbs.cs4237ExtFmPresent
def ledsEnabled : GetEnabled := fun leds lbs => (handlerGetLedsEnabled leds lbs).setWidth 8

-- ---------------------------------------------------------------------------
-- Entries
-- ---------------------------------------------------------------------------

/-- `none` is a NULL handler. -/
structure SubmenuEntry where
  numChangeEntries : Nat
  changeEntries : List (BitVec 16)
  getSelectionValue : Option GetValue := none
  setSelectionValue : Option SetValue := none
  getInputValue : Option GetValue := none
  setInputValue : Option SetValue := none
  getEnabled : Option GetEnabled := none
  counted : changeEntries.length = numChangeEntries := by rfl

/-- An entry of the main menu is edited either in the input popup or in a
selection popup with at least one line. -/
def SubmenuEntry.Editable (e : SubmenuEntry) : Prop :=
  (e.getInputValue.isSome ∧ e.setInputValue.isSome) ∨
    (e.getInputValue.isNone ∧ e.getSelectionValue.isSome ∧ e.setSelectionValue.isSome ∧
      0 < e.numChangeEntries)

instance (e : SubmenuEntry) : Decidable e.Editable :=
  inferInstanceAs (Decidable (_ ∨ _))

structure MainMenuEntry where
  numSubmenus : Nat
  submenus : List SubmenuEntry
  counted : submenus.length = numSubmenus := by rfl
  nonempty : 0 < numSubmenus := by decide
  editable : ∀ e ∈ submenus, e.Editable := by decide

/-- The tables the menu runs over. The first entry of a submenu, where its
selection starts, is always enabled. -/
class MenuTable where
  entries : List MainMenuEntry
  numEntries : Nat
  quitEntry : SubmenuEntry
  counted : entries.length = numEntries
  nonempty : 0 < numEntries
  quitNonempty : 0 < quitEntry.numChangeEntries
  firstEnabled : ∀ menu ∈ entries, ∀ e ∈ menu.submenus.head?, ∀ enabled ∈ e.getEnabled,
    ∀ leds lbs, enabled leds lbs ≠ 0

def selection (num : Nat) (values : List (BitVec 16)) (get : GetValue) (set : SetValue)
    (counted : values.length = num := by rfl) : SubmenuEntry where
  numChangeEntries := num
  changeEntries := values
  getSelectionValue := some get
  setSelectionValue := some set
  counted := counted

def numberInput (get : GetValue) (set : SetValue) : SubmenuEntry where
  numChangeEntries := 0
  changeEntries := []
  getInputValue := some get
  setInputValue := some set

def quitMenuEntry : SubmenuEntry where
  numChangeEntries := 2
  changeEntries := [1, 0]

def numMainMenuEntries : Nat := 7

def mainMenuEntries : List MainMenuEntry :=
  [ -- CPU settings: frequency, L1 cache, L2 cache
    { numSubmenus := 3
      submenus :=
        [ selection 6 [0, 1, 2, 3, 4, 5] handlerGetCpuFreqIndex handlerSetCpuFreqIndex,
          selection 2 [1, 0] handlerGetL1Cache handlerSetL1Cache,
          selection 2 [1, 0] handlerGetL2Cache handlerSetL2Cache ] },
    -- disk settings: boot order, USB as fixed disks
    { numSubmenus := 2
      submenus :=
        [ selection 6 [0, 1, 2, 3, 4, 5] handlerGetBootOrderIndex handlerSetBootOrderIndex,
          selection 2 [1, 0] handlerGetUsbAsFixedDisks handlerSetUsbAsFixedDisks ] },
    -- COM settings: base clocks
    { numSubmenus := 2
      submenus :=
        [ selection 3 [0, 1, 2] handlerGetCom1BaseClockIndex handlerSetCom1BaseClockIndex,
          selection 3 [0, 1, 2] handlerGetCom2BaseClockIndex handlerSetCom2BaseClockIndex ] },
    -- audio settings: the ports, external FM, digital output
    { numSubmenus := 7
      submenus :=
        [ selection 3 [0x534, 0x540, 0x604] handlerGetCs4237WssPort handlerSetCs4237WssPort,
          selection 2 [0x388, 0x3F8] handlerGetCs4237SynPort handlerSetCs4237SynPort,
          selection 2 [0x220, 0x240] handlerGetCs4237SbPort handlerSetCs4237SbPort,
          selection 2 [0x200, 0x208] handlerGetCs4237GamepadPort handlerSetCs4237GamepadPort,
          selection 2 [0x330, 0x300] handlerGetCs4237MpuPort handlerSetCs4237MpuPort,
          { selection 2 [1, 0] handlerGetCs4237ExtFm handlerSetCs4237ExtFm with
            getEnabled := some extFmPresent },
          selection 2 [1, 0] handlerGetCs4237Digital handlerSetCs4237Digital ] },
    -- ethernet settings: MAC address
    { numSubmenus := 1
      submenus :=
        [ selection 6 [0, 1, 2, 3, 4, 5] handlerGetMacAddressIndex handlerSetMacAddressIndex ] },
    -- fan control: the target speeds
    { numSubmenus := 3
      submenus :=
        [ numberInput handlerGetFan1TargetRpm handlerSetFan1TargetRpm,
          numberInput handlerGetFan2TargetRpm handlerSetFan2TargetRpm,
          numberInput handlerGetFan3TargetRpm handlerSetFan3TargetRpm ] },
    -- misc settings: boot tune, LEDs, LED intensity, click
    { numSubmenus := 4
      submenus :=
        [ selection 3 [0, 1, 2] handlerGetBootTuneIndex handlerSetBootTuneIndex,
          selection 2 [1, 0] handlerGetLedsEnabled handlerSetLedsEnabled,
          { selection 6 [13, 26, 64, 128, 191, 254] handlerGetLedsIntensity
              handlerSetLedsIntensity with
            getEnabled := some ledsEnabled },
          selection 2 [1, 0] handlerGetClickEnabled handlerSetClickEnabled ] } ]

/-- The tables of the source. -/
instance : MenuTable where
  entries := mainMenuEntries
  numEntries := numMainMenuEntries
  quitEntry := quitMenuEntry
  counted := rfl
  nonempty := by decide
  quitNonempty := by decide
  firstEnabled := by simp [mainMenuEntries, selection, numberInput]

-- ---------------------------------------------------------------------------
-- Setters and the changed flag
-- ---------------------------------------------------------------------------

/-- A setter leaves the record alone or raises the flag. -/
def SetValue.Flags (set : SetValue) : Prop :=
  ∀ lbs value, set lbs value = lbs ∨ (set lbs value).hasChanges = 1

theorem setField_flags [DecidableEq α] (get : LlamaBiosSettings → α)
    (put : LlamaBiosSettings → α → LlamaBiosSettings) (lbs : LlamaBiosSettings) (val : α) :
    setField get put lbs val = lbs ∨ (setField get put lbs val).hasChanges = 1 := by
  unfold setField
  split
  · exact .inr rfl
  · exact .inl rfl

theorem setFieldU8_flags (get : LlamaBiosSettings → Byte)
    (put : LlamaBiosSettings → Byte → LlamaBiosSettings) : (setFieldU8 get put).Flags :=
  fun lbs _ => setField_flags get put lbs _

theorem setFieldU16_flags (get : LlamaBiosSettings → BitVec 16)
    (put : LlamaBiosSettings → BitVec 16 → LlamaBiosSettings) :
    SetValue.Flags (setField get put) :=
  fun lbs value => setField_flags get put lbs value

end ItxLlama.Llama
