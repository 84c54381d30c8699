import ItxLlama.Llama.Emc2303
import ItxLlama.Llama.NumberField

/-!
# Fan display

The status and speed getters of `llama_emc2303.c` and `draw_fan_rpms` of
`llama_bios_menu_ui.c`. `regs` is the outcome of the transfers that read the
registers: a value, or `none` for a transfer that fails.
-/

namespace ItxLlama.Llama

section Source

variable (regs : Byte → Option Byte)

/-- `emc_get_reg_byte`: a failure reads as 0. -/
def emcRegValue (reg : Byte) : Byte := (regs reg).getD 0

structure FanTach where
  tachHigh : Byte
  tachLow : Byte
  deriving DecidableEq, Repr

def emc2303Tach1 : FanTach := ⟨0x3E, 0x3F⟩
def emc2303Tach2 : FanTach := ⟨0x4E, 0x4F⟩
def emc2303Tach3 : FanTach := ⟨0x5E, 0x5F⟩

def FanTach.rpm (f : FanTach) : Option (BitVec 16) :=
  getRpm (emcRegValue regs f.tachHigh) (emcRegValue regs f.tachLow)

def llamaGetFan1TachRpm : Option (BitVec 16) := emc2303Tach1.rpm regs
def llamaGetFan2TachRpm : Option (BitVec 16) := emc2303Tach2.rpm regs
def llamaGetFan3TachRpm : Option (BitVec 16) := emc2303Tach3.rpm regs

structure FanStatuses where
  fan1 : Byte
  fan2 : Byte
  fan3 : Byte
  deriving DecidableEq, Repr

/-- bit 0 = stall, bit 1 = spin-up failure, bit 2 = drive fail -/
def llamaGetFanStatuses : FanStatuses :=
  let stall := emcRegValue regs 0x25
  let spin := emcRegValue regs 0x26
  let fail := emcRegValue regs 0x27
  { fan1 := (stall &&& 0x01) ||| ((spin &&& 0x01) <<< 1) ||| ((fail &&& 0x01) <<< 2)
    fan2 := ((stall &&& 0x02) >>> 1) ||| (spin &&& 0x02) ||| ((fail &&& 0x02) <<< 1)
    fan3 := ((stall &&& 0x04) >>> 2) ||| ((spin &&& 0x04) >>> 1) ||| (fail &&& 0x04) }

/-- What stands behind the label of a fan. -/
inductive FanText where
  | off
  | rpm (value : BitVec 16) (text : List Byte)
  deriving DecidableEq, Repr

/-- One fan; `none` is a division by zero. -/
def drawFanRpm (status : Byte) (tachRpm : Option (BitVec 16)) : Option FanText :=
  if status &&& 0x07 ≠ 0 then some .off
  else tachRpm.map fun value => .rpm value (u16ToString value 4)

/-- The fans one after the other. -/
def drawFans : List (Byte × FanTach) → Option (List FanText)
  | [] => some []
  | (status, tach) :: fans =>
    (drawFanRpm status (tach.rpm regs)).bind fun text => (drawFans fans).map (text :: ·)

def fanLines : List (Byte × FanTach) :=
  let statuses := llamaGetFanStatuses regs
  [ (statuses.fan1, emc2303Tach1), (statuses.fan2, emc2303Tach2), (statuses.fan3, emc2303Tach3) ]

/-- `due` is `timer_check(last_rpm_draw)`. -/
def drawFanRpms (reset due : Bool) : Option (List FanText) :=
  if reset then some []
  else if !due then some []
  else drawFans regs (fanLines regs)

end Source

/-- The number has at most the four digits that the buffer has room for. -/
def FanText.Fits : FanText → Prop
  | .off => True
  | .rpm value _ => numDigits value ≤ 4

/-- A fan that shows OFF, or whose tach count is not 0 and stands for four
digits at most. -/
def FanGuarded (status tachHigh tachLow : Byte) : Prop :=
  status &&& 0x07 ≠ 0 ∨
    (tachCount tachHigh tachLow ≠ 0 ∧ 3932160 / tachCount tachHigh tachLow % 65536 ≤ 9999)

theorem drawFanRpm_fits (status tachHigh tachLow : Byte) :
    (∃ text, drawFanRpm status (getRpm tachHigh tachLow) = some text ∧ text.Fits) ↔
      FanGuarded status tachHigh tachLow := by
  unfold drawFanRpm FanGuarded
  by_cases hstatus : status &&& 0x07 ≠ 0
  · rw [if_pos hstatus]
    exact iff_of_true ⟨_, rfl, trivial⟩ (.inl hstatus)
  · rw [if_neg hstatus, or_iff_right hstatus, getRpm]
    by_cases hcount : tachCount tachHigh tachLow = 0
    · rw [if_pos hcount]
      exact iff_of_false (by simp) fun h => h.1 hcount
    · rw [if_neg hcount, and_iff_right hcount]
      have hdigits : numDigits (BitVec.ofNat 16 (3932160 / tachCount tachHigh tachLow)) ≤ 4 ↔
          3932160 / tachCount tachHigh tachLow % 65536 < 10 ^ 4 := by
        rw [numDigits_eq, BitVec.toNat_ofNat]
        exact digitCount_le_iff (by decide)
      rw [Option.map_some]
      constructor
      · rintro ⟨text, htext, hfits⟩
        obtain rfl := Option.some.inj htext
        exact Nat.le_of_lt_succ (hdigits.mp hfits)
      · exact fun h => ⟨_, rfl, hdigits.mpr (Nat.lt_succ_of_le h)⟩

/-- The condition of a fan on what its registers read as. -/
def FanTach.Guarded (regs : Byte → Option Byte) (status : Byte) (f : FanTach) : Prop :=
  FanGuarded status (emcRegValue regs f.tachHigh) (emcRegValue regs f.tachLow)

theorem drawFans_fits (regs : Byte → Option Byte) (fans : List (Byte × FanTach)) :
    (∃ texts, drawFans regs fans = some texts ∧ ∀ text ∈ texts, text.Fits) ↔
      ∀ fan ∈ fans, fan.2.Guarded regs fan.1 := by
  induction fans with
  | nil => exact iff_of_true ⟨[], rfl, nofun⟩ nofun
  | cons fan fans ih =>
    obtain ⟨status, tach⟩ := fan
    have hfan := drawFanRpm_fits status (emcRegValue regs tach.tachHigh)
      (emcRegValue regs tach.tachLow)
    rw [List.forall_mem_cons]
    constructor
    · rintro ⟨texts, hdraw, hfits⟩
      obtain ⟨text, hone, hrest⟩ := Option.bind_eq_some_iff.mp hdraw
      obtain ⟨rest, hdraw', rfl⟩ := Option.map_eq_some_iff.mp hrest
      obtain ⟨htext, hfits⟩ := List.forall_mem_cons.mp hfits
      exact ⟨hfan.mp ⟨text, hone, htext⟩, ih.mp ⟨rest, hdraw', hfits⟩⟩
    · rintro ⟨hguard, hrest⟩
      obtain ⟨text, hone, htext⟩ := hfan.mpr hguard
      obtain ⟨rest, hdraw', hfits⟩ := ih.mpr hrest
      refine ⟨text :: rest, ?_, List.forall_mem_cons.mpr ⟨htext, hfits⟩⟩
      exact Option.bind_eq_some_iff.mpr
        ⟨text, hone, Option.map_eq_some_iff.mpr ⟨rest, hdraw', rfl⟩⟩

/-- Drawing divides by no zero and shows numbers that fit exactly when each fan
is guarded. -/
theorem drawFanRpms_iff (regs : Byte → Option Byte) (reset due : Bool) :
    (∃ texts, drawFanRpms regs reset due = some texts ∧ ∀ text ∈ texts, text.Fits) ↔
      (reset = false → due = true → ∀ fan ∈ fanLines regs, fan.2.Guarded regs fan.1) := by
  cases reset with
  | true => exact iff_of_true ⟨[], rfl, nofun⟩ nofun
  | false =>
    cases due with
    | false => exact iff_of_true ⟨[], rfl, nofun⟩ nofun
    | true => exact (drawFans_fits regs (fanLines regs)).trans ⟨fun h _ _ => h, fun h => h rfl rfl⟩

/-- Where every transfer fails, the status reads as good and the count as 0. A
count of 100 stands for five digits. -/
theorem drawFanRpms_unguarded :
    drawFanRpms (fun _ => none) false true = none ∧
      (emc2303Tach1.rpm fun reg => if reg = 0x3E then some 0x03 else some 0x20) = some 39321 := by
  decide

end ItxLlama.Llama
