import ItxLlama.Llama.I2cFraming
import Mathlib.Logic.Function.Basic
import Mathlib.Tactic.Ring

/-!
# EMC2303 fan controller

Target speeds of `llama_emc2303.c`. A register holds what the last
acknowledged transfer wrote; whether the chip has taken the byte of a transfer
that failed is up to `FanBus`.
-/

namespace ItxLlama.Llama

-- ---------------------------------------------------------------------------
-- Speeds and tach counts
-- ---------------------------------------------------------------------------

/-- The 13-bit count in a pair of registers. -/
def tachCount (tachHigh tachLow : Byte) : Nat := (tachHigh.toNat * 256 + tachLow.toNat) / 8

/-- `none` is a division by zero. -/
def getRpm (tachHigh tachLow : Byte) : Option (BitVec 16) :=
  if tachCount tachHigh tachLow = 0 then none
  else some (BitVec.ofNat 16 (3932160 / tachCount tachHigh tachLow))

/-- The high and the low byte. -/
def getRegsFromRpm (rpm : BitVec 16) : Byte × Byte :=
  let regs : BitVec 16 := if rpm = 0 then 0xffff else BitVec.ofNat 16 ((3932160 / rpm.toNat) <<< 3)
  ((regs >>> 8).setWidth 8, regs.setWidth 8)

-- ---------------------------------------------------------------------------
-- Programming
-- ---------------------------------------------------------------------------

structure FanRegs where
  step : Byte
  minDrive : Byte
  spinup : Byte
  targetTachLow : Byte
  targetTachHigh : Byte
  conf2 : Byte
  conf : Byte
  deriving DecidableEq, Repr

def emc2303Fan1 : FanRegs := ⟨0x37, 0x38, 0x36, 0x3C, 0x3D, 0x33, 0x32⟩
def emc2303Fan2 : FanRegs := ⟨0x47, 0x48, 0x46, 0x4C, 0x4D, 0x43, 0x42⟩
def emc2303Fan3 : FanRegs := ⟨0x57, 0x58, 0x56, 0x5C, 0x5D, 0x53, 0x52⟩

structure FanBus where
  i2c : I2cEnv
  stored : Nat → Bool

/-- `addressed` are the registers of all transfers so far. -/
structure Emc where
  i2c : I2c
  regs : Byte → Byte
  addressed : List Byte

section Source

variable (b : FanBus)

/-- `emc_set_reg_byte` with the chip behind it. -/
def Emc.set (reg val : Byte) (s : Emc) : Bool × Emc :=
  let (ok, i2c) := emcSetRegByte b.i2c reg val s.i2c
  let regs := if ok || b.stored s.i2c.now then Function.update s.regs reg val else s.regs
  (ok, ⟨i2c, regs, s.addressed ++ [reg]⟩)

/-- `&&` of transfers. -/
def Emc.setAll : List (Byte × Byte) → Emc → Bool × Emc
  | [], s => (true, s)
  | (reg, val) :: writes, s =>
    match s.set b reg val with
    | (false, s) => (false, s)
    | (true, s) => setAll writes s

def FanRegs.targetWrites (f : FanRegs) (tachHigh tachLow : Byte) : List (Byte × Byte) :=
  [ (f.step, 0x04), (f.minDrive, 0x00),
    -- disable after 16 failed updates, no kick, 30%, 2s
    (f.spinup, 0x98),
    (f.targetTachLow, tachLow), (f.targetTachHigh, tachHigh),
    -- glitch filter, basic derivative options, error window 0rpm
    (f.conf2, 0x28) ]

/-- Enables the RPM-based control. -/
def FanRegs.confWrite (f : FanRegs) : Byte × Byte := (f.conf, 0x8B)

def setFanXTargetRpm (f : FanRegs) (rpm : BitVec 16) (s : Emc) : Bool × Emc :=
  if rpm.toNat > 16000 then (false, s)
  else
    let (tachHigh, tachLow) := getRegsFromRpm rpm
    s.setAll b (f.targetWrites tachHigh tachLow ++ [f.confWrite])

def llamaSetFan1TargetRpm (rpm : BitVec 16) (s : Emc) : Bool × Emc :=
  setFanXTargetRpm b emc2303Fan1 rpm s

def llamaSetFan2TargetRpm (rpm : BitVec 16) (s : Emc) : Bool × Emc :=
  setFanXTargetRpm b emc2303Fan2 rpm s

def llamaSetFan3TargetRpm (rpm : BitVec 16) (s : Emc) : Bool × Emc :=
  setFanXTargetRpm b emc2303Fan3 rpm s

end Source

/-- Every byte of the transfer that starts at `t` is acknowledged, and the
STOP is carried out. -/
def transferOk (e : I2cEnv) (t : Nat) : Bool :=
  txOk (e.wait (t + 1)) && txOk (e.wait (t + 3)) && txOk (e.wait (t + 5)) && stopOk (e.wait (t + 7))

theorem emcSetRegByte_fst (e : I2cEnv) (reg val : Byte) (s : I2c) :
    (emcSetRegByte e reg val s).1 = transferOk e s.now := by
  rw [emcSetRegByte, andThen_fst]
  cases hstart : txOk (e.wait (s.now + 1)) with
  | false => simp [andThen_fst, transferOk, hstart, i2cStart, checkTxDone, i2cSetAddress, I2c.does]
  | true =>
    rw [(i2cWrite_one e _ val).1, andThen_snd hstart, andThen_fst, transferOk, hstart]
    show (txOk (e.wait (s.now + 1)) && txOk (e.wait (s.now + 3)) &&
      (txOk (e.wait (s.now + 5)) && stopOk (e.wait (s.now + 7)))) = _
    rw [hstart, Bool.and_assoc, Bool.and_assoc]
    rfl

theorem emcSetRegByte_now {e : I2cEnv} {s : I2c} (h : transferOk e s.now = true) (reg val : Byte) :
    (emcSetRegByte e reg val s).2.now = s.now + 8 := by
  simp only [transferOk, Bool.and_eq_true] at h
  obtain ⟨⟨⟨hstart, hreg⟩, hval⟩, -⟩ := h
  have hsel : (andThen (i2cStart e emc2303Addr 0 s) (i2cWriteByteNoStop e reg)).1 = true := by
    rw [andThen_fst]
    exact Bool.and_eq_true_iff.mpr ⟨hstart, hreg⟩
  have hnow : (andThen (i2cStart e emc2303Addr 0 s) (i2cWriteByteNoStop e reg)).2.now =
      s.now + 4 := by
    rw [andThen_snd hstart]
    rfl
  rw [emcSetRegByte, andThen_snd hsel, (i2cWrite_one e _ val).2.2, hnow]
  rw [hnow]
  exact hval

-- ---------------------------------------------------------------------------
-- Runs of transfers
-- ---------------------------------------------------------------------------

section
variable (b : FanBus)

theorem Emc.set_fst (reg val : Byte) (s : Emc) :
    (s.set b reg val).1 = transferOk b.i2c s.i2c.now := emcSetRegByte_fst ..

theorem Emc.set_now {s : Emc} (h : transferOk b.i2c s.i2c.now = true) (reg val : Byte) :
    (s.set b reg val).2.i2c.now = s.i2c.now + 8 := emcSetRegByte_now h ..

theorem Emc.set_regs_self {s : Emc} (h : transferOk b.i2c s.i2c.now = true) (reg val : Byte) :
    (s.set b reg val).2.regs reg = val := by
  unfold set
  simp [emcSetRegByte_fst, h]

theorem Emc.set_regs_of_ne (s : Emc) (val : Byte) (h : r ≠ reg) :
    (s.set b reg val).2.regs r = s.regs r := by
  simp only [set]
  split
  · exact Function.update_of_ne h ..
  · rfl

/-- A run succeeds exactly when each of its transfers does. Each transfer of
such a run takes eight steps. -/
theorem Emc.setAll_ok (writes : List (Byte × Byte)) (s : Emc) :
    ((s.setAll b writes).1 = true ↔
        ∀ i < writes.length, transferOk b.i2c (s.i2c.now + 8 * i) = true) ∧
      ((s.setAll b writes).1 = true →
        (s.setAll b writes).2.i2c.now = s.i2c.now + 8 * writes.length) := by
  induction writes generalizing s with
  | nil => exact ⟨iff_of_true rfl nofun, fun _ => rfl⟩
  | cons w writes ih =>
    obtain ⟨reg, val⟩ := w
    have hfst := Emc.set_fst b reg val s
    rw [setAll]
    split
    · next s₁ hset =>
      rw [hset] at hfst
      refine ⟨iff_of_false Bool.false_ne_true fun h => ?_, nofun⟩
      exact Bool.false_ne_true (hfst.trans (h 0 (Nat.succ_pos _)))
    · next s₁ hset =>
      rw [hset] at hfst
      have hnow := Emc.set_now b hfst.symm reg val
      rw [hset] at hnow
      obtain ⟨hok, hend⟩ := ih s₁
      simp only at hnow
      rw [hnow] at hok hend
      have htime (i : Nat) : s.i2c.now + 8 + 8 * i = s.i2c.now + 8 * (i + 1) := by omega
      simp only [htime] at hok
      refine ⟨hok.trans ⟨fun h i hi => ?_, fun h i hi => ?_⟩, fun h => ?_⟩
      · cases i with
        | zero => exact hfst.symm
        | succ i => exact h i (Nat.lt_of_succ_lt_succ hi)
      · exact h (i + 1) (Nat.succ_lt_succ hi)
      · rw [hend h, List.length_cons]
        omega

/-- A run keeps the registers it does not write, and addresses no others. -/
theorem Emc.setAll_frame (writes : List (Byte × Byte)) (s : Emc) :
    (∀ r ∉ writes.map Prod.fst, (s.setAll b writes).2.regs r = s.regs r) ∧
      ∃ l, (s.setAll b writes).2.addressed = s.addressed ++ l ∧ l <+: writes.map Prod.fst := by
  induction writes generalizing s with
  | nil => exact ⟨fun _ _ => rfl, [], by simp [setAll], List.nil_prefix⟩
  | cons w writes ih =>
    obtain ⟨reg, val⟩ := w
    have hne (r : Byte) (hr : r ∉ ((reg, val) :: writes).map Prod.fst) :
        r ≠ reg ∧ r ∉ writes.map Prod.fst := by simpa using hr
    rw [setAll]
    split
    · next s₁ hset =>
      have hregs (r : Byte) (hr : r ≠ reg) : s₁.regs r = s.regs r := by
        rw [← congrArg (fun x => x.2.regs) hset]
        exact set_regs_of_ne b s val hr
      refine ⟨fun r hr => hregs r (hne r hr).1, [reg], ?_, by simp⟩
      exact (congrArg (fun x => x.2.addressed) hset).symm
    · next s₁ hset =>
      obtain ⟨hframe, l, hl, hsub⟩ := ih s₁
      refine ⟨fun r hr => ?_, reg :: l, ?_, List.cons_prefix_cons.mpr ⟨rfl, hsub⟩⟩
      · rw [hframe r (hne r hr).2, ← congrArg (fun x => x.2.regs) hset]
        exact set_regs_of_ne b s val (hne r hr).1
      · rw [hl, ← congrArg (fun x => x.2.addressed) hset]
        exact List.append_assoc ..

/-- After a run without error the registers hold what was written. -/
theorem Emc.setAll_regs {writes : List (Byte × Byte)} (hnodup : (writes.map Prod.fst).Nodup)
    {s : Emc} (h : (s.setAll b writes).1 = true) :
    ∀ w ∈ writes, (s.setAll b writes).2.regs w.1 = w.2 := by
  induction writes generalizing s with
  | nil => nofun
  | cons w writes ih =>
    obtain ⟨reg, val⟩ := w
    obtain ⟨hreg, hnodup⟩ := List.nodup_cons.mp hnodup
    have hfst := Emc.set_fst b reg val s
    rw [setAll] at h ⊢
    split
    · next s₁ hset =>
      rw [hset] at h
      cases h
    · next s₁ hset =>
      rw [hset] at h hfst
      refine List.forall_mem_cons.mpr ⟨?_, ih hnodup h⟩
      rw [(setAll_frame b writes s₁).1 reg hreg, ← congrArg (fun x => x.2.regs) hset]
      exact set_regs_self b hfst.symm reg val

theorem Emc.setAll_append (writes writes' : List (Byte × Byte)) (s : Emc) :
    s.setAll b (writes ++ writes') =
      if (s.setAll b writes).1 then (s.setAll b writes).2.setAll b writes'
      else s.setAll b writes := by
  induction writes generalizing s with
  | nil => rfl
  | cons w writes ih =>
    rw [List.cons_append, setAll, setAll]
    split
    · rfl
    · next s₁ hset => exact ih s₁

end

-- ---------------------------------------------------------------------------
-- Target counts
-- ---------------------------------------------------------------------------

/-- The count that a speed asks for: the slowest one for a fan that is off,
and for a speed whose count has more than 13 bits. -/
def tachTarget (rpm : BitVec 16) : Nat :=
  if rpm = 0 ∨ 3932160 / rpm.toNat > 8191 then 8191 else 3932160 / rpm.toNat

theorem tachTarget_antitone {rpm rpm' : BitVec 16} (h : rpm ≤ rpm') :
    tachTarget rpm' ≤ tachTarget rpm := by
  unfold tachTarget
  by_cases h0 : rpm = 0 ∨ 3932160 / rpm.toNat > 8191
  · rw [if_pos h0]
    split
    · exact Nat.le_refl _
    · next h' => exact Nat.not_lt.mp (not_or.mp h').2
  · obtain ⟨hne, hfits⟩ := not_or.mp h0
    have hpos : 0 < rpm.toNat := by
      rw [Nat.pos_iff_ne_zero]
      exact fun hz => hne (BitVec.eq_of_toNat_eq hz)
    have hle : 3932160 / rpm'.toNat ≤ 3932160 / rpm.toNat := Nat.div_le_div_left h hpos
    have hne' : rpm' ≠ 0 := fun hz => by simp [hz, BitVec.le_def] at h; omega
    rw [if_neg h0, if_neg (not_or.mpr ⟨hne', by omega⟩)]
    exact hle

theorem tachCount_split (regs : BitVec 16) :
    tachCount ((regs >>> 8).setWidth 8) (regs.setWidth 8) = regs.toNat / 8 := by
  have hlt := regs.isLt
  simp only [tachCount, BitVec.toNat_setWidth, BitVec.toNat_ushiftRight, Nat.shiftRight_eq_div_pow]
  omega

/-- Counts above 13 bits lose their high bits. -/
theorem tachCount_getRegsFromRpm (rpm : BitVec 16) :
    tachCount (getRegsFromRpm rpm).1 (getRegsFromRpm rpm).2 =
      if rpm = 0 then 8191 else 3932160 / rpm.toNat % 8192 := by
  rw [getRegsFromRpm, tachCount_split]
  split
  · rfl
  · rw [BitVec.toNat_ofNat, Nat.shiftLeft_eq]
    omega

/-- The high bits are lost below 481 rpm, and then the count is wrong. -/
theorem tachCount_eq_tachTarget_iff (rpm : BitVec 16) :
    tachCount (getRegsFromRpm rpm).1 (getRegsFromRpm rpm).2 = tachTarget rpm ↔
      ¬ (1 ≤ rpm.toNat ∧ rpm.toNat ≤ 480) := by
  rw [tachCount_getRegsFromRpm, tachTarget]
  by_cases h0 : rpm = 0
  · subst h0
    simp
  have hpos : 0 < rpm.toNat := by
    rw [Nat.pos_iff_ne_zero]
    exact fun hz => h0 (BitVec.eq_of_toNat_eq hz)
  simp only [if_neg h0, or_iff_right h0]
  generalize rpm.toNat = r at hpos
  by_cases hr : r ≤ 480
  · have hbig : 8192 ≤ 3932160 / r := (Nat.le_div_iff_mul_le hpos).mpr (by omega)
    rw [if_pos (by omega)]
    refine iff_of_false (fun h => ?_) fun h => h ⟨hpos, hr⟩
    -- A count 8192 k + 8191 would need 480 < (k + 1) r < 481.
    have hk : 3932160 / r = 8192 * (3932160 / r / 8192) + 8191 := by omega
    set k := 3932160 / r / 8192 with hkdef
    have hlow := Nat.div_mul_le_self 3932160 r
    have hhigh := Nat.lt_mul_div_succ 3932160 hpos
    rw [hk] at hlow hhigh
    have e1 : (8192 * k + 8191) * r = 8192 * ((k + 1) * r) - r := by
      have : (8192 * k + 8191) * r + r = 8192 * ((k + 1) * r) := by ring
      omega
    have e2 : r * (8192 * k + 8191 + 1) = 8192 * ((k + 1) * r) := by ring
    rw [e1] at hlow
    rw [e2] at hhigh
    omega
  · have hsmall : 3932160 / r ≤ 8191 := by
      have : 3932160 / r ≤ 3932160 / 481 := Nat.div_le_div_left (by omega) (by decide)
      omega
    rw [if_neg (by omega), Nat.mod_eq_of_lt (by omega)]
    exact iff_of_true rfl fun h => hr h.2

theorem getRpm_getRegsFromRpm {rpm : BitVec 16} (hlow : 480 < rpm.toNat)
    (hhigh : rpm.toNat ≤ 16000) :
    ∃ r, getRpm (getRegsFromRpm rpm).1 (getRegsFromRpm rpm).2 = some r ∧ rpm ≤ r := by
  have h0 : rpm ≠ 0 := by
    rintro rfl
    exact absurd hlow (by decide)
  have hsmall : 3932160 / rpm.toNat ≤ 3932160 / 481 := Nat.div_le_div_left hlow (by decide)
  have hlarge : 3932160 / 16000 ≤ 3932160 / rpm.toNat := Nat.div_le_div_left hhigh (by omega)
  have hcount : tachCount (getRegsFromRpm rpm).1 (getRegsFromRpm rpm).2 = 3932160 / rpm.toNat := by
    rw [tachCount_getRegsFromRpm, if_neg h0, Nat.mod_eq_of_lt (by omega)]
  set count := 3932160 / rpm.toNat with hdef
  refine ⟨BitVec.ofNat 16 (3932160 / count), ?_, ?_⟩
  · rw [getRpm, hcount, if_neg (by omega)]
  · have hquot : 3932160 / count ≤ 3932160 / (3932160 / 16000) :=
      Nat.div_le_div_left hlarge (by decide)
    have hmul : rpm.toNat * count ≤ 3932160 := Nat.mul_div_le _ _
    have hge : rpm.toNat ≤ 3932160 / count := (Nat.le_div_iff_mul_le (by omega)).mpr hmul
    rw [BitVec.le_def, BitVec.toNat_ofNat, Nat.mod_eq_of_lt (by omega)]
    exact hge

-- ---------------------------------------------------------------------------
-- Target programming
-- ---------------------------------------------------------------------------

def emc2303Fans : List FanRegs := [emc2303Fan1, emc2303Fan2, emc2303Fan3]

def FanRegs.all (f : FanRegs) : List Byte :=
  [f.step, f.minDrive, f.spinup, f.targetTachLow, f.targetTachHigh, f.conf2, f.conf]

/-- A fan's registers are those with its number in the high digit. -/
def FanRegs.owns (f : FanRegs) (reg : Byte) : Prop := reg >>> 4 = f.conf >>> 4

theorem emc2303Fans_regs :
    ∀ f ∈ emc2303Fans, f.all.Nodup ∧ ∀ reg ∈ f.all, reg >>> 4 = f.conf >>> 4 := by
  decide

section
variable (b : FanBus) (f : FanRegs) (rpm : BitVec 16) (s : Emc)

/-- What is asked of a call with the outcome `r`. -/
structure TargetProgrammed (r : Bool × Emc) : Prop where
  reports : r.1 = true ↔
    rpm.toNat ≤ 16000 ∧ ∀ i < 7, transferOk b.i2c (s.i2c.now + 8 * i) = true
  count : r.1 = true →
    tachCount (r.2.regs f.targetTachHigh) (r.2.regs f.targetTachLow) = tachTarget rpm
  speed : r.1 = true → rpm ≠ 0 → 3932160 / rpm.toNat ≤ 8191 →
    ∃ v, getRpm (r.2.regs f.targetTachHigh) (r.2.regs f.targetTachLow) = some v ∧ rpm ≤ v
  enabled : ∀ l, r.2.addressed = s.addressed ++ l → f.conf ∈ l →
    (∀ i < 6, transferOk b.i2c (s.i2c.now + 8 * i) = true) ∧
      r.2.regs f.targetTachHigh = (getRegsFromRpm rpm).1 ∧
      r.2.regs f.targetTachLow = (getRegsFromRpm rpm).2
  others : ∀ reg, ¬ f.owns reg → r.2.regs reg = s.regs reg ∧
    ∀ l, r.2.addressed = s.addressed ++ l → reg ∉ l

/-- The seven transfers of one call. -/
def FanRegs.writes : List (Byte × Byte) :=
  f.targetWrites (getRegsFromRpm rpm).1 (getRegsFromRpm rpm).2 ++ [f.confWrite]

theorem setFanXTargetRpm_eq (h : rpm.toNat ≤ 16000) :
    setFanXTargetRpm b f rpm s = s.setAll b (f.writes rpm) := if_neg (Nat.not_lt.mpr h)

theorem setFanXTargetRpm_reports : (setFanXTargetRpm b f rpm s).1 = true ↔
    rpm.toNat ≤ 16000 ∧ ∀ i < 7, transferOk b.i2c (s.i2c.now + 8 * i) = true := by
  by_cases h : rpm.toNat ≤ 16000
  · rw [setFanXTargetRpm_eq b f rpm s h, (Emc.setAll_ok b (f.writes rpm) s).1, and_iff_right h]
    rfl
  · rw [setFanXTargetRpm, if_pos (Nat.not_le.mp h)]
    exact iff_of_false Bool.false_ne_true fun h' => h h'.1

variable {f} (hf : f ∈ emc2303Fans)
include hf

theorem setFanXTargetRpm_others (reg : Byte) (hreg : ¬ f.owns reg) :
    (setFanXTargetRpm b f rpm s).2.regs reg = s.regs reg ∧
      ∀ l, (setFanXTargetRpm b f rpm s).2.addressed = s.addressed ++ l → reg ∉ l := by
  have hmem : reg ∉ f.all := fun h => hreg ((emc2303Fans_regs f hf).2 reg h)
  by_cases h : rpm.toNat ≤ 16000
  · rw [setFanXTargetRpm_eq b f rpm s h]
    obtain ⟨hframe, l, hl, hsub⟩ := Emc.setAll_frame b (f.writes rpm) s
    refine ⟨hframe reg hmem, fun l' hl' hmem' => hmem ?_⟩
    obtain rfl := List.append_cancel_left (hl.symm.trans hl')
    exact hsub.subset hmem'
  · rw [setFanXTargetRpm, if_pos (Nat.not_le.mp h)]
    refine ⟨rfl, fun l hl hmem' => ?_⟩
    rw [List.self_eq_append_right.mp hl] at hmem'
    cases hmem'

theorem setFanXTargetRpm_enabled (l : List Byte)
    (hl : (setFanXTargetRpm b f rpm s).2.addressed = s.addressed ++ l) (hconf : f.conf ∈ l) :
    (∀ i < 6, transferOk b.i2c (s.i2c.now + 8 * i) = true) ∧
      (setFanXTargetRpm b f rpm s).2.regs f.targetTachHigh = (getRegsFromRpm rpm).1 ∧
      (setFanXTargetRpm b f rpm s).2.regs f.targetTachLow = (getRegsFromRpm rpm).2 := by
  by_cases h : rpm.toNat ≤ 16000
  · rw [setFanXTargetRpm_eq b f rpm s h, FanRegs.writes, Emc.setAll_append] at hl ⊢
    set first := f.targetWrites (getRegsFromRpm rpm).1 (getRegsFromRpm rpm).2 with hfirst
    have hnodup : (first.map Prod.fst ++ [f.conf]).Nodup := (emc2303Fans_regs f hf).1
    obtain ⟨hnodup, -, hdisj⟩ := List.nodup_append.mp hnodup
    have hne (reg : Byte) (hreg : reg ∈ first.map Prod.fst) : reg ∉ [f.confWrite].map Prod.fst :=
      fun hmem => hdisj reg hreg f.conf List.mem_cons_self (List.mem_singleton.mp hmem)
    cases hok : (s.setAll b first).1 with
    | false =>
      rw [hok] at hl
      obtain ⟨-, l', hl', hsub⟩ := Emc.setAll_frame b first s
      obtain rfl := List.append_cancel_left (hl'.symm.trans hl)
      exact absurd List.mem_cons_self (hne f.conf (hsub.subset hconf))
    | true =>
      have hregs := Emc.setAll_regs b hnodup hok
      have hkeep := (Emc.setAll_frame b [f.confWrite] (s.setAll b first).2).1
      rw [if_pos rfl]
      refine ⟨(Emc.setAll_ok b first s).1.mp hok, ?_, ?_⟩
      · rw [hkeep _ (hne _ (by simp [hfirst, FanRegs.targetWrites]))]
        exact hregs (f.targetTachHigh, _) (by simp [hfirst, FanRegs.targetWrites])
      · rw [hkeep _ (hne _ (by simp [hfirst, FanRegs.targetWrites]))]
        exact hregs (f.targetTachLow, _) (by simp [hfirst, FanRegs.targetWrites])
  · rw [setFanXTargetRpm, if_pos (Nat.not_le.mp h)] at hl
    rw [List.self_eq_append_right.mp hl] at hconf
    cases hconf

theorem setFanXTargetRpm_targets (h : (setFanXTargetRpm b f rpm s).1 = true) :
    (setFanXTargetRpm b f rpm s).2.regs f.targetTachHigh = (getRegsFromRpm rpm).1 ∧
      (setFanXTargetRpm b f rpm s).2.regs f.targetTachLow = (getRegsFromRpm rpm).2 := by
  have hrpm := ((setFanXTargetRpm_reports b f rpm s).mp h).1
  rw [setFanXTargetRpm_eq b f rpm s hrpm] at h ⊢
  have hnodup : ((f.writes rpm).map Prod.fst).Nodup := (emc2303Fans_regs f hf).1
  have hregs := Emc.setAll_regs b hnodup h
  exact ⟨hregs (f.targetTachHigh, _) (by simp [FanRegs.writes, FanRegs.targetWrites]),
    hregs (f.targetTachLow, _) (by simp [FanRegs.writes, FanRegs.targetWrites])⟩

end

/-- A call programs what it should unless all its transfers succeed for a
speed from 1 to 480 rpm. The counts asked for fall as the speed rises. -/
theorem setFanXTargetRpm_iff (b : FanBus) (s : Emc) :
    (∀ f ∈ emc2303Fans, ∀ rpm : BitVec 16,
      TargetProgrammed b f rpm s (setFanXTargetRpm b f rpm s) ↔
        ¬ ((1 ≤ rpm.toNat ∧ rpm.toNat ≤ 480) ∧
          ∀ i < 7, transferOk b.i2c (s.i2c.now + 8 * i) = true)) ∧
    ∀ rpm rpm' : BitVec 16, rpm ≤ rpm' → tachTarget rpm' ≤ tachTarget rpm := by
  refine ⟨fun f hf rpm => ?_, fun _ _ => tachTarget_antitone⟩
  have hreports := setFanXTargetRpm_reports b f rpm s
  constructor
  · rintro h ⟨hlow, hok⟩
    have hsuccess := hreports.mpr ⟨by omega, hok⟩
    obtain ⟨hhigh, hlow'⟩ := setFanXTargetRpm_targets b rpm s hf hsuccess
    have hcount := h.count hsuccess
    rw [hhigh, hlow', tachCount_eq_tachTarget_iff] at hcount
    exact hcount hlow
  · intro h
    have hcases (hsuccess : (setFanXTargetRpm b f rpm s).1 = true) :
        ¬ (1 ≤ rpm.toNat ∧ rpm.toNat ≤ 480) :=
      fun hlow => h ⟨hlow, (hreports.mp hsuccess).2⟩
    refine ⟨hreports, fun hsuccess => ?_, fun hsuccess hne _ => ?_,
      setFanXTargetRpm_enabled b rpm s hf, setFanXTargetRpm_others b rpm s hf⟩
    · obtain ⟨hhigh, hlow'⟩ := setFanXTargetRpm_targets b rpm s hf hsuccess
      rw [hhigh, hlow', tachCount_eq_tachTarget_iff]
      exact hcases hsuccess
    · obtain ⟨hhigh, hlow'⟩ := setFanXTargetRpm_targets b rpm s hf hsuccess
      have hpos : rpm.toNat ≠ 0 := fun hz => hne (BitVec.eq_of_toNat_eq hz)
      have hbig := hcases hsuccess
      rw [hhigh, hlow']
      exact getRpm_getRegsFromRpm (by omega) (hreports.mp hsuccess).1

/-- A controller that acknowledges everything. -/
def obligingBus : FanBus := ⟨steadyEnv 0x21, fun _ => true⟩

/-- 240 rpm is programmed as a count of 0 instead of 8191. -/
theorem setFanXTargetRpm_240 :
    (llamaSetFan1TargetRpm obligingBus 240 ⟨⟨0, []⟩, fun _ => 0, []⟩).1 = true ∧
      (llamaSetFan1TargetRpm obligingBus 240 ⟨⟨0, []⟩, fun _ => 0, []⟩).2.regs 0x3D = 0 ∧
      (llamaSetFan1TargetRpm obligingBus 240 ⟨⟨0, []⟩, fun _ => 0, []⟩).2.regs 0x3C = 0 ∧
      tachTarget 240 = 8191 := by
  decide

end ItxLlama.Llama
