import ItxLlama.Llama.SpiFlash
import Mathlib.Logic.Function.Basic
import Mathlib.Tactic.IntervalCases

/-!
# CS4237 codec

The register access of `llama_cs4237.c` and `cs4237_setup_mixer`. `Codec` is
the codec behind the ports `wss_base + WSS_R0` and `wss_base + WSS_R1`; the
delays between the accesses are left out.
-/

namespace ItxLlama.Llama

-- ---------------------------------------------------------------------------
-- The codec
-- ---------------------------------------------------------------------------

/-- `indexReg` is what R0 holds. Data accesses go to the extended register
`selected`, if there is one, and to the indirect register that R0 names
otherwise. -/
structure Codec where
  indexReg : Byte
  indirect : BitVec 5 → Byte
  ext : BitVec 5 → Byte
  selected : Option (BitVec 5)

inductive WssDirectReg where
  | R0
  | R1
  deriving DecidableEq, Repr

def wssI23 : BitVec 5 := 23

/-- Bits 7 to 4 of I23 below its bit 2. -/
def extSelect (i23 : Byte) : BitVec 5 :=
  BitVec.ofNat 5 (i23.toNat / 16) ||| if i23.getLsbD 2 then 16 else 0

/-- A write to R0 ends the extended access. -/
def Codec.outb (c : Codec) (val : Byte) : WssDirectReg → Codec
  | .R0 => { c with indexReg := val, selected := none }
  | .R1 =>
    match c.selected with
    | some n => { c with ext := Function.update c.ext n val }
    | none =>
      let index := c.indexReg.setWidth 5
      { c with
        indirect := Function.update c.indirect index val
        selected := if index = wssI23 ∧ val.getLsbD 3 then some (extSelect val) else none }

def Codec.inb (c : Codec) : WssDirectReg → Byte
  | .R0 => c.indexReg
  | .R1 =>
    match c.selected with
    | some n => c.ext n
    | none => c.indirect (c.indexReg.setWidth 5)

-- ---------------------------------------------------------------------------
-- Register access
-- ---------------------------------------------------------------------------

/-- `WSS_X0` to `WSS_X25` -/
abbrev WssExtReg := Fin 26

def WssExtReg.toByte (reg : WssExtReg) : Byte := BitVec.ofNat 8 reg

/-- Where the codec has the register. -/
def WssExtReg.index (reg : WssExtReg) : BitVec 5 := BitVec.ofNat 5 reg

def wssIndirectWrite (reg : BitVec 5) (val : Byte) (c : Codec) : Codec :=
  let c := c.outb ((c.inb .R0 &&& 0x60) ||| (reg.setWidth 8 &&& 0x1F)) .R0
  c.outb val .R1

def i23val (reg : WssExtReg) : Byte :=
  (((reg.toByte &&& 0x10) >>> 2) &&& ((reg.toByte &&& 0x0F) <<< 4)) ||| 0x08

def wssExtRead (reg : WssExtReg) (c : Codec) : Byte × Codec :=
  let c := wssIndirectWrite wssI23 (i23val reg) c
  (c.inb .R1, c)

def wssExtWrite (reg : WssExtReg) (val : Byte) (c : Codec) : Codec :=
  let c := wssIndirectWrite wssI23 (i23val reg) c
  c.outb val .R1

/-- One line of `cs4237_setup_mixer`. -/
inductive MixerLine where
  | indirectWrite (reg : BitVec 5) (val : Byte)
  | extWrite (reg : WssExtReg) (val : Byte)
  | extMask (reg : WssExtReg) (mask : Byte)
  deriving DecidableEq, Repr

/-- What a line leaves in the codec, and what it passes to `wss_ext_write`. -/
def MixerLine.run (c : Codec) : MixerLine → Codec × Option (WssExtReg × Byte)
  | .indirectWrite reg val => (wssIndirectWrite reg val c, none)
  | .extWrite reg val => (wssExtWrite reg val c, some (reg, val))
  | .extMask reg mask =>
    let (val, c) := wssExtRead reg c
    (wssExtWrite reg (val &&& mask) c, some (reg, val &&& mask))

def mixerLines : List MixerLine := [
  -- MODE 3
  .indirectWrite 12 0xEA,
  -- DSP serial port input
  .extWrite 8 0x80, .extWrite 9 0x80,
  -- Microphone
  .extWrite 2 0xDF, .extWrite 3 0xDF,
  -- AUX1 and AUX2 routing
  .indirectWrite 2 0x68, .indirectWrite 3 0x68,
  .indirectWrite 4 0x48, .indirectWrite 5 0x48,
  -- LINE routing
  .extWrite 0 0x68, .extWrite 1 0x68,
  -- Crystal FM volume
  .extWrite 6 0x00, .extWrite 7 0x00,
  -- Master digital output and volume
  .extWrite 11 0xC0,
  .extWrite 14 0x00, .extWrite 15 0x00,
  -- Analogue input mixer
  .extMask 4 0x9C, .extMask 5 0x80,
  -- Output loopback
  .indirectWrite 0 0xC0, .indirectWrite 1 0xC0]

/-- The codec and, for each extended register, the last value that was
written for it. -/
structure MixerRun where
  codec : Codec
  last : WssExtReg → Option Byte

def MixerRun.step (r : MixerRun) (line : MixerLine) : MixerRun :=
  match line.run r.codec with
  | (codec, some (reg, val)) => ⟨codec, Function.update r.last reg (some val)⟩
  | (codec, none) => ⟨codec, r.last⟩

def cs4237SetupMixer (c : Codec) : MixerRun := mixerLines.foldl .step ⟨c, fun _ => none⟩

-- ---------------------------------------------------------------------------
-- What is reached
-- ---------------------------------------------------------------------------

theorem i23val_eq (reg : WssExtReg) : i23val reg = 0x08 := by
  revert reg
  decide

theorem index_setWidth (r0 : Byte) (reg : BitVec 5) :
    ((r0 &&& 0x60) ||| (reg.setWidth 8 &&& 0x1F)).setWidth 5 = reg := by
  ext i hi
  interval_cases i <;> simp

section
variable (c : Codec)

theorem wssIndirectWrite_ext (reg : BitVec 5) (val : Byte) :
    (wssIndirectWrite reg val c).ext = c.ext := rfl

theorem wssIndirectWrite_selected (reg : BitVec 5) (val : Byte) :
    (wssIndirectWrite reg val c).selected =
      if reg = wssI23 ∧ val.getLsbD 3 then some (extSelect val) else none := by
  have hindex := index_setWidth c.indexReg reg
  simp only [wssIndirectWrite, Codec.outb, Codec.inb, hindex]

theorem wssIndirectWrite_i23val (reg : WssExtReg) :
    (wssIndirectWrite wssI23 (i23val reg) c).selected = some 0 := by
  rw [wssIndirectWrite_selected, i23val_eq]
  rfl

theorem wssExtWrite_ext (reg : WssExtReg) (val : Byte) :
    (wssExtWrite reg val c).ext = Function.update c.ext 0 val := by
  unfold wssExtWrite Codec.outb
  simp only [wssIndirectWrite_i23val, wssIndirectWrite_ext]

theorem wssExtRead_fst (reg : WssExtReg) : (wssExtRead reg c).1 = c.ext 0 := by
  unfold wssExtRead Codec.inb
  simp only [wssIndirectWrite_i23val, wssIndirectWrite_ext]

end

def MixerLine.x0 (x : Byte) : MixerLine → Byte
  | .indirectWrite _ _ => x
  | .extWrite _ val => val
  | .extMask _ mask => x &&& mask

theorem MixerRun.step_x0 (r : MixerRun) (line : MixerLine) :
    (r.step line).codec.ext 0 = line.x0 (r.codec.ext 0) := by
  cases line with
  | indirectWrite reg val => rfl
  | extWrite reg val =>
    show (wssExtWrite reg val r.codec).ext 0 = val
    rw [wssExtWrite_ext, Function.update_self]
  | extMask reg mask =>
    show (wssExtWrite reg ((wssExtRead reg r.codec).1 &&& mask) (wssExtRead reg r.codec).2).ext 0 =
      r.codec.ext 0 &&& mask
    rw [wssExtWrite_ext, Function.update_self, wssExtRead_fst]

theorem MixerRun.foldl_x0 (lines : List MixerLine) (r : MixerRun) :
    (lines.foldl step r).codec.ext 0 = lines.foldl MixerLine.x0 (r.codec.ext 0) := by
  induction lines generalizing r with
  | nil => rfl
  | cons line lines ih => rw [List.foldl_cons, ih, step_x0, List.foldl_cons]

def MixerLine.names (reg : WssExtReg) : MixerLine → Bool
  | .indirectWrite _ _ => false
  | .extWrite reg' _ => reg' = reg
  | .extMask reg' _ => reg' = reg

theorem MixerRun.step_last {line : MixerLine} (h : line.names reg = false) (r : MixerRun) :
    (r.step line).last reg = r.last reg := by
  cases line with
  | indirectWrite reg val => rfl
  | extWrite reg' val => exact Function.update_of_ne (Ne.symm (of_decide_eq_false h)) ..
  | extMask reg' mask => exact Function.update_of_ne (Ne.symm (of_decide_eq_false h)) ..

theorem MixerRun.foldl_last {lines : List MixerLine} (h : ∀ line ∈ lines, line.names reg = false)
    (r : MixerRun) : (lines.foldl step r).last reg = r.last reg := by
  induction lines generalizing r with
  | nil => rfl
  | cons line lines ih =>
    obtain ⟨hline, hlines⟩ := List.forall_mem_cons.mp h
    rw [List.foldl_cons, ih hlines, step_last hline]

theorem cs4237SetupMixer_x0 (c : Codec) :
    (cs4237SetupMixer c).last 0 = some 0x68 ∧ (cs4237SetupMixer c).codec.ext 0 = 0 := by
  constructor
  · have hsplit : mixerLines =
        mixerLines.take 9 ++ MixerLine.extWrite 0 0x68 :: mixerLines.drop 10 := rfl
    rw [cs4237SetupMixer, hsplit, List.foldl_append, List.foldl_cons,
      MixerRun.foldl_last (by decide)]
    simp only [MixerRun.step, MixerLine.run, Function.update_self]
  · rw [cs4237SetupMixer, MixerRun.foldl_x0]
    show (0x00 &&& 0x9C &&& 0x80 : Byte) = 0
    decide

/-- A write is right for X0, and where both registers hold the value already;
a read, where both hold the same; the set-up never. -/
theorem wssExt_iff (c : Codec) :
    (∀ (reg : WssExtReg) (val : Byte),
      (wssExtWrite reg val c).ext = Function.update c.ext reg.index val ↔
        reg = 0 ∨ (c.ext 0 = val ∧ c.ext reg.index = val)) ∧
    (∀ reg : WssExtReg, (wssExtRead reg c).1 = c.ext reg.index ↔ c.ext 0 = c.ext reg.index) ∧
    ¬ ∀ reg val, (cs4237SetupMixer c).last reg = some val →
      (cs4237SetupMixer c).codec.ext reg.index = val := by
  refine ⟨fun reg val => ?_, fun reg => ?_, fun h => ?_⟩
  · rw [wssExtWrite_ext]
    by_cases hreg : reg = 0
    · subst hreg
      exact iff_of_true rfl (.inl rfl)
    · have hindex : reg.index ≠ 0 := by
        revert reg
        decide
      rw [or_iff_right hreg]
      constructor
      · intro h
        have h0 := congrFun h 0
        have hr := congrFun h reg.index
        rw [Function.update_self, Function.update_of_ne hindex.symm] at h0
        rw [Function.update_self, Function.update_of_ne hindex] at hr
        exact ⟨h0.symm, hr⟩
      · rintro ⟨h0, hr⟩
        rw [← h0, Function.update_eq_self, h0, ← hr, Function.update_eq_self]
  · rw [wssExtRead_fst]
  · obtain ⟨hlast, hx0⟩ := cs4237SetupMixer_x0 c
    exact absurd (hx0.symm.trans (h 0 _ hlast)) (by decide)

def silentCodec : Codec := ⟨0, fun _ => 0, fun _ => 0, none⟩

/-- A write for X8 reaches X0. -/
theorem wssExtWrite_x8 :
    (wssExtWrite 8 0x80 silentCodec).ext 8 = 0 ∧ (wssExtWrite 8 0x80 silentCodec).ext 0 = 0x80 := by
  decide

end ItxLlama.Llama
