import ItxLlama.Lib.Word
import ItxLlama.Seabios.Ticks

/-!
# Timers on the tick count

The tick count in the BDA, as `handle_08` advances it, and the timers of
`clock.c` on it: a deadline is a tick count modulo a day, and it has passed
when the count is less than half a day behind it. The rest of the interrupt
handler (the floppy motor, INT 1Ch) is left out.
-/

namespace ItxLlama.Seabios.Clock

open Lib.Word Lib.ModularClock

structure TickBda where
  timerCounter : Nat
  timerRollover : BitVec 8
deriving DecidableEq

def handle08 (b : TickBda) : TickBda :=
  let counter := u32 (b.timerCounter + 1)
  if counter ≥ ticksPerDay then ⟨0, b.timerRollover + 1⟩ else { b with timerCounter := counter }

def irqtimerCalcTicks (b : TickBda) (count : Nat) : Nat :=
  u32 (b.timerCounter + count + 1) % ticksPerDay

def irqtimerCalc (b : TickBda) (msecs : Nat) : Nat :=
  if msecs = 0 then b.timerCounter else irqtimerCalcTicks b (ticksFromMs msecs)

def irqtimerCheck (b : TickBda) (fin : Nat) : Bool :=
  u32 (b.timerCounter + ticksPerDay + (2 ^ 32 - fin)) % ticksPerDay < ticksPerDay / 2

/-- The BDA after `k` timer interrupts. -/
def afterTicks : Nat → TickBda → TickBda
  | 0, b => b
  | k + 1, b => handle08 (afterTicks k b)

theorem handle08_eq (h : b.timerCounter < ticksPerDay) :
    handle08 b = ⟨(b.timerCounter + 1) % ticksPerDay,
      if b.timerCounter + 1 = ticksPerDay then b.timerRollover + 1 else b.timerRollover⟩ := by
  have hu : u32 (b.timerCounter + 1) = b.timerCounter + 1 := by
    unfold ticksPerDay at h
    exact u32_eq (by omega)
  simp only [handle08, hu]
  rcases Nat.eq_or_lt_of_le (Nat.succ_le_of_lt h) with h | h
  · rw [if_pos (Nat.le_of_eq h.symm), if_pos h, ← h, Nat.mod_self]
  · rw [if_neg (Nat.not_le.mpr h), if_neg (Nat.ne_of_lt h), Nat.mod_eq_of_lt h]

/-- The count runs modulo a day, and each midnight adds to the rollover flag. -/
theorem afterTicks_eq (h : b.timerCounter < ticksPerDay) (k : Nat) :
    afterTicks k b = ⟨(b.timerCounter + k) % ticksPerDay,
      b.timerRollover + BitVec.ofNat 8 ((b.timerCounter + k) / ticksPerDay)⟩ := by
  have hday : 0 < ticksPerDay := by decide
  induction k with
  | zero => simp [afterTicks, Nat.mod_eq_of_lt h, Nat.div_eq_of_lt h]
  | succ k ih =>
    have hlt : (b.timerCounter + k) % ticksPerDay < ticksPerDay := Nat.mod_lt _ hday
    have hwrap : (b.timerCounter + k) % ticksPerDay + 1 = ticksPerDay ↔
        ticksPerDay ∣ b.timerCounter + k + 1 := by
      rw [Nat.dvd_iff_mod_eq_zero, ← Nat.mod_add_mod (b.timerCounter + k)]
      generalize (b.timerCounter + k) % ticksPerDay = x at hlt
      rcases Nat.eq_or_lt_of_le (Nat.succ_le_of_lt hlt) with hx | hx
      · have hx : x + 1 = ticksPerDay := hx
        simp [hx]
      · have hx : x + 1 < ticksPerDay := hx
        simp [Nat.ne_of_lt hx, Nat.mod_eq_of_lt hx]
    rw [afterTicks, ih, handle08_eq hlt, ← Nat.add_assoc, Nat.mod_add_mod, Nat.succ_div]
    simp only [hwrap]
    split
    case isTrue =>
      rw [BitVec.ofNat_add, BitVec.add_assoc]
      rfl
    case isFalse => rfl

theorem afterTicks_lt (h : b.timerCounter < ticksPerDay) (k : Nat) :
    (afterTicks k b).timerCounter < ticksPerDay := by
  rw [afterTicks_eq h]
  exact Nat.mod_lt _ (by decide)

/-- No sum in the check wraps, so that it is how far the count is past the deadline. -/
theorem irqtimerCheck_eq (hb : b.timerCounter < ticksPerDay) (hfin : fin < ticksPerDay) :
    irqtimerCheck b fin = decide (past ticksPerDay b.timerCounter fin < ticksPerDay / 2) := by
  have hu : u32 (b.timerCounter + ticksPerDay + (2 ^ 32 - fin)) =
      b.timerCounter + ticksPerDay - fin := by
    simp only [u32, ticksPerDay] at *
    omega
  rw [irqtimerCheck, hu, past]

theorem irqtimerCalcTicks_eq (hb : b.timerCounter < ticksPerDay) (hn : n < ticksPerDay) :
    irqtimerCalcTicks b n = (b.timerCounter + (n + 1)) % ticksPerDay := by
  rw [irqtimerCalcTicks, u32_eq, Nat.add_assoc]
  simp only [ticksPerDay] at *
  omega

/-- Over any number of ticks the count stays within a day and the flag counts
the midnights, and a timer of `n` ticks expires at the tick after those and
stays expired for half a day, across midnight too. -/
theorem tickTimer (hb : b.timerCounter < ticksPerDay) (hn : n < ticksPerDay / 2 - 1) (k : Nat) :
    (afterTicks k b).timerCounter < ticksPerDay ∧
    (afterTicks k b).timerRollover =
      b.timerRollover + BitVec.ofNat 8 ((b.timerCounter + k) / ticksPerDay) ∧
    (k < n + 1 → irqtimerCheck (afterTicks k b) (irqtimerCalcTicks b n) = false) ∧
    (n + 1 ≤ k → k < n + 1 + ticksPerDay / 2 →
      irqtimerCheck (afterTicks k b) (irqtimerCalcTicks b n) = true) := by
  have hhalf : ticksPerDay / 2 < ticksPerDay := by decide
  have hfin : irqtimerCalcTicks b n < ticksPerDay := Nat.mod_lt _ (by decide)
  have hcheck : irqtimerCheck (afterTicks k b) (irqtimerCalcTicks b n) =
      decide (past ticksPerDay ((b.timerCounter + k) % ticksPerDay)
        ((b.timerCounter + (n + 1)) % ticksPerDay) < ticksPerDay / 2) := by
    rw [irqtimerCheck_eq (afterTicks_lt hb k) hfin, afterTicks_eq hb,
      irqtimerCalcTicks_eq hb (by omega)]
  refine ⟨afterTicks_lt hb k, by rw [afterTicks_eq hb], fun hk => ?_, fun hle hlt => ?_⟩
  · rw [hcheck, past_of_lt hk (by omega), decide_eq_false (by omega)]
  · rw [hcheck, past_of_le hle (by omega), decide_eq_true (by omega)]

theorem tickTimer_midnight :
    (afterTicks 10 ⟨1573035, 0⟩).timerCounter < ticksPerDay ∧
    (afterTicks 10 ⟨1573035, 0⟩).timerRollover = 0 + BitVec.ofNat 8 ((1573035 + 10) / ticksPerDay) ∧
    (10 < 9 + 1 → irqtimerCheck (afterTicks 10 ⟨1573035, 0⟩)
      (irqtimerCalcTicks ⟨1573035, 0⟩ 9) = false) ∧
    (9 + 1 ≤ 10 → 10 < 9 + 1 + ticksPerDay / 2 →
      irqtimerCheck (afterTicks 10 ⟨1573035, 0⟩) (irqtimerCalcTicks ⟨1573035, 0⟩ 9) = true) :=
  tickTimer (by decide) (by decide) 10

end ItxLlama.Seabios.Clock
