import ItxLlama.Lib.Word
import ItxLlama.Seabios.Clock

/-!
# Timer ticks

The conversions between milliseconds and timer interrupts of `hw/timer.c`,
and the tick count that `clock_setup` takes from the RTC. The product with
the clock frequency is made in 64 bits, but cut to 32 before the second
division: from 21:50:34.235 on the count starts again from 0.
-/

namespace ItxLlama.Seabios.Clock

open Lib.Word

def pmtimerHz : Nat := 3579545
def pmtimerToPit : Nat := 3
def pitTickInterval : Nat := 65536
def ticksPerDay : Nat := 1573040

/-- `DIV_ROUND_UP(n, d)` in 32 bits. -/
def divRoundUp32 (n d : Nat) : Nat := u32 (n + d - 1) / d

/-- `DIV_ROUND_UP(n, d)` in 64 bits. -/
def divRoundUp64 (n d : Nat) : Nat := u64 (n + d - 1) / d

def ticksToMs (ticks : Nat) : Nat :=
  let t := u32 (pitTickInterval * 1000 * pmtimerToPit * ticks)
  divRoundUp32 t pmtimerHz

def ticksFromMs (ms : Nat) : Nat :=
  let t := u32 (divRoundUp64 (ms * pmtimerHz) pitTickInterval)
  divRoundUp32 t (1000 * pmtimerToPit)

def bcd2bin (val : BitVec 8) : Nat := (val &&& 0xf).toNat + (val >>> 4).toNat * 10

/-- The time of day in the RTC, in milliseconds. -/
def rtcMs (s : Rtc) : Nat :=
  let seconds := bcd2bin (rtcRead s cmosRtcSeconds)
  let minutes := bcd2bin (rtcRead s cmosRtcMinutes)
  let hours := bcd2bin (rtcRead s cmosRtcHours)
  u32 (((hours * 60 + minutes) * 60 + seconds) * 1000)

/-- The count that `clock_setup` sets for a time of day. -/
def timerCounter (ms : Nat) : Nat := ticksFromMs ms % ticksPerDay

def clockSetup (s : Rtc) : Nat := timerCounter (rtcMs (rtcSetup s))

-- ---------------------------------------------------------------------------
-- The exact conversions
-- ---------------------------------------------------------------------------

/-- The quotient rounded up. -/
def ceilDiv (n d : Nat) : Nat := (n + d - 1) / d

def exactTicks (ms : Nat) : Nat :=
  ceilDiv (ceilDiv (ms * pmtimerHz) pitTickInterval) (1000 * pmtimerToPit)

def exactMs (ticks : Nat) : Nat := ceilDiv (pitTickInterval * 1000 * pmtimerToPit * ticks) pmtimerHz

theorem ceilDiv_mono (d : Nat) (h : n ≤ m) : ceilDiv n d ≤ ceilDiv m d :=
  Nat.div_le_div_right (Nat.sub_le_sub_right (Nat.add_le_add_right h d) 1)

theorem exactTicks_mono (h : ms ≤ ms') : exactTicks ms ≤ exactTicks ms' :=
  ceilDiv_mono _ (ceilDiv_mono _ (Nat.mul_le_mul_right _ h))

/-- The last time of day without an overflow, 21:50:34.234. -/
def lastMs : Nat := 78634234

theorem ticksFromMs_eq (h : ms < 86400000) :
    ticksFromMs ms =
      u32 (ceilDiv (ms * pmtimerHz) pitTickInterval + 1000 * pmtimerToPit - 1) /
        (1000 * pmtimerToPit) := by
  have h64 : u64 (ms * pmtimerHz + pitTickInterval - 1) = ms * pmtimerHz + pitTickInterval - 1 :=
    u64_eq (by unfold pmtimerHz pitTickInterval; omega)
  simp only [ticksFromMs, divRoundUp32, divRoundUp64, h64, ceilDiv]
  generalize (ms * pmtimerHz + pitTickInterval - 1) / pitTickInterval = x
  simp only [u32, pmtimerToPit]
  omega

theorem ticksFromMs_exact_iff (h : ms < 86400000) :
    ticksFromMs ms = exactTicks ms ↔ ms ≤ lastMs := by
  rw [ticksFromMs_eq h]
  simp only [exactTicks, ceilDiv, u32, pmtimerHz, pitTickInterval, pmtimerToPit, lastMs]
  omega

theorem timerCounter_eq (h : ms ≤ lastMs) : timerCounter ms = exactTicks ms := by
  have hday : ms < 86400000 := Nat.lt_of_le_of_lt h (by decide)
  have hlt : exactTicks ms < ticksPerDay :=
    Nat.lt_of_le_of_lt (exactTicks_mono h) (by decide)
  rw [timerCounter, (ticksFromMs_exact_iff hday).mpr h, Nat.mod_eq_of_lt hlt]

theorem ticksToMs_exact_iff (h : ticks < 2 ^ 32) :
    ticksToMs ticks = exactMs ticks ↔ ticks ≤ 21 := by
  simp only [ticksToMs, exactMs, divRoundUp32, ceilDiv, u32, pmtimerHz, pitTickInterval,
    pmtimerToPit]
  omega

/-- What the conversions should do at a time of day. -/
structure TicksRight (ms : Nat) : Prop where
  exact : ticksFromMs ms = exactTicks ms
  monotone : ∀ ms' ≤ ms, timerCounter ms' ≤ timerCounter ms
  day : timerCounter ms < ticksPerDay

/-- The conversion from milliseconds is right until 21:50:34.234. The one to
milliseconds is right for up to 21 ticks, and asked for 2. -/
theorem ticks_iff (hms : ms < 86400000) (hticks : ticks < 2 ^ 32) :
    (TicksRight ms ↔ ms ≤ lastMs) ∧ (ticksToMs ticks = exactMs ticks ↔ ticks ≤ 21) := by
  refine ⟨⟨fun h => (ticksFromMs_exact_iff hms).mp h.exact, fun h => ?_⟩,
    ticksToMs_exact_iff hticks⟩
  refine ⟨(ticksFromMs_exact_iff hms).mpr h, fun ms' hle => ?_, Nat.mod_lt _ (by decide)⟩
  rw [timerCounter_eq h, timerCounter_eq (Nat.le_trans hle h)]
  exact exactTicks_mono hle

theorem ticks_iff_noon :
    (TicksRight 43200000 ↔ 43200000 ≤ lastMs) ∧ (ticksToMs 2 = exactMs 2 ↔ 2 ≤ 21) :=
  ticks_iff (by decide) (by decide)

/-- At 22:00 the count is that of some nine minutes past midnight. -/
theorem ticksFromMs_evening :
    ticksFromMs 79200000 = 10300 ∧ exactTicks 79200000 = 1441956 ∧
      timerCounter 79200000 < timerCounter 43200000 := by
  decide

end ItxLlama.Seabios.Clock
