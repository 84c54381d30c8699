import Mathlib.Data.Nat.ModEq

/-!
# The internal timer

`timer_read` and `timer_check` of `hw/timer.c`: the bits that the PM timer and
channel 0 of the PIT lack are kept in `TimerLast`, which moves on by a period
whenever a reading is below the last one. That is a wrap of a counter that
counts up, as the PM timer does. In the mode that `pit_setup` programs, the PIT
counts down, and the time that passes is taken for the rest of the period.
-/

namespace ItxLlama.Seabios

def portPitCounter0 : Nat := 0x0040
def portPitMode : Nat := 0x0043

def pmSelTimer0 : BitVec 8 := 0 <<< 6
def pmAccessWord : BitVec 8 := 3 <<< 4
def pmMode2 : BitVec 8 := 2 <<< 1
def pmCntBinary : BitVec 8 := 0 <<< 0

-- ---------------------------------------------------------------------------
-- Channel 0 of the PIT
-- ---------------------------------------------------------------------------

structure Pit where
  mode : BitVec 3
  bcd : Bool
  low : Option (BitVec 8)
  initial : BitVec 16

/-- What a write to one of its ports does to channel 0, which takes the low
byte of the count first. -/
def Pit.outb (p : Pit) (value : BitVec 8) (port : Nat) : Pit :=
  if port = portPitMode then
    if value.extractLsb' 6 2 = 0 then
      { p with mode := value.extractLsb' 1 3, bcd := value.getLsbD 0, low := none }
    else p
  else if port = portPitCounter0 then
    match p.low with
    | none => { p with low := some value }
    | some low => { p with low := none, initial := value ++ low }
  else p

/-- The count `t` ticks after it was loaded, which modes 2 and 3 repeat. In mode 2
it goes down to 1, and an initial count of 0 stands for 65536. -/
def Pit.count (p : Pit) (t : Nat) : Option (BitVec 16) :=
  if p.mode = 2 ∧ p.bcd = false then
    let n := if p.initial = 0 then 2 ^ 16 else p.initial.toNat
    some (BitVec.ofNat 16 (n - t % n))
  else none

/-- Binary count, 16 bits, mode 2, with the maximum count. -/
def pitSetup (p : Pit) : Pit :=
  let p := p.outb (pmSelTimer0 ||| pmAccessWord ||| pmMode2 ||| pmCntBinary) portPitMode
  let p := p.outb 0 portPitCounter0
  p.outb 0 portPitCounter0

-- ---------------------------------------------------------------------------
-- Reading the timer
-- ---------------------------------------------------------------------------

/-- The variables of the timer, and what its counters give at each tick. -/
structure Timers where
  timerPort : Nat
  shiftTsc : Nat
  rdtscll : Nat → BitVec 64
  inl : Nat → BitVec 32
  latch : Nat → BitVec 16

/-- The extended value, which is also the new `TimerLast`. -/
def timerAdjustBits (last value validbits : BitVec 32) : BitVec 32 :=
  let value := (last &&& ~~~validbits) ||| (value &&& validbits)
  if value < last then value + (validbits + 1) else value

/-- The value and `TimerLast` after a read at tick `t`. -/
def timerRead (h : Timers) (last : BitVec 32) (t : Nat) : BitVec 32 × BitVec 32 :=
  if h.timerPort = 0 then ((h.rdtscll t >>> h.shiftTsc).setWidth 32, last)
  else if h.timerPort ≠ portPitCounter0 then
    let value := timerAdjustBits last (h.inl t) 0xffffff
    (value, value)
  else
    let low := (h.latch t).extractLsb' 0 8
    let high := (h.latch t).extractLsb' 8 8
    let v := low.setWidth 16 ||| (high.setWidth 16 <<< 8)
    let value := timerAdjustBits last (v.setWidth 32) 0xffff
    (value, value)

def timerCheck (h : Timers) (last : BitVec 32) (t : Nat) (fin : BitVec 32) : Bool × BitVec 32 :=
  let (value, last) := timerRead h last t
  ((value - fin).toInt > 0, last)

/-- `TimerLast` before the read `i` of those at `times`. -/
def timerLast (h : Timers) (last : BitVec 32) (times : Nat → Nat) : Nat → BitVec 32
  | 0 => last
  | i + 1 => (timerRead h (timerLast h last times i) (times i)).2

def reading (h : Timers) (last : BitVec 32) (times : Nat → Nat) (i : Nat) : BitVec 32 :=
  (timerRead h (timerLast h last times i) (times i)).1

/-- The counters with fewer than 32 bits. -/
inductive TimerSource
  | pm
  | pit

def TimerSource.bits : TimerSource → Nat
  | .pm => 24
  | .pit => 16

/-- The timer reads such a counter: the low 24 bits of the PM timer count up, the PIT is as
`pit_setup` left it. -/
def Timers.Uses (h : Timers) : TimerSource → Prop
  | .pm => h.timerPort ≠ 0 ∧ h.timerPort ≠ portPitCounter0 ∧
      ∃ start, ∀ t, (h.inl t).toNat % 2 ^ 24 = (start + t) % 2 ^ 24
  | .pit => h.timerPort = portPitCounter0 ∧
      ∃ p start, ∀ t, some (h.latch t) = (pitSetup p).count (start + t)

-- ---------------------------------------------------------------------------
-- The extension
-- ---------------------------------------------------------------------------

def lowMask (n : Nat) : BitVec 32 := BitVec.ofNat 32 (2 ^ n - 1)

theorem splice_eq (n : Nat) (last v : BitVec 32) :
    (last &&& ~~~lowMask n) ||| (v &&& lowMask n) =
      BitVec.ofNat 32 (2 ^ n * (last.toNat / 2 ^ n) + v.toNat % 2 ^ n) := by
  have hmod : v.toNat % 2 ^ n < 2 ^ n := Nat.mod_lt _ (Nat.two_pow_pos n)
  apply BitVec.eq_of_getLsbD_eq
  intro i hi
  simp only [lowMask, BitVec.getLsbD_or, BitVec.getLsbD_and, BitVec.getLsbD_not,
    BitVec.getLsbD_ofNat, Nat.testBit_two_pow_sub_one, Nat.testBit_two_pow_mul_add _ hmod,
    Nat.testBit_mod_two_pow, Nat.testBit_div_two_pow, hi, decide_true, Bool.true_and]
  by_cases h : i < n
  · simp [h, BitVec.testBit_toNat]
  · simp [h, Nat.sub_add_cancel (Nat.le_of_not_lt h), BitVec.testBit_toNat]

theorem splice_toNat (hn : n < 32) (last v : BitVec 32) :
    ((last &&& ~~~lowMask n) ||| (v &&& lowMask n)).toNat =
      2 ^ n * (last.toNat / 2 ^ n) + v.toNat % 2 ^ n := by
  have hmod : v.toNat % 2 ^ n < 2 ^ n := Nat.mod_lt _ (Nat.two_pow_pos n)
  have hpow : 2 ^ n * 2 ^ (32 - n) = 2 ^ 32 := by
    rw [← Nat.pow_add, Nat.add_sub_cancel' (Nat.le_of_lt hn)]
  have hdiv : last.toNat / 2 ^ n < 2 ^ (32 - n) := by
    apply Nat.div_lt_of_lt_mul
    rw [hpow]
    exact last.isLt
  have hle := Nat.mul_le_mul_left (2 ^ n) (Nat.succ_le_of_lt hdiv)
  rw [hpow, Nat.mul_succ] at hle
  rw [splice_eq, BitVec.toNat_ofNat, Nat.mod_eq_of_lt (by omega)]

/-- A reading that is `d` past the last one modulo the period moves the value on by `d`. -/
theorem timerAdjustBits_eq (hn : n < 32) (hd : d < 2 ^ n)
    (h : v.toNat ≡ last.toNat + d [MOD 2 ^ n]) :
    timerAdjustBits last v (lowMask n) = last + BitVec.ofNat 32 d := by
  have hpos := Nat.two_pow_pos n
  have hmask : lowMask n + 1 = BitVec.ofNat 32 (2 ^ n) := by
    rw [lowMask, show (1 : BitVec 32) = BitVec.ofNat 32 1 from rfl, ← BitVec.ofNat_add,
      Nat.sub_add_cancel hpos]
  have hsplit := Nat.div_add_mod last.toNat (2 ^ n)
  have hlow := Nat.mod_lt last.toNat hpos
  have hmod : v.toNat % 2 ^ n = (last.toNat % 2 ^ n + d) % 2 ^ n := by
    rw [Nat.mod_add_mod]
    exact h
  have hvalue := splice_toNat hn last v
  rw [hmod] at hvalue
  simp only [timerAdjustBits, hmask, BitVec.lt_def]
  generalize (last &&& ~~~lowMask n) ||| (v &&& lowMask n) = value at hvalue ⊢
  apply BitVec.eq_of_toNat_eq
  by_cases hw : last.toNat % 2 ^ n + d < 2 ^ n
  · rw [Nat.mod_eq_of_lt hw] at hvalue
    have hlast : value.toNat = last.toNat + d := by omega
    rw [if_neg (by omega), BitVec.toNat_add, BitVec.toNat_ofNat, Nat.add_mod_mod, ← hlast,
      Nat.mod_eq_of_lt value.isLt]
  · rw [Nat.mod_eq_sub_mod (Nat.le_of_not_lt hw), Nat.mod_eq_of_lt (by omega)] at hvalue
    have hlast : value.toNat + 2 ^ n = last.toNat + d := by omega
    rw [if_pos (by omega), BitVec.toNat_add, BitVec.toNat_add, BitVec.toNat_ofNat,
      BitVec.toNat_ofNat, Nat.add_mod_mod, Nat.add_mod_mod, hlast]

theorem timerAdjustBits_mod (hn : n < 32) (last v : BitVec 32) :
    (timerAdjustBits last v (lowMask n)).toNat ≡ v.toNat [MOD 2 ^ n] := by
  have hpos := Nat.two_pow_pos n
  obtain ⟨d, hd, h⟩ : ∃ d < 2 ^ n, v.toNat ≡ last.toNat + d [MOD 2 ^ n] := by
    refine ⟨(v.toNat + (2 ^ n - last.toNat % 2 ^ n)) % 2 ^ n, Nat.mod_lt _ hpos, ?_⟩
    have hlow := Nat.mod_lt last.toNat hpos
    have hsum : last.toNat % 2 ^ n + (v.toNat + (2 ^ n - last.toNat % 2 ^ n)) = v.toNat + 2 ^ n := by
      omega
    calc v.toNat ≡ v.toNat + 2 ^ n [MOD 2 ^ n] := Nat.add_modEq_right.symm
      _ = last.toNat % 2 ^ n + (v.toNat + (2 ^ n - last.toNat % 2 ^ n)) := hsum.symm
      _ ≡ last.toNat + (v.toNat + (2 ^ n - last.toNat % 2 ^ n)) % 2 ^ n [MOD 2 ^ n] :=
        (Nat.mod_modEq _ _).add (Nat.mod_modEq _ _).symm
  rw [timerAdjustBits_eq hn hd h, BitVec.toNat_add, BitVec.toNat_ofNat, Nat.add_mod_mod]
  refine Nat.ModEq.trans ?_ h.symm
  exact (Nat.mod_modEq _ (2 ^ 32)).of_dvd (Nat.pow_dvd_pow 2 (Nat.le_of_lt hn))

-- ---------------------------------------------------------------------------
-- Readings
-- ---------------------------------------------------------------------------

/-- How far a counter's reading moves up, modulo its period, in `d` ticks. -/
def TimerSource.gain : TimerSource → Nat → Nat
  | .pm, d => d
  | .pit, d => (2 ^ 16 - d) % 2 ^ 16

theorem pitSetup_count (p : Pit) (t : Nat) :
    (pitSetup p).count t = some (BitVec.ofNat 16 (2 ^ 16 - t % 2 ^ 16)) := by
  have hp : (pitSetup p).mode = 2 ∧ (pitSetup p).bcd = false ∧ (pitSetup p).initial = 0 := by
    cases p
    exact ⟨rfl, rfl, rfl⟩
  simp [Pit.count, hp]

theorem latch_bytes (x : BitVec 16) :
    (x.extractLsb' 0 8).setWidth 16 ||| ((x.extractLsb' 8 8).setWidth 16 <<< 8) = x := by
  apply BitVec.eq_of_getLsbD_eq
  intro i hi
  by_cases h : i < 8
  · simp [h, hi]
  · simp [h, hi, Nat.add_sub_cancel' (Nat.le_of_not_lt h)]
    omega

theorem timerRead_uses (huse : h.Uses src) : ∃ raw : Nat → BitVec 32,
    (∀ last t, timerRead h last t = (timerAdjustBits last (raw t) (lowMask src.bits),
      timerAdjustBits last (raw t) (lowMask src.bits))) ∧
    ∀ t, ∀ d < 2 ^ src.bits,
      (raw (t + d)).toNat ≡ (raw t).toNat + src.gain d [MOD 2 ^ src.bits] := by
  cases src with
  | pm =>
    obtain ⟨h0, hpit, start, hcount⟩ := huse
    refine ⟨h.inl, fun last t => ?_, fun t d hd => ?_⟩
    · simp [timerRead, h0, hpit]
      rfl
    · have : (start + (t + d)) ≡ start + t + d [MOD 2 ^ 24] := by rw [Nat.add_assoc]
      exact (hcount (t + d)).trans (this.trans (Nat.ModEq.add_right d (hcount t).symm))
  | pit =>
    obtain ⟨hport, p, start, hcount⟩ := huse
    refine ⟨fun t => (h.latch t).setWidth 32, fun last t => ?_, fun t d hd => ?_⟩
    · simp only [timerRead, hport, latch_bytes]
      simp [portPitCounter0]
      rfl
    · have hlatch (t : Nat) : (h.latch t).toNat = (2 ^ 16 - (start + t) % 2 ^ 16) % 2 ^ 16 := by
        have := hcount t
        rw [pitSetup_count] at this
        rw [Option.some.inj this, BitVec.toNat_ofNat]
      simp only [BitVec.toNat_setWidth, hlatch, TimerSource.gain, TimerSource.bits, Nat.ModEq] at *
      omega

-- ---------------------------------------------------------------------------
-- Runs
-- ---------------------------------------------------------------------------

/-- The first `n` reads are less than a period apart. -/
def Spaced (src : TimerSource) (times : Nat → Nat) (n : Nat) : Prop :=
  ∀ i, i + 1 < n → times i ≤ times (i + 1) ∧ times (i + 1) < times i + 2 ^ src.bits

/-- What the first `n` reads should give; `early` is about deadlines `diff` after a read. -/
structure TimerRight (h : Timers) (last : BitVec 32) (times : Nat → Nat) (n : Nat)
    (diff : BitVec 32) : Prop where
  ticks : ∀ i, i + 1 < n → reading h last times (i + 1) - reading h last times i =
    BitVec.ofNat 32 (times (i + 1) - times i)
  early : ∀ i j, i < j → j < n →
    (timerCheck h (timerLast h last times j) (times j) (reading h last times i + diff)).1 = true →
    diff.toNat ≤ times j - times i
  back : ∀ i, i + 1 < n → 0 ≤ (reading h last times (i + 1) - reading h last times i).toInt

theorem TimerSource.gain_lt (hd : d < 2 ^ bits src) : gain src d < 2 ^ bits src := by
  cases src with
  | pm => exact hd
  | pit => exact Nat.mod_lt _ (by decide)

theorem reading_succ (huse : h.Uses src) (hle : times i ≤ times (i + 1))
    (hlt : times (i + 1) < times i + 2 ^ src.bits) :
    reading h last times (i + 1) - reading h last times i =
      BitVec.ofNat 32 (src.gain (times (i + 1) - times i)) := by
  obtain ⟨raw, hread, hraw⟩ := timerRead_uses huse
  have hbits : src.bits < 32 := by cases src <;> decide
  have hd : times (i + 1) - times i < 2 ^ src.bits := by omega
  have hlast : timerLast h last times (i + 1) = reading h last times i := by
    rw [timerLast, reading, hread]
  have hlow : (reading h last times i).toNat ≡ (raw (times i)).toNat [MOD 2 ^ src.bits] := by
    rw [reading, hread]
    exact timerAdjustBits_mod hbits _ _
  have hstep := hraw (times i) _ hd
  rw [Nat.add_sub_cancel' hle] at hstep
  have hnext : reading h last times (i + 1) =
      reading h last times i + BitVec.ofNat 32 (src.gain (times (i + 1) - times i)) := by
    rw [reading, hlast, hread]
    exact timerAdjustBits_eq hbits (TimerSource.gain_lt hd) (hstep.trans (hlow.symm.add_right _))
  rw [hnext, BitVec.add_comm, BitVec.add_sub_cancel]

theorem TimerSource.gain_eq_iff (hd : d < 2 ^ bits src) :
    gain src d = d ↔ (src = .pit → d = 0 ∨ d = 2 ^ 15) := by
  cases src with
  | pm => simp [gain]
  | pit =>
    simp only [gain, bits, forall_const] at *
    omega

theorem reading_ticks_iff (huse : h.Uses src) (hle : times i ≤ times (i + 1))
    (hlt : times (i + 1) < times i + 2 ^ src.bits) :
    reading h last times (i + 1) - reading h last times i =
      BitVec.ofNat 32 (times (i + 1) - times i) ↔
    (src = .pit → times (i + 1) - times i = 0 ∨ times (i + 1) - times i = 2 ^ 15) := by
  have hd : times (i + 1) - times i < 2 ^ src.bits := by omega
  have hgain := TimerSource.gain_lt hd
  have hbits : 2 ^ src.bits < 2 ^ 32 := by cases src <;> decide
  rw [reading_succ huse hle hlt, ← TimerSource.gain_eq_iff hd, ← BitVec.toNat_inj,
    BitVec.toNat_ofNat, BitVec.toNat_ofNat, Nat.mod_eq_of_lt (by omega),
    Nat.mod_eq_of_lt (by omega)]

theorem reading_ticks (hle : ∀ i, i + 1 < n → times i ≤ times (i + 1))
    (h : ∀ i, i + 1 < n → reading t last times (i + 1) - reading t last times i =
      BitVec.ofNat 32 (times (i + 1) - times i)) (hij : i ≤ j) (hj : j < n) :
    times i ≤ times j ∧ reading t last times j - reading t last times i =
      BitVec.ofNat 32 (times j - times i) := by
  induction j, hij using Nat.le_induction with
  | base => simp
  | succ j hij ih =>
    obtain ⟨hle', ih⟩ := ih (Nat.lt_of_succ_lt hj)
    have hstep := hle j hj
    refine ⟨Nat.le_trans hle' hstep, ?_⟩
    rw [show times (j + 1) - times i = (times (j + 1) - times j) + (times j - times i) by omega,
      BitVec.ofNat_add, ← h j hj, ← ih]
    grind

/-- A check is early just when the deadline is more than `2 ^ 31` ticks away. -/
theorem check_early_iff (e : Nat) (diff : BitVec 32) :
    ((BitVec.ofNat 32 e - diff).toInt > 0 → diff.toNat ≤ e) ↔ diff.toNat ≤ 2 ^ 31 + e := by
  have hdiff := diff.isLt
  by_cases he : diff.toNat ≤ e
  · exact ⟨fun _ => by omega, fun _ _ => he⟩
  have hsub : (BitVec.ofNat 32 e - diff).toNat = 2 ^ 32 - (diff.toNat - e) := by
    rw [BitVec.toNat_sub, BitVec.toNat_ofNat]
    omega
  rw [BitVec.toInt_eq_toNat_cond, hsub]
  split <;> omega

/-- The reads extend the PM timer right. They extend the PIT right only if each is half a period
after the one before it or at the same tick. A deadline more than `2 ^ 31` ticks away has passed. -/
theorem timerRead_iff (huse : h.Uses src) (hs : Spaced src times n) (last diff : BitVec 32) :
    TimerRight h last times n diff ↔
      (src = .pit → ∀ i, i + 1 < n →
        times (i + 1) - times i = 0 ∨ times (i + 1) - times i = 2 ^ 15) ∧
      ∀ i j, i < j → j < n → diff.toNat ≤ 2 ^ 31 + (times j - times i) := by
  have hearly (ht : ∀ i, i + 1 < n → reading h last times (i + 1) - reading h last times i =
      BitVec.ofNat 32 (times (i + 1) - times i)) (i j : Nat) (hij : i < j) (hj : j < n) :
      ((timerCheck h (timerLast h last times j) (times j) (reading h last times i + diff)).1 =
        true → diff.toNat ≤ times j - times i) ↔ diff.toNat ≤ 2 ^ 31 + (times j - times i) := by
    have hsum := (reading_ticks (fun i hi => (hs i hi).1) ht (Nat.le_of_lt hij) hj).2
    have hvalue : (timerCheck h (timerLast h last times j) (times j)
        (reading h last times i + diff)).1 =
        decide ((BitVec.ofNat 32 (times j - times i) - diff).toInt > 0) := by
      rw [← hsum, BitVec.sub_sub]
      rfl
    rw [hvalue, decide_eq_true_iff, check_early_iff]
  constructor
  · intro hr
    refine ⟨fun hpit i hi => ?_,
      fun i j hij hj => (hearly hr.ticks i j hij hj).mp (hr.early i j hij hj)⟩
    exact (reading_ticks_iff huse (hs i hi).1 (hs i hi).2).mp (hr.ticks i hi) hpit
  · rintro ⟨hpit, hdiff⟩
    have ht : ∀ i, i + 1 < n → reading h last times (i + 1) - reading h last times i =
        BitVec.ofNat 32 (times (i + 1) - times i) := fun i hi =>
      (reading_ticks_iff huse (hs i hi).1 (hs i hi).2).mpr fun h => hpit h i hi
    refine ⟨ht, fun i j hij hj => (hearly ht i j hij hj).mpr (hdiff i j hij hj), fun i hi => ?_⟩
    have hbits : 2 ^ src.bits ≤ 2 ^ 24 := by cases src <;> decide
    have hlt := (hs i hi).2
    rw [ht i hi, BitVec.toInt_eq_toNat_cond, BitVec.toNat_ofNat]
    split <;> omega

/-- A PIT that has just been set up. -/
def pitTimers : Timers :=
  ⟨portPitCounter0, 0, fun _ => 0, fun _ => 0, fun t => BitVec.ofNat 16 (2 ^ 16 - t % 2 ^ 16)⟩

theorem pitTimers_uses : pitTimers.Uses .pit :=
  ⟨rfl, ⟨0, false, none, 0⟩, 0, fun t => by rw [pitSetup_count, Nat.zero_add]; rfl⟩

theorem timerRead_iff_pit :
    TimerRight pitTimers 0 (fun i => 2 ^ 15 * i) 3 1000 ↔
      (TimerSource.pit = .pit → ∀ i, i + 1 < 3 →
        2 ^ 15 * (i + 1) - 2 ^ 15 * i = 0 ∨ 2 ^ 15 * (i + 1) - 2 ^ 15 * i = 2 ^ 15) ∧
      ∀ i j, i < j → j < 3 → (1000 : BitVec 32).toNat ≤ 2 ^ 31 + (2 ^ 15 * j - 2 ^ 15 * i) :=
  timerRead_iff pitTimers_uses (fun i hi => by simp only [TimerSource.bits]; omega) 0 1000

/-- One tick after a read the PIT's value is 65535 more. -/
theorem timerRead_pit_next : ¬ ∀ (h : Timers) (src : TimerSource) (times : Nat → Nat) (n : Nat)
    (last diff : BitVec 32), h.Uses src → Spaced src times n →
    (∀ i j, i < j → j < n → diff.toNat ≤ 2 ^ 31 + (times j - times i)) →
    TimerRight h last times n diff := by
  intro hall
  have hright := hall pitTimers .pit id 2 0 0 pitTimers_uses
    (fun i hi => by simp only [TimerSource.bits, id]; omega) (fun i j _ _ => Nat.zero_le _)
  have := hright.ticks 0 (by decide)
  exact absurd this (by decide)

end ItxLlama.Seabios
