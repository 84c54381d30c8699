import Mathlib.Data.BitVec
import Mathlib.Data.Fin.VecNotation
import Mathlib.Logic.Function.Basic
import Mathlib.Tactic.FinCases

/-!
# Repair of the clock

How `fix_cmos_rtc_time` reads the clock while it ticks, and what it does with
an invalid date. Instants are counted by the reads of `cmos_read`. What the
arrays hold before they are written comes as an argument.
-/

namespace ItxLlama.Coreboot.CmosRtc

inductive Reg where
  | clkSecond
  | clkMinute
  | clkHour
  | clkDayOfWeek
  | clkDayOfMonth
  | clkMonth
  | clkYear
  | clkAltCentury
  | regA
  | regB
  deriving DecidableEq, Repr

abbrev Cmos := Reg → BitVec 8

/-- `u8 rtc[7]` -/
abbrev Rtc := Fin 7 → BitVec 8

def rtcUip : BitVec 8 := 0x80

def getRtcUpdateInProgress (cmos : Cmos) : Bool := cmos .regA &&& rtcUip != 0

/-- The registers in the order of the array. -/
def rtcReg : Fin 7 → Reg :=
  ![.clkAltCentury, .clkYear, .clkMonth, .clkDayOfMonth, .clkHour, .clkMinute, .clkSecond]

def unsafeReadCmosRtc (cmos : Nat → Cmos) (t : Nat) : Rtc := fun i => cmos (t + i) (rtcReg i)

/-- The instants after `unsafe_read_cmos_rtc`. -/
def afterRead (t : Nat) : Nat := t + 7

/-- `while (get_rtc_update_in_progress()) ;` -/
def waitUpdate (cmos : Nat → Cmos) : (fuel t : Nat) → Option Nat
  | 0, _ => none
  | fuel + 1, t =>
    if getRtcUpdateInProgress (cmos t) then waitUpdate cmos fuel (t + 1) else some (t + 1)

def readAgain (cmos : Nat → Cmos) : (fuel t : Nat) → (rtcNew : Rtc) → Option Rtc
  | 0, _, _ => none
  | fuel + 1, t, rtcOld =>
    match waitUpdate cmos (fuel + 1) t with
    | none => none
    | some t =>
      let rtcNew := unsafeReadCmosRtc cmos t
      if rtcNew ≠ rtcOld then readAgain cmos fuel (afterRead t) rtcNew else some rtcNew

/-- The loop of `read_cmos_rtc`, and `rtc_new` at its end. -/
def scanCmosRtc (cmos : Nat → Cmos) (fuel : Nat) : Option Rtc :=
  match waitUpdate cmos fuel 0 with
  | none => none
  | some t => readAgain cmos fuel (afterRead t) (unsafeReadCmosRtc cmos t)

/-- Both scans are local: nothing is stored to `rtc`. -/
def readCmosRtc (cmos : Nat → Cmos) (fuel : Nat) (rtc : Rtc) : Option Rtc :=
  (scanCmosRtc cmos fuel).map fun _ => rtc

def bcd2dec (bcd : BitVec 8) : Nat :=
  let h := (bcd >>> 4).toNat
  let l := (bcd &&& 0xf).toNat
  if h > 9 ∨ l > 9 then 255 else h * 10 + l

/-- The accesses to the two arrays of `fix_cmos_rtc_time`. -/
inductive Access where
  | rtc (i : Nat)
  | binRtc (i : Nat)
  deriving DecidableEq, Repr

def Access.index : Access → Nat
  | rtc i => i
  | binRtc i => i

/-- What `fix_cmos_rtc_time` does once it has the clock. -/
structure Fix where
  accesses : List Access
  writes : List (Reg × BitVec 8)

/-- The default date 2008/08/08 08:08:08 -/
def repair : List (Reg × BitVec 8) :=
  [(.regA, 0x26), (.regB, 0x02),
   (.clkSecond, 0x8), (.clkMinute, 0x8), (.clkHour, 0x8), (.clkDayOfWeek, 0x6),
   (.clkDayOfMonth, 0x8), (.clkMonth, 0x8), (.clkYear, 0x8), (.clkAltCentury, 0x20)]

/-- The accesses of the test, which stops at the first number out of range. -/
def testAccesses (binRtc : Nat → Nat) : List Access :=
  .binRtc 0 :: if binRtc 0 > 99 then [] else
  .binRtc 1 :: if binRtc 1 > 99 then [] else
  .binRtc 2 :: if binRtc 2 > 12 then [] else [.binRtc 3]

/-- The loop that converts the array, and the test; `past` is the byte behind
`rtc`. -/
def fixCmosRtc (rtc : Rtc) (past : BitVec 8) : Fix :=
  let at' (i : Nat) : BitVec 8 := if h : i < 7 then rtc ⟨i, h⟩ else past
  let binRtc (i : Nat) : Nat := bcd2dec (at' i)
  { accesses := (List.range 8).flatMap (fun i => [.rtc i, .binRtc i]) ++ testAccesses binRtc
    writes := if binRtc 0 > 99 ∨ binRtc 1 > 99 ∨ binRtc 2 > 12 ∨ binRtc 3 > 31 then repair else [] }

/-- `rtc` is what the array holds before the call of `read_cmos_rtc`. -/
def fixCmosRtcTime (cmos : Nat → Cmos) (fuel : Nat) (rtc : Rtc) (past : BitVec 8) : Option Fix :=
  (readCmosRtc cmos fuel rtc).map fun rtc => fixCmosRtc rtc past

def cmosWrites (writes : List (Reg × BitVec 8)) (cmos : Cmos) : Cmos :=
  writes.foldl (fun cmos w => Function.update cmos w.1 w.2) cmos

-- ---------------------------------------------------------------------------
-- What the repair is for
-- ---------------------------------------------------------------------------

def clockAt (cmos : Nat → Cmos) (t : Nat) : Rtc := fun i => cmos t (rtcReg i)

inductive ScanAt (cmos : Nat → Cmos) : Nat → Prop
  | first (h : waitUpdate cmos fuel 0 = some t) : ScanAt cmos t
  | next (h : ScanAt cmos t) (hwait : waitUpdate cmos fuel (afterRead t) = some t') : ScanAt cmos t'

/-- The clock changes once at most. -/
def OneUpdate (cmos : Nat → Cmos) (first last : Nat) : Prop :=
  ∃ m, (∀ t, first ≤ t → t ≤ last → t < m → clockAt cmos t = clockAt cmos first) ∧
    ∀ t, first ≤ t → t ≤ last → m ≤ t → clockAt cmos t = clockAt cmos last

/-- At most one update during any two successive scans. -/
def UpdatesApart (cmos : Nat → Cmos) : Prop :=
  ∀ t t' fuel, ScanAt cmos t → waitUpdate cmos fuel (afterRead t) = some t' →
    OneUpdate cmos t (t' + 6)

def IsBcd (b : BitVec 8) : Prop := (b >>> 4).toNat ≤ 9 ∧ (b &&& 0xf).toNat ≤ 9

instance (b : BitVec 8) : Decidable (IsBcd b) := inferInstanceAs (Decidable (_ ∧ _))

/-- A number of two digits between two bounds. -/
def BcdWithin (lo hi : Nat) (b : BitVec 8) : Prop :=
  IsBcd b ∧ lo ≤ 10 * (b >>> 4).toNat + (b &&& 0xf).toNat ∧
    10 * (b >>> 4).toNat + (b &&& 0xf).toNat ≤ hi

instance (lo hi : Nat) (b : BitVec 8) : Decidable (BcdWithin lo hi b) :=
  inferInstanceAs (Decidable (_ ∧ _))

def ValidDate (rtc : Rtc) : Prop :=
  IsBcd (rtc 0) ∧ IsBcd (rtc 1) ∧ BcdWithin 1 12 (rtc 2) ∧ BcdWithin 1 31 (rtc 3)

instance (rtc : Rtc) : Decidable (ValidDate rtc) := inferInstanceAs (Decidable (_ ∧ _))

def ValidTime (rtc : Rtc) : Prop :=
  BcdWithin 0 23 (rtc 4) ∧ BcdWithin 0 59 (rtc 5) ∧ BcdWithin 0 59 (rtc 6)

instance (rtc : Rtc) : Decidable (ValidTime rtc) := inferInstanceAs (Decidable (_ ∧ _))

def Snapshot (cmos : Nat → Cmos) (rtc : Rtc) : Prop := ∃ t, rtc = clockAt cmos t

def InBounds (fix : Fix) : Prop := ∀ a ∈ fix.accesses, a.index < 7

/-- A clock with a valid date is left alone. -/
def Unwritten (clock : Rtc) (fix : Fix) : Prop := ValidDate clock → fix.writes = []

/-- The registers after the writes, whatever they held before but for the
clock. -/
def Repaired (clock : Rtc) (fix : Fix) : Prop :=
  ¬ ValidDate clock → ∀ cmos : Cmos, (fun i => cmos (rtcReg i)) = clock →
    ValidDate (fun i => cmosWrites fix.writes cmos (rtcReg i)) ∧
      ValidTime fun i => cmosWrites fix.writes cmos (rtcReg i)

/-- What is asked of the bytes that are returned, and of what is done with
them to the clock. -/
structure FixRight (cmos : Nat → Cmos) (clock rtc : Rtc) (fix : Fix) : Prop where
  snapshot : Snapshot cmos rtc
  inBounds : InBounds fix
  unwritten : Unwritten clock fix
  repaired : Repaired clock fix

/-- Whenever `read_cmos_rtc` returns; the clock is the one that its last scan
found. -/
def RepairRight (cmos : Nat → Cmos) (before : Rtc) (past : BitVec 8) : Prop :=
  ∀ fuel clock rtc fix, scanCmosRtc cmos fuel = some clock →
    readCmosRtc cmos fuel before = some rtc →
    fixCmosRtcTime cmos fuel before past = some fix → FixRight cmos clock rtc fix

/-- `read_cmos_rtc` never returns. -/
def Stuck (cmos : Nat → Cmos) : Prop := ∀ fuel rtc, readCmosRtc cmos fuel rtc = none

/-- What the test lets pass. It has no lower bound for month and day. -/
def Passes (rtc : Rtc) : Prop :=
  IsBcd (rtc 0) ∧ IsBcd (rtc 1) ∧ BcdWithin 0 12 (rtc 2) ∧ BcdWithin 0 31 (rtc 3)

instance (rtc : Rtc) : Decidable (Passes rtc) := inferInstanceAs (Decidable (_ ∧ _))

-- ---------------------------------------------------------------------------
-- Reading
-- ---------------------------------------------------------------------------

section

variable {cmos : Nat → Cmos} {rtc : Rtc}

theorem waitUpdate_lt (h : waitUpdate cmos fuel t = some t') : t < t' := by
  induction fuel generalizing t with
  | zero => exact absurd h nofun
  | succ fuel ih =>
    rw [waitUpdate] at h
    split at h
    · exact (Nat.lt_succ_self t).trans (ih h)
    · exact Option.some.inj h ▸ Nat.lt_succ_self t

theorem readAgain_some (hscan : ScanAt cmos t)
    (h : readAgain cmos fuel (afterRead t) (unsafeReadCmosRtc cmos t) = some rtc) :
    ∃ s s' n, ScanAt cmos s ∧ waitUpdate cmos n (afterRead s) = some s' ∧
      rtc = unsafeReadCmosRtc cmos s ∧ rtc = unsafeReadCmosRtc cmos s' := by
  induction fuel generalizing t with
  | zero => exact absurd h nofun
  | succ fuel ih =>
    rw [readAgain] at h
    match hwait : waitUpdate cmos (fuel + 1) (afterRead t) with
    | none => exact absurd (hwait ▸ h) nofun
    | some t' =>
      rw [hwait] at h
      by_cases hsame : unsafeReadCmosRtc cmos t' = unsafeReadCmosRtc cmos t
      · have hrtc := Option.some.inj ((if_neg (not_not.mpr hsame)).symm.trans h)
        exact ⟨t, t', _, hscan, hwait, hrtc.symm.trans hsame, hrtc.symm⟩
      · exact ih (.next hscan hwait) ((if_pos hsame).symm.trans h)

theorem scanCmosRtc_some (h : scanCmosRtc cmos fuel = some rtc) :
    ∃ s s' n, ScanAt cmos s ∧ waitUpdate cmos n (afterRead s) = some s' ∧
      rtc = unsafeReadCmosRtc cmos s ∧ rtc = unsafeReadCmosRtc cmos s' := by
  rw [scanCmosRtc] at h
  match hwait : waitUpdate cmos fuel 0 with
  | none => exact absurd (hwait ▸ h) nofun
  | some t =>
    rw [hwait] at h
    exact readAgain_some (.first hwait) h

theorem scanCmosRtc_snapshot (hupdates : UpdatesApart cmos) (h : scanCmosRtc cmos fuel = some rtc) :
    Snapshot cmos rtc := by
  obtain ⟨s, s', n, hscan, hwait, hfirst, hsecond⟩ := scanCmosRtc_some h
  have hlt : s + 7 < s' := waitUpdate_lt hwait
  obtain ⟨m, hold, hnew⟩ := hupdates s s' n hscan hwait
  by_cases hm : m ≤ s'
  · refine ⟨s' + 6, hsecond.trans (funext fun i => ?_)⟩
    exact congrFun (hnew (s' + i) (by omega) (by omega) (by omega)) i
  · refine ⟨s, hfirst.trans (funext fun i => ?_)⟩
    exact congrFun (hold (s + i) (by omega) (by omega) (by omega)) i

-- ---------------------------------------------------------------------------
-- The test
-- ---------------------------------------------------------------------------

theorem bcd2dec_within (hhi : hi < 255) (b : BitVec 8) : BcdWithin 0 hi b ↔ ¬ bcd2dec b > hi := by
  simp only [BcdWithin, IsBcd, bcd2dec]
  split <;> omega

theorem bcd2dec_isBcd (b : BitVec 8) : IsBcd b ↔ ¬ bcd2dec b > 99 := by
  simp only [IsBcd, bcd2dec]
  split <;> omega

theorem fixCmosRtc_writes (rtc : Rtc) (past : BitVec 8) :
    (fixCmosRtc rtc past).writes = if Passes rtc then [] else repair := by
  have hpasses : Passes rtc ↔ ¬ (bcd2dec (rtc 0) > 99 ∨ bcd2dec (rtc 1) > 99 ∨
      bcd2dec (rtc 2) > 12 ∨ bcd2dec (rtc 3) > 31) := by
    rw [Passes, bcd2dec_isBcd, bcd2dec_isBcd,
      bcd2dec_within (by decide), bcd2dec_within (by decide),
      not_or, not_or, not_or]
  by_cases h : Passes rtc
  · rw [if_pos h]
    exact if_neg (hpasses.mp h)
  · rw [if_neg h]
    exact if_pos (not_not.mp (mt hpasses.mpr h))

theorem fixCmosRtc_unwritten (clock rtc : Rtc) (past : BitVec 8) :
    Unwritten clock (fixCmosRtc rtc past) ↔ (ValidDate clock → Passes rtc) := by
  rw [Unwritten, fixCmosRtc_writes]
  cases Decidable.em (Passes rtc) with
  | inl h => simp [h]
  | inr h =>
    have hrepair : repair ≠ [] := List.cons_ne_nil _ _
    simp [h, hrepair]

/-- The registers that hold a clock. -/
def cmosOf (rtc : Rtc) : Cmos
  | .clkAltCentury => rtc 0
  | .clkYear => rtc 1
  | .clkMonth => rtc 2
  | .clkDayOfMonth => rtc 3
  | .clkHour => rtc 4
  | .clkMinute => rtc 5
  | .clkSecond => rtc 6
  | _ => 0

theorem cmosOf_clock (rtc : Rtc) : (fun i => cmosOf rtc (rtcReg i)) = rtc := by
  funext i
  fin_cases i <;> rfl

theorem repair_clock (cmos : Cmos) :
    (fun i => cmosWrites repair cmos (rtcReg i)) = ![0x20, 0x8, 0x8, 0x8, 0x8, 0x8, 0x8] := by
  funext i
  fin_cases i <;> rfl

theorem fixCmosRtc_repaired (clock rtc : Rtc) (past : BitVec 8) :
    Repaired clock (fixCmosRtc rtc past) ↔ (¬ ValidDate clock → ¬ Passes rtc) := by
  rw [Repaired, fixCmosRtc_writes]
  constructor
  · intro h hinvalid hpasses
    rw [if_pos hpasses] at h
    have hdate : ValidDate fun i => cmosOf clock (rtcReg i) := (h hinvalid _ (cmosOf_clock clock)).1
    rw [cmosOf_clock] at hdate
    exact hinvalid hdate
  · intro hfails hinvalid cmos _
    rw [if_neg (hfails hinvalid), repair_clock]
    decide

/-- The loop comes to the place behind the arrays, whatever the clock holds. -/
theorem fixCmosRtc_outOfBounds (rtc : Rtc) (past : BitVec 8) :
    ¬ InBounds (fixCmosRtc rtc past) := by
  intro h
  have hpast : Access.rtc 7 ∈ (fixCmosRtc rtc past).accesses :=
    List.mem_append_left _ (by decide)
  exact absurd (h _ hpast) (by decide)

end

theorem readCmosRtc_eq_some :
    readCmosRtc cmos fuel before = some rtc ↔ (scanCmosRtc cmos fuel).isSome ∧ rtc = before := by
  unfold readCmosRtc
  cases scanCmosRtc cmos fuel <;> simp [eq_comm]

theorem fixCmosRtcTime_eq (h : scanCmosRtc cmos fuel = some clock) (before : Rtc) (past : BitVec 8)
    :
    fixCmosRtcTime cmos fuel before past = some (fixCmosRtc before past) := by
  simp [fixCmosRtcTime, readCmosRtc, h]

/-- The last scan is the clock at one instant, but the bytes that are returned
and tested are those that were in the array before, and a place behind it is
read. -/
theorem fixCmosRtcTime_right_iff (cmos : Nat → Cmos) (hupdates : UpdatesApart cmos) (before : Rtc)
    (past : BitVec 8) :
    (RepairRight cmos before past ↔ Stuck cmos) ∧
      ∀ fuel clock, scanCmosRtc cmos fuel = some clock → Snapshot cmos clock ∧
        readCmosRtc cmos fuel before = some before ∧
        ∃ fix, fixCmosRtcTime cmos fuel before past = some fix ∧ ¬ InBounds fix ∧
          (Unwritten clock fix ↔ (ValidDate clock → Passes before)) ∧
          (Repaired clock fix ↔ (¬ ValidDate clock → ¬ Passes before)) := by
  have hread (fuel : Nat) (clock : Rtc) (h : scanCmosRtc cmos fuel = some clock) :
      readCmosRtc cmos fuel before = some before :=
    readCmosRtc_eq_some.mpr ⟨by rw [h]; rfl, rfl⟩
  constructor
  · constructor
    · intro hright fuel rtc
      cases h : scanCmosRtc cmos fuel with
      | none => simp [readCmosRtc, h]
      | some clock =>
        have hfix := hright fuel clock before _ h (hread fuel clock h) (fixCmosRtcTime_eq h before past)
        exact absurd hfix.inBounds (fixCmosRtc_outOfBounds before past)
    · intro hstuck fuel clock rtc fix h
      have hsome := hread fuel clock h
      rw [hstuck fuel before] at hsome
      cases hsome
  · intro fuel clock h
    exact ⟨scanCmosRtc_snapshot hupdates h, hread fuel clock h, _, fixCmosRtcTime_eq h before past,
      fixCmosRtc_outOfBounds before past, fixCmosRtc_unwritten clock before past,
      fixCmosRtc_repaired clock before past⟩

/-- A clock that stands still. -/
def steady (rtc : Rtc) : Nat → Cmos := fun _ => cmosOf rtc

theorem steady_updatesApart (rtc : Rtc) : UpdatesApart (steady rtc) :=
  fun _ _ _ _ _ => ⟨0, fun _ _ _ _ => rfl, fun _ _ _ _ => rfl⟩

/-- The clock at 2024/01/01 00:00:00. -/
def newYear : Rtc := ![0x20, 0x24, 0x01, 0x01, 0x00, 0x00, 0x00]

/-- Bytes that are not those of any clock. -/
def stale : Rtc := fun _ => 0xff

theorem fixCmosRtcTime_right_iff_newYear :
    (RepairRight (steady newYear) stale 0 ↔ Stuck (steady newYear)) ∧
      scanCmosRtc (steady newYear) 1 = some newYear ∧ Snapshot (steady newYear) newYear ∧
        readCmosRtc (steady newYear) 1 stale = some stale ∧
        ∃ fix, fixCmosRtcTime (steady newYear) 1 stale 0 = some fix ∧ ¬ InBounds fix ∧
          (Unwritten newYear fix ↔ (ValidDate newYear → Passes stale)) ∧
          (Repaired newYear fix ↔ (¬ ValidDate newYear → ¬ Passes stale)) := by
  have hscan : scanCmosRtc (steady newYear) 1 = some newYear := by decide
  obtain ⟨hright, hruns⟩ :=
    fixCmosRtcTime_right_iff (steady newYear) (steady_updatesApart newYear) stale 0
  exact ⟨hright, hscan, hruns 1 newYear hscan⟩

/-- A valid date is overwritten with that of the repair. -/
theorem fixCmosRtcTime_newYear :
    ValidDate newYear ∧ scanCmosRtc (steady newYear) 1 = some newYear ∧
      readCmosRtc (steady newYear) 1 stale = some stale ∧
      (fixCmosRtcTime (steady newYear) 1 stale 0).map Fix.writes = some repair ∧
      ¬ RepairRight (steady newYear) stale 0 := by
  have hscan : scanCmosRtc (steady newYear) 1 = some newYear := by decide
  have hread : readCmosRtc (steady newYear) 1 stale = some stale := by decide
  refine ⟨by decide, hscan, hread, by decide, fun hright => ?_⟩
  have hfix := hright 1 newYear stale _ hscan hread (fixCmosRtcTime_eq hscan stale 0)
  have hvalid : ValidDate newYear := by decide
  exact absurd ((fixCmosRtc_unwritten newYear stale 0).mp hfix.unwritten hvalid) (by decide)

end ItxLlama.Coreboot.CmosRtc
