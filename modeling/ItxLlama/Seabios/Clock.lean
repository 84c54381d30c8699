import Mathlib.Data.List.Basic
import Mathlib.Logic.Function.Basic

/-!
# The RTC and its periodic interrupt

`hw/rtc.c`, the INT 1Ah and INT 15h calls of `clock.c` that write the RTC, and
`start_preempt` and `finish_preempt` of `stacks.c`. Interrupts and other threads
run only where a call yields, so that everything between two yields is one
function here. What the chip decides (whether the wait for an update times out,
what a read of register C gives) is an argument.
-/

namespace ItxLlama.Seabios.Clock

def cmosRtcSeconds : Nat := 0x00
def cmosRtcSecondsAlarm : Nat := 0x01
def cmosRtcMinutes : Nat := 0x02
def cmosRtcMinutesAlarm : Nat := 0x03
def cmosRtcHours : Nat := 0x04
def cmosRtcHoursAlarm : Nat := 0x05
def cmosRtcDayMonth : Nat := 0x07
def cmosRtcMonth : Nat := 0x08
def cmosRtcYear : Nat := 0x09
def cmosStatusA : Nat := 0x0a
def cmosStatusB : Nat := 0x0b

def rtcBSet : BitVec 8 := 0x80
def rtcBPie : BitVec 8 := 0x40
def rtcBAie : BitVec 8 := 0x20
def rtcB24hr : BitVec 8 := 0x02
def rtcBDse : BitVec 8 := 0x01

def rwsWaitPending : BitVec 8 := 1

/-- `DIV_ROUND_CLOSEST(1000000, 1024)` -/
def usecPerRtc : Nat := (1000000 + 1024 / 2) / 1024

def retEunsupported : BitVec 8 := 0x86

def retEclockinuse : BitVec 8 := 0x83

structure Bregs where
  ah : BitVec 8
  al : BitVec 8
  ch : BitVec 8
  cl : BitVec 8
  dh : BitVec 8
  dl : BitVec 8
  cf : Bool

/-- The registers of the chip and the variables of these functions. -/
structure Rtc where
  cmos : Nat → BitVec 8
  rtcUsers : Int
  rtcWaitFlag : BitVec 8
  userWaitCompleteFlag : Nat × Nat
  userWaitTimeout : Nat
  century : BitVec 8
  canPreempt : Bool

def rtcRead (s : Rtc) (index : Nat) : BitVec 8 := s.cmos index

def rtcWrite (s : Rtc) (index : Nat) (val : BitVec 8) : Rtc :=
  { s with cmos := Function.update s.cmos index val }

def rtcMask (s : Rtc) (index : Nat) (off on : BitVec 8) : Rtc :=
  rtcWrite s index ((rtcRead s index &&& ~~~off) ||| on)

/-- The reads of registers C and D at its end clear the flags of C. -/
def rtcSetup (s : Rtc) : Rtc :=
  rtcMask (rtcWrite s cmosStatusA 0x26) cmosStatusB (~~~rtcBDse) rtcB24hr

def rtcUse (s : Rtc) : Rtc :=
  let count := s.rtcUsers
  let s := { s with rtcUsers := count + 1 }
  if count ≠ 0 then s else rtcMask s cmosStatusB 0 rtcBPie

def rtcRelease (s : Rtc) : Rtc :=
  let count := s.rtcUsers
  let s := { s with rtcUsers := count - 1 }
  if count ≠ 1 then s else rtcMask s cmosStatusB rtcBPie 0

-- ---------------------------------------------------------------------------
-- INT 1Ah
-- ---------------------------------------------------------------------------

def setSuccess (regs : Bregs) : Bregs := { regs with cf := false }

def setInvalid (regs : Bregs) : Bregs := { regs with cf := true }

def setCodeInvalid (regs : Bregs) (code : BitVec 8) : Bregs := { regs with ah := code, cf := true }

/-- Read the time; `updating` is what `rtc_updating` gives after its wait. -/
def handle1a02 (s : Rtc) (regs : Bregs) (updating : Bool) : Bregs :=
  if updating then setInvalid regs
  else
    setSuccess { regs with
      dh := rtcRead s cmosRtcSeconds
      cl := rtcRead s cmosRtcMinutes
      ch := rtcRead s cmosRtcHours
      dl := rtcRead s cmosStatusB &&& rtcBDse
      ah := 0
      al := rtcRead s cmosRtcHours }

/-- Set the time, from the end of the wait on. -/
def handle1a03 (s : Rtc) (regs : Bregs) (updating : Bool) : Rtc × Bregs :=
  -- falls through as if an update were not in progress
  let s := if updating then rtcSetup s else s
  let s := rtcWrite s cmosRtcSeconds regs.dh
  let s := rtcWrite s cmosRtcMinutes regs.cl
  let s := rtcWrite s cmosRtcHours regs.ch
  let val8 := (rtcRead s cmosStatusB &&& (rtcBPie ||| rtcBAie)) ||| rtcB24hr ||| (regs.dl &&& rtcBDse)
  (rtcWrite s cmosStatusB val8, setSuccess { regs with ah := 0, al := val8 })

/-- Read the date. -/
def handle1a04 (s : Rtc) (regs : Bregs) (updating : Bool) : Bregs :=
  let regs := { regs with ah := 0 }
  if updating then setInvalid regs
  else
    setSuccess { regs with
      cl := rtcRead s cmosRtcYear
      dh := rtcRead s cmosRtcMonth
      dl := rtcRead s cmosRtcDayMonth
      ch := s.century
      al := s.century }

/-- Set the date, from the end of the wait on. -/
def handle1a05 (s : Rtc) (regs : Bregs) (updating : Bool) : Rtc × Bregs :=
  if updating then (rtcSetup s, setInvalid regs)
  else
    let s := rtcWrite s cmosRtcYear regs.cl
    let s := rtcWrite s cmosRtcMonth regs.dh
    let s := rtcWrite s cmosRtcDayMonth regs.dl
    let s := { s with century := regs.ch }
    -- clear the halt-clock bit
    let val8 := rtcRead s cmosStatusB &&& ~~~rtcBSet
    (rtcWrite s cmosStatusB val8, setSuccess { regs with ah := 0, al := val8 })

/-- Set the alarm, up to the wait: `none` is an alarm that is set already. -/
def handle1a06 (s : Rtc) : Option (BitVec 8) :=
  let val8 := rtcRead s cmosStatusB
  if val8 &&& rtcBAie ≠ 0 then none else some val8

/-- Set the alarm, from the end of the wait on; `val8` was read before it. -/
def handle1a06Rest (s : Rtc) (regs : Bregs) (val8 : BitVec 8) (updating : Bool) : Rtc × Bregs :=
  -- falls through as if an update were not in progress
  let s := if updating then rtcSetup s else s
  let s := rtcWrite s cmosRtcSecondsAlarm regs.dh
  let s := rtcWrite s cmosRtcMinutesAlarm regs.cl
  let s := rtcWrite s cmosRtcHoursAlarm regs.ch
  -- enable the alarm, clear the halt-clock bit
  (rtcWrite s cmosStatusB ((val8 &&& ~~~rtcBSet) ||| rtcBAie),
    setSuccess { regs with ah := 0, al := 0 })

/-- Turn off the alarm. -/
def handle1a07 (s : Rtc) (regs : Bregs) : Rtc × Bregs :=
  let val8 := rtcRead s cmosStatusB
  (rtcWrite s cmosStatusB (val8 &&& ~~~(rtcBSet ||| rtcBAie)),
    setSuccess { regs with ah := 0, al := val8 })

-- ---------------------------------------------------------------------------
-- The interval timer
-- ---------------------------------------------------------------------------

def waitPending (s : Rtc) : Bool := s.rtcWaitFlag &&& rwsWaitPending ≠ 0

def setUsertimer (s : Rtc) (usecs seg offset : Nat) : Int × Rtc :=
  if waitPending s then (-1, s)
  else
    (0, rtcUse { s with
      rtcWaitFlag := rwsWaitPending
      userWaitCompleteFlag := (seg, offset)
      userWaitTimeout := usecs })

def clearUsertimer (s : Rtc) : Rtc :=
  if !waitPending s then s else rtcRelease { s with rtcWaitFlag := 0 }

/-- Wait for `usecs` microseconds, up to its loop on the status flag. -/
def handle1586 (s : Rtc) (usecs stackSeg statusflag : Nat) (regs : Bregs) : Rtc × Bregs :=
  let r := setUsertimer s usecs stackSeg statusflag
  (r.2, if r.1 ≠ 0 then setCodeInvalid regs retEclockinuse else regs)

/-- Set the interval requested. -/
def handle158300 (s : Rtc) (usecs es bx : Nat) (regs : Bregs) : Rtc × Bregs :=
  let r := setUsertimer s usecs es bx
  (r.2, if r.1 ≠ 0 then setCodeInvalid regs retEunsupported else setSuccess regs)

/-- Clear the interval requested. -/
def handle158301 (s : Rtc) (regs : Bregs) : Rtc × Bregs := (clearUsertimer s, setSuccess regs)

/-- IRQ 8, up to the calls of INT 4Ah and `check_preempt`: whether its rest runs. -/
def handle70 (s : Rtc) (registerC : BitVec 8) : Bool :=
  rtcRead s cmosStatusB &&& (rtcBPie ||| rtcBAie) ≠ 0 ∧ registerC &&& rtcBPie ≠ 0

/-- The rest of IRQ 8; the completed wait sets bit 7 of the user's flag byte. -/
def handle70Rest (s : Rtc) : Rtc × Option (Nat × Nat) :=
  if s.rtcWaitFlag = 0 then (s, none)
  else if s.userWaitTimeout < usecPerRtc then (clearUsertimer s, some s.userWaitCompleteFlag)
  else ({ s with userWaitTimeout := s.userWaitTimeout - usecPerRtc }, none)

-- ---------------------------------------------------------------------------
-- Preemption
-- ---------------------------------------------------------------------------

/-- `during` is what `threads_during_optionroms` gives. -/
def startPreempt (s : Rtc) (during : Bool) : Rtc :=
  if !during then s else rtcUse { s with canPreempt := true }

def finishPreempt (s : Rtc) (during : Bool) : Rtc :=
  if !during then s else rtcRelease { s with canPreempt := false }

end ItxLlama.Seabios.Clock
