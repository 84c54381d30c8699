import ItxLlama.Seabios.Clock

/-!
# Who keeps the periodic interrupt on

The bit in register B follows the user count in every run in which no call of
INT 1Ah writes register B from something else: after a wait that timed out, or
from a copy that is older than the last change of the bit.
-/

namespace ItxLlama.Seabios.Clock

-- ---------------------------------------------------------------------------
-- The bit
-- ---------------------------------------------------------------------------

/-- The periodic-interrupt-enable bit of register B. -/
def Rtc.pie (s : Rtc) : Bool := (rtcRead s cmosStatusB).getLsbD 6

@[simp] theorem rtcRead_write_self : rtcRead (rtcWrite s i v) i = v := Function.update_self _ _ _

theorem rtcRead_write_of_ne (h : j ≠ i) : rtcRead (rtcWrite s i v) j = rtcRead s j :=
  Function.update_of_ne h _ _

@[simp] theorem pie_write_statusB : (rtcWrite s cmosStatusB v).pie = v.getLsbD 6 := by
  rw [Rtc.pie, rtcRead_write_self]

theorem pie_write (h : i ≠ cmosStatusB) : (rtcWrite s i v).pie = s.pie := by
  rw [Rtc.pie, rtcRead_write_of_ne (Ne.symm h), Rtc.pie]

theorem pie_mask : (rtcMask s cmosStatusB off on).pie =
    ((s.pie && !off.getLsbD 6) || on.getLsbD 6) := by
  simp [rtcMask, Rtc.pie]

theorem pie_rtcSetup : (rtcSetup s).pie = false := by
  rw [rtcSetup, pie_mask]
  simp [rtcBDse, rtcB24hr]

theorem pie_rtcUse : (rtcUse s).pie = if s.rtcUsers = 0 then true else s.pie := by
  unfold rtcUse
  by_cases h : s.rtcUsers = 0
  · simp [h, pie_mask, rtcBPie]
  · simp [h]
    rfl

theorem pie_rtcRelease : (rtcRelease s).pie = if s.rtcUsers = 1 then false else s.pie := by
  unfold rtcRelease
  by_cases h : s.rtcUsers = 1
  · simp [h, pie_mask, rtcBPie]
  · simp [h]
    rfl

/-- A call that leaves the users and the interval timer alone. -/
structure SameTimer (s s' : Rtc) : Prop where
  users : s'.rtcUsers = s.rtcUsers
  flag : s'.rtcWaitFlag = s.rtcWaitFlag
  preempt : s'.canPreempt = s.canPreempt

section Calls

variable {s : Rtc} {regs : Bregs}

theorem sameTimer_1a03 : SameTimer s (handle1a03 s regs updating).1 := by
  cases updating <;> exact ⟨rfl, rfl, rfl⟩

theorem sameTimer_1a05 : SameTimer s (handle1a05 s regs updating).1 := by
  cases updating <;> exact ⟨rfl, rfl, rfl⟩

theorem sameTimer_1a06Rest : SameTimer s (handle1a06Rest s regs val8 updating).1 := by
  cases updating <;> exact ⟨rfl, rfl, rfl⟩

theorem sameTimer_1a07 : SameTimer s (handle1a07 s regs).1 := ⟨rfl, rfl, rfl⟩

/-- The wait that times out loses the bit: the registers are set up again. -/
theorem pie_1a03 : (handle1a03 s regs updating).1.pie = (s.pie && !updating) := by
  have hkeep : ∀ s : Rtc, (rtcWrite (rtcWrite (rtcWrite s cmosRtcSeconds regs.dh) cmosRtcMinutes
      regs.cl) cmosRtcHours regs.ch).pie = s.pie := by
    intro s
    rw [pie_write (by decide), pie_write (by decide), pie_write (by decide)]
  have hval : ∀ b : BitVec 8, ((b &&& (rtcBPie ||| rtcBAie)) ||| rtcB24hr |||
      (regs.dl &&& rtcBDse)).getLsbD 6 = b.getLsbD 6 := by
    intro b
    simp [rtcBPie, rtcBAie, rtcB24hr, rtcBDse]
  simp only [handle1a03, pie_write_statusB, hval]
  cases updating with
  | false => exact (hkeep s).trans (Bool.and_true _).symm
  | true => exact ((hkeep _).trans pie_rtcSetup).trans (Bool.and_false _).symm

theorem pie_1a05 : (handle1a05 s regs updating).1.pie = (s.pie && !updating) := by
  cases updating with
  | false =>
    have hkeep : (rtcWrite (rtcWrite (rtcWrite s cmosRtcYear regs.cl) cmosRtcMonth regs.dh)
        cmosRtcDayMonth regs.dl).pie = s.pie := by
      rw [pie_write (by decide), pie_write (by decide), pie_write (by decide)]
    have hval : ∀ b : BitVec 8, (b &&& ~~~rtcBSet).getLsbD 6 = b.getLsbD 6 := by
      intro b
      simp [rtcBSet]
    simp only [handle1a05, Bool.false_eq_true, if_false, pie_write_statusB, hval]
    exact hkeep.trans (Bool.and_true _).symm
  | true => exact pie_rtcSetup.trans (Bool.and_false _).symm

theorem pie_1a06Rest : (handle1a06Rest s regs val8 updating).1.pie = val8.getLsbD 6 := by
  simp only [handle1a06Rest, pie_write_statusB]
  simp [rtcBSet, rtcBAie]

theorem pie_1a07 : (handle1a07 s regs).1.pie = s.pie := by
  simp only [handle1a07, pie_write_statusB]
  simp [rtcBSet, rtcBAie, Rtc.pie]

end Calls

-- ---------------------------------------------------------------------------
-- Steps
-- ---------------------------------------------------------------------------

inductive Holder where
  | interval
  | preempt
  deriving DecidableEq, Repr

/-- The machine between two yields: who called `rtc_use` and not yet
`rtc_release`, the calls that wait to set the alarm, each with the copy of
register B it read, and the IRQs 8 whose rest is to run. -/
structure State where
  rtc : Rtc
  holders : List Holder
  alarms : List (Bregs × BitVec 8)
  ticks : Nat

inductive Event where
  | int1586 (usecs stackSeg statusflag : Nat) (regs : Bregs)
  | int158300 (usecs es bx : Nat) (regs : Bregs)
  | int158301 (regs : Bregs)
  | int1a03 (regs : Bregs) (updating : Bool)
  | int1a05 (regs : Bregs) (updating : Bool)
  | int1a06 (regs : Bregs)
  | int1a06Rest (i : Nat) (updating : Bool)
  | int1a07 (regs : Bregs)
  | startPreempt (during : Bool)
  | finishPreempt (during : Bool)
  | irq8 (registerC : BitVec 8)
  | irq8Rest

/-- The user that a call to set the interval timer adds. -/
def useInterval (s : Rtc) (holders : List Holder) : List Holder :=
  if waitPending s then holders else .interval :: holders

/-- The user that a call to clear the interval timer drops. -/
def releaseInterval (s : Rtc) (holders : List Holder) : List Holder :=
  if waitPending s then holders.erase .interval else holders

/-- One event; `none` where it cannot take place. Preemption is started and
finished in turn, under one answer of `threads_during_optionroms`. INT 1Ah
AH=02 and AH=04 change nothing and are left out. -/
def step (s : State) : Event → Option State
  | .int1586 usecs stackSeg statusflag regs => some { s with
      rtc := (handle1586 s.rtc usecs stackSeg statusflag regs).1
      holders := useInterval s.rtc s.holders }
  | .int158300 usecs es bx regs => some { s with
      rtc := (handle158300 s.rtc usecs es bx regs).1
      holders := useInterval s.rtc s.holders }
  | .int158301 regs => some { s with
      rtc := (handle158301 s.rtc regs).1
      holders := releaseInterval s.rtc s.holders }
  | .int1a03 regs updating => some { s with rtc := (handle1a03 s.rtc regs updating).1 }
  | .int1a05 regs updating => some { s with rtc := (handle1a05 s.rtc regs updating).1 }
  | .int1a06 regs => some { s with
      alarms := s.alarms ++ ((handle1a06 s.rtc).toList.map fun val8 => (regs, val8)) }
  | .int1a06Rest i updating => s.alarms[i]?.map fun call => { s with
      rtc := (handle1a06Rest s.rtc call.1 call.2 updating).1
      alarms := s.alarms.eraseIdx i }
  | .int1a07 regs => some { s with rtc := (handle1a07 s.rtc regs).1 }
  | .startPreempt during =>
    if s.rtc.canPreempt then none
    else some { s with
      rtc := startPreempt s.rtc during
      holders := if during then .preempt :: s.holders else s.holders }
  | .finishPreempt during =>
    if s.rtc.canPreempt ≠ during then none
    else some { s with
      rtc := finishPreempt s.rtc during
      holders := if during then s.holders.erase .preempt else s.holders }
  | .irq8 registerC => some { s with
      ticks := if handle70 s.rtc registerC then s.ticks + 1 else s.ticks }
  | .irq8Rest =>
    if s.ticks = 0 then none
    else some { s with
      rtc := (handle70Rest s.rtc).1
      holders := if (handle70Rest s.rtc).2.isSome then releaseInterval s.rtc s.holders else s.holders
      ticks := s.ticks - 1 }

/-- After `clock_setup`, before any user. -/
def started (chip : Rtc) : State :=
  ⟨{ rtcSetup chip with rtcUsers := 0, rtcWaitFlag := 0, canPreempt := false }, [], [], 0⟩

/-- The bit is set exactly while there are users, who are the outstanding ones,
and a pending wait is one of them. -/
structure Accounted (s : State) : Prop where
  bit : s.rtc.pie = true ↔ 0 < s.rtc.rtcUsers
  users : s.rtc.rtcUsers = s.holders.length
  pending : waitPending s.rtc = true → s.holders.count .interval = 1

/-- What every step keeps, whatever it does to the bit. -/
structure Counted (s : Rtc) (holders : List Holder) : Prop where
  users : s.rtcUsers = holders.length
  interval : s.rtcWaitFlag = rwsWaitPending ∧ holders.count .interval = 1 ∨
    s.rtcWaitFlag = 0 ∧ holders.count .interval = 0
  preempt : holders.count .preempt = if s.canPreempt then 1 else 0

/-- The steps that write register B as the users want it. -/
def Follows (s : State) : Event → Prop
  | .int1a03 _ updating => updating = true → s.rtc.rtcUsers ≤ 0
  | .int1a05 _ updating => updating = true → s.rtc.rtcUsers ≤ 0
  | .int1a06Rest i _ => ∀ call ∈ s.alarms[i]?, (call.2.getLsbD 6 = true ↔ 0 < s.rtc.rtcUsers)
  | _ => True

-- ---------------------------------------------------------------------------
-- One step
-- ---------------------------------------------------------------------------

/-- The bit is set exactly while the count is positive. -/
def Rtc.Bit (s : Rtc) : Prop := s.pie = true ↔ 0 < s.rtcUsers

theorem rtcUsers_rtcUse : (rtcUse s).rtcUsers = s.rtcUsers + 1 := by
  unfold rtcUse
  by_cases h : s.rtcUsers = 0
  · simp [h, rtcMask, rtcWrite]
  · simp [h]

theorem rtcUsers_rtcRelease : (rtcRelease s).rtcUsers = s.rtcUsers - 1 := by
  unfold rtcRelease
  by_cases h : s.rtcUsers = 1
  · simp [h, rtcMask, rtcWrite]
  · simp [h]

theorem rtcUse_same : (rtcUse s).rtcWaitFlag = s.rtcWaitFlag ∧
    (rtcUse s).canPreempt = s.canPreempt := by
  unfold rtcUse
  by_cases h : s.rtcUsers = 0
  · simp [h, rtcMask, rtcWrite]
  · simp [h]

theorem rtcRelease_same : (rtcRelease s).rtcWaitFlag = s.rtcWaitFlag ∧
    (rtcRelease s).canPreempt = s.canPreempt := by
  unfold rtcRelease
  by_cases h : s.rtcUsers = 1
  · simp [h, rtcMask, rtcWrite]
  · simp [h]

theorem Rtc.Bit.use (h : s.Bit) (hcount : 0 ≤ s.rtcUsers) : (rtcUse s).Bit := by
  rw [Rtc.Bit, pie_rtcUse, rtcUsers_rtcUse]
  by_cases hzero : s.rtcUsers = 0
  · simp [hzero]
  · rw [if_neg hzero]
    exact iff_of_true (h.mpr (by omega)) (by omega)

theorem Rtc.Bit.release (h : s.Bit) (hcount : 1 ≤ s.rtcUsers) : (rtcRelease s).Bit := by
  rw [Rtc.Bit, pie_rtcRelease, rtcUsers_rtcRelease]
  by_cases hone : s.rtcUsers = 1
  · simp [hone]
  · rw [if_neg hone]
    exact iff_of_true (h.mpr (by omega)) (by omega)

section Step

variable {s : Rtc} {holders : List Holder}

theorem Counted.waitPending_iff (h : Counted s holders) :
    waitPending s = true ↔ holders.count .interval = 1 := by
  unfold waitPending
  obtain ⟨hflag, hcount⟩ | ⟨hflag, hcount⟩ := h.interval
  · simp [hflag, hcount, rwsWaitPending]
  · simp [hflag, hcount]

theorem Counted.nonneg (h : Counted s holders) : 0 ≤ s.rtcUsers := by
  rw [h.users]
  exact Int.natCast_nonneg _

theorem Counted.pos (h : Counted s holders) (hmem : who ∈ holders) : 1 ≤ s.rtcUsers := by
  have hlen := List.length_pos_of_mem hmem
  rw [h.users]
  omega

theorem Counted.of_same (h : Counted s holders) (hsame : SameTimer s s') : Counted s' holders := by
  obtain ⟨husers, hflag, hpreempt⟩ := hsame
  refine ⟨husers.trans h.users, ?_, ?_⟩
  · rw [hflag]
    exact h.interval
  · rw [hpreempt]
    exact h.preempt

/-- A call that keeps the counts, and the bit if it was right. -/
def Keeps (s : Rtc) (s' : Rtc) (holders' : List Holder) : Prop :=
  Counted s' holders' ∧ (s.Bit → s'.Bit)

theorem keeps_setUsertimer (h : Counted s holders) :
    Keeps s (setUsertimer s usecs seg offset).2 (useInterval s holders) := by
  unfold setUsertimer useInterval
  by_cases hwait : waitPending s = true
  · rw [if_pos hwait, if_pos hwait]
    exact ⟨h, id⟩
  · rw [if_neg hwait, if_neg hwait]
    have hzero : holders.count .interval = 0 := by
      obtain ⟨-, hcount⟩ | ⟨-, hcount⟩ := h.interval
      · exact absurd (h.waitPending_iff.mpr hcount) hwait
      · exact hcount
    refine ⟨⟨?_, Or.inl ⟨?_, ?_⟩, ?_⟩, fun hbit => Rtc.Bit.use hbit h.nonneg⟩
    · have husers := h.users
      rw [rtcUsers_rtcUse, List.length_cons]
      simp only
      omega
    · rw [rtcUse_same.1]
    · rw [List.count_cons_self, hzero]
    · rw [rtcUse_same.2, List.count_cons_of_ne (by decide)]
      exact h.preempt

theorem keeps_clearUsertimer (h : Counted s holders) :
    Keeps s (clearUsertimer s) (releaseInterval s holders) := by
  unfold clearUsertimer releaseInterval
  by_cases hwait : waitPending s = true
  · rw [if_neg (by simpa using hwait), if_pos hwait]
    have hone := h.waitPending_iff.mp hwait
    have hmem : Holder.interval ∈ holders := List.count_pos_iff.mp (by omega)
    have hpos := h.pos hmem
    refine ⟨⟨?_, Or.inr ⟨?_, ?_⟩, ?_⟩, fun hbit => Rtc.Bit.release hbit hpos⟩
    · have husers := h.users
      rw [rtcUsers_rtcRelease, List.length_erase_of_mem hmem]
      simp only
      omega
    · rw [rtcRelease_same.1]
    · rw [List.count_erase_self, hone]
    · rw [rtcRelease_same.2, List.count_erase_of_ne (by decide)]
      exact h.preempt
  · rw [if_pos (by simpa using hwait), if_neg hwait]
    exact ⟨h, id⟩

theorem keeps_startPreempt (h : Counted s holders) (hfree : s.canPreempt = false) :
    Keeps s (startPreempt s during) (if during then .preempt :: holders else holders) := by
  cases during with
  | false => exact ⟨h, id⟩
  | true =>
    have hzero : holders.count .preempt = 0 := by
      simpa [hfree] using h.preempt
    have hkeeps : Keeps s (rtcUse { s with canPreempt := true }) (.preempt :: holders) := by
      refine ⟨⟨?_, ?_, ?_⟩, fun hbit => Rtc.Bit.use hbit h.nonneg⟩
      · have husers := h.users
        rw [rtcUsers_rtcUse, List.length_cons]
        simp only
        omega
      · rw [rtcUse_same.1, List.count_cons_of_ne (by decide)]
        exact h.interval
      · rw [rtcUse_same.2, List.count_cons_self, hzero]
        rfl
    exact hkeeps

theorem keeps_finishPreempt (h : Counted s holders) (hsame : s.canPreempt = during) :
    Keeps s (finishPreempt s during) (if during then holders.erase .preempt else holders) := by
  cases during with
  | false => exact ⟨h, id⟩
  | true =>
    have hone : holders.count .preempt = 1 := by
      simpa [hsame] using h.preempt
    have hmem : Holder.preempt ∈ holders := List.count_pos_iff.mp (by omega)
    have hpos := h.pos hmem
    have hkeeps : Keeps s (rtcRelease { s with canPreempt := false }) (holders.erase .preempt) := by
      refine ⟨⟨?_, ?_, ?_⟩, fun hbit => Rtc.Bit.release hbit hpos⟩
      · have husers := h.users
        rw [rtcUsers_rtcRelease, List.length_erase_of_mem hmem]
        simp only
        omega
      · rw [rtcRelease_same.1, List.count_erase_of_ne (by decide)]
        exact h.interval
      · rw [rtcRelease_same.2, List.count_erase_self, hone]
        rfl
    exact hkeeps

theorem keeps_timeout (h : Counted s holders) (time : Nat) :
    Keeps s { s with userWaitTimeout := time } holders :=
  ⟨h.of_same ⟨rfl, rfl, rfl⟩, id⟩

theorem keeps_handle70Rest (h : Counted s holders) :
    Keeps s (handle70Rest s).1
      (if (handle70Rest s).2.isSome then releaseInterval s holders else holders) := by
  unfold handle70Rest
  by_cases hflag : s.rtcWaitFlag = 0
  · rw [if_pos hflag]
    exact ⟨h, id⟩
  · rw [if_neg hflag]
    by_cases htime : s.userWaitTimeout < usecPerRtc
    · rw [if_pos htime]
      exact keeps_clearUsertimer h
    · rw [if_neg htime]
      exact keeps_timeout h _

end Step

/-- A call of INT 1Ah, whose new bit is `pie`. -/
theorem bit_iff (hsame : SameTimer s s') (hpie : s'.pie = pie) :
    s'.Bit ↔ (pie = true ↔ 0 < s.rtcUsers) := by
  rw [Rtc.Bit, hpie, hsame.users]

theorem bit_setup_iff (h : s.Bit) (hsame : SameTimer s s') (hpie : s'.pie = (s.pie && !updating)) :
    s'.Bit ↔ (updating = true → s.rtcUsers ≤ 0) := by
  rw [bit_iff hsame hpie]
  cases updating with
  | false =>
    rw [Bool.not_false, Bool.and_true]
    exact iff_of_true h (fun hup => absurd hup (by decide))
  | true =>
    rw [Bool.not_true, Bool.and_false]
    simp

theorem step_spec {s t : State} (h : Counted s.rtc s.holders) (hstep : step s e = some t) :
    Counted t.rtc t.holders ∧ (s.rtc.Bit → (t.rtc.Bit ↔ Follows s e)) := by
  have hkeeps : ∀ {rtc holders}, Keeps s.rtc rtc holders →
      Counted rtc holders ∧ (s.rtc.Bit → (rtc.Bit ↔ True)) :=
    fun hk => ⟨hk.1, fun hbit => iff_of_true (hk.2 hbit) trivial⟩
  cases e with
  | int1586 usecs stackSeg statusflag regs =>
    cases hstep
    exact hkeeps (keeps_setUsertimer h)
  | int158300 usecs es bx regs =>
    cases hstep
    exact hkeeps (keeps_setUsertimer h)
  | int158301 regs =>
    cases hstep
    exact hkeeps (keeps_clearUsertimer h)
  | int1a03 regs updating =>
    cases hstep
    exact ⟨h.of_same sameTimer_1a03, fun hbit => bit_setup_iff hbit sameTimer_1a03 pie_1a03⟩
  | int1a05 regs updating =>
    cases hstep
    exact ⟨h.of_same sameTimer_1a05, fun hbit => bit_setup_iff hbit sameTimer_1a05 pie_1a05⟩
  | int1a06 regs =>
    cases hstep
    exact ⟨h, fun hbit => iff_of_true hbit trivial⟩
  | int1a06Rest i updating =>
    obtain ⟨call, hcall, rfl⟩ := Option.map_eq_some_iff.mp hstep
    refine ⟨h.of_same sameTimer_1a06Rest,
      fun _ => (bit_iff sameTimer_1a06Rest pie_1a06Rest).trans ?_⟩
    simp [Follows, hcall]
  | int1a07 regs =>
    cases hstep
    have hsame := @sameTimer_1a07 s.rtc regs
    exact ⟨h.of_same hsame, fun hbit => iff_of_true ((bit_iff hsame pie_1a07).mpr hbit) trivial⟩
  | startPreempt during =>
    rw [step] at hstep
    split at hstep
    case isTrue => cases hstep
    case isFalse hfree =>
      cases hstep
      exact hkeeps (keeps_startPreempt h (Bool.not_eq_true _ ▸ hfree))
  | finishPreempt during =>
    rw [step] at hstep
    split at hstep
    case isTrue => cases hstep
    case isFalse hsame =>
      cases hstep
      exact hkeeps (keeps_finishPreempt h (not_not.mp hsame))
  | irq8 registerC =>
    cases hstep
    exact ⟨h, fun hbit => iff_of_true hbit trivial⟩
  | irq8Rest =>
    rw [step] at hstep
    split at hstep
    case isTrue => cases hstep
    case isFalse =>
      cases hstep
      exact hkeeps (keeps_handle70Rest h)

-- ---------------------------------------------------------------------------
-- A run
-- ---------------------------------------------------------------------------

/-- A property of every state that is reached. -/
def Throughout (P : State → Prop) : State → List Event → Prop
  | s, [] => P s
  | s, e :: es => P s ∧ ∀ t, step s e = some t → Throughout P t es

/-- Every step that is taken writes register B as the users want it. -/
def AllFollow : State → List Event → Prop
  | _, [] => True
  | s, e :: es => ∀ t, step s e = some t → Follows s e ∧ AllFollow t es

theorem accounted_iff {s : State} (h : Counted s.rtc s.holders) : Accounted s ↔ s.rtc.Bit :=
  ⟨fun ha => ha.bit, fun hbit => ⟨hbit, h.users, h.waitPending_iff.mp⟩⟩

theorem throughout_iff {s : State} (h : Counted s.rtc s.holders) (hbit : s.rtc.Bit)
    (es : List Event) : Throughout Accounted s es ↔ AllFollow s es := by
  induction es generalizing s with
  | nil => exact iff_of_true ((accounted_iff h).mpr hbit) trivial
  | cons e es ih =>
    refine ⟨fun hall t hstep => ?_, fun hall => ⟨(accounted_iff h).mpr hbit, fun t hstep => ?_⟩⟩
    · obtain ⟨hcounted, hiff⟩ := step_spec h hstep
      have hrest := hall.2 t hstep
      have hnow : Accounted t := by
        cases es with
        | nil => exact hrest
        | cons e' es => exact hrest.1
      exact ⟨(hiff hbit).mp hnow.bit, (ih hcounted hnow.bit).mp hrest⟩
    · obtain ⟨hcounted, hiff⟩ := step_spec h hstep
      obtain ⟨hfollows, hrest⟩ := hall t hstep
      exact (ih hcounted ((hiff hbit).mpr hfollows)).mpr hrest

/-- The accounting holds in every state of a run exactly when no step of it sets the RTC up again
while there is a user, or writes a copy of register B whose bit is out of date. -/
theorem accounted_throughout_iff (chip : Rtc) (es : List Event) :
    Throughout Accounted (started chip) es ↔ AllFollow (started chip) es := by
  refine throughout_iff ⟨rfl, Or.inr ⟨rfl, rfl⟩, rfl⟩ ?_ es
  have hpie : (started chip).rtc.pie = false := @pie_rtcSetup chip
  rw [Rtc.Bit, hpie]
  exact iff_of_false (by decide) (Int.lt_irrefl 0)

/-- A chip whose registers read zero. -/
def zeroChip : Rtc := ⟨fun _ => 0, 0, 0, (0, 0), 0, 0, false⟩

/-- An interval is requested; the time is set when an update does not end. -/
def timeSetInWait : List Event :=
  [.int158300 5000 0x2000 0 ⟨0x83, 0, 0, 0, 0, 0, false⟩,
    .int1a03 ⟨0x03, 0, 0x12, 0x30, 0, 0, false⟩ true]

theorem not_accounted_throughout :
    ¬ ∀ (chip : Rtc) (es : List Event), Throughout Accounted (started chip) es := by
  intro h
  have hlast := ((h zeroChip timeSetInWait).2 _ rfl).2 _ rfl
  exact absurd (hlast.bit.mpr (by decide)) (by decide)

-- ---------------------------------------------------------------------------
-- Progress
-- ---------------------------------------------------------------------------

/-- The rest of IRQ 8 some times in a row. -/
def handle70Rests : Nat → Rtc → Rtc
  | 0, s => s
  | n + 1, s => handle70Rests n (handle70Rest s).1

theorem handle70Rests_done (n : Nat) (h : s.rtcWaitFlag = 0) :
    (handle70Rests n s).rtcWaitFlag = 0 := by
  induction n generalizing s with
  | zero => exact h
  | succ n ih =>
    rw [handle70Rests, handle70Rest, if_pos h]
    exact ih h

theorem handle70Rests_waits {n : Nat} (hflag : s.rtcWaitFlag = rwsWaitPending)
    (htime : s.userWaitTimeout < n * usecPerRtc) : (handle70Rests n s).rtcWaitFlag = 0 := by
  induction n generalizing s with
  | zero => exact absurd htime (by omega)
  | succ n ih =>
    have hset : ¬ s.rtcWaitFlag = 0 := by
      rw [hflag]
      decide
    have hwait : waitPending s = true := by
      rw [waitPending, hflag]
      rfl
    rw [handle70Rests, handle70Rest, if_neg hset]
    by_cases hdone : s.userWaitTimeout < usecPerRtc
    · rw [if_pos hdone]
      refine handle70Rests_done n ?_
      rw [clearUsertimer, if_neg (by simpa using hwait), rtcRelease_same.1]
    · rw [if_neg hdone]
      refine ih hflag ?_
      rw [Nat.succ_mul] at htime
      simp only
      omega

/-- While the accounting holds, a tick reaches a pending wait, and enough of them complete it. -/
theorem wait_completes {s : State} (h : Counted s.rtc s.holders) (hbit : s.rtc.Bit)
    (hwait : waitPending s.rtc = true) :
    (∀ registerC : BitVec 8, registerC &&& rtcBPie ≠ 0 → handle70 s.rtc registerC = true) ∧
      ∀ n : Nat, s.rtc.userWaitTimeout < n * usecPerRtc →
        (handle70Rests n s.rtc).rtcWaitFlag = 0 := by
  have hmem : Holder.interval ∈ s.holders :=
    List.count_pos_iff.mp (Nat.lt_of_lt_of_eq Nat.zero_lt_one (h.waitPending_iff.mp hwait).symm)
  have hpie : s.rtc.pie = true := hbit.mpr (h.pos hmem)
  refine ⟨fun registerC hc => ?_, fun n htime => ?_⟩
  · have henabled : ∀ b : BitVec 8, b.getLsbD 6 = true → b &&& (rtcBPie ||| rtcBAie) ≠ 0 := by
      decide
    rw [handle70, decide_eq_true_eq]
    exact ⟨henabled _ hpie, hc⟩
  · obtain ⟨hflag, -⟩ | ⟨-, hcount⟩ := h.interval
    · exact handle70Rests_waits hflag htime
    · exact absurd hcount (Nat.ne_of_gt (List.count_pos_iff.mpr hmem))

end ItxLlama.Seabios.Clock
