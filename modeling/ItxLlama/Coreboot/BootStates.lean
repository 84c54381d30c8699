import Mathlib.Data.BitVec
import Mathlib.Logic.Function.Basic
import ItxLlama.Lib.History

/-!
# The boot state machine

`lib/hardwaremain.c` from `bs_call_callbacks` on. What runs between two steps
of the machine is code of its clients: the callbacks, the timers and the
functions of the states, which call the functions below in any order. A
callback object is a value of a type `Cb`.
-/

namespace ItxLlama.Coreboot.Boot

open Lib.History

inductive BootState where
  | preDevice | devInitChips | devEnumerate | devResources | devEnable | devInit | postDevice
  | osResumeCheck | osResume | writeTables | payloadLoad | payloadBoot
  deriving DecidableEq, Repr

def BootState.id : BootState → Nat
  | .preDevice => 0
  | .devInitChips => 1
  | .devEnumerate => 2
  | .devResources => 3
  | .devEnable => 4
  | .devInit => 5
  | .postDevice => 6
  | .osResumeCheck => 7
  | .osResume => 8
  | .writeTables => 9
  | .payloadLoad => 10
  | .payloadBoot => 11

/-- What the function of each state returns; `wake` is whether there is a
wake vector. -/
def BootState.runState (wake : Bool) : BootState → BootState
  | .preDevice => .devInitChips
  | .devInitChips => .devEnumerate
  | .devEnumerate => .devResources
  | .devResources => .devEnable
  | .devEnable => .devInit
  | .devInit => .postDevice
  | .postDevice => .osResumeCheck
  | .osResumeCheck => if wake then .osResume else .writeTables
  | .osResume => .writeTables
  | .writeTables => .payloadLoad
  | .payloadLoad => .payloadBoot
  | .payloadBoot => .payloadBoot

inductive BootSeq where
  | onEntry | onExit
  deriving DecidableEq, Repr

/-- `struct state_tracker`. -/
structure Phase where
  state : BootState
  seq : BootSeq
  deriving DecidableEq, Repr

structure BootPhase (Cb : Type) where
  callbacks : List Cb
  blockers : Nat
  deriving DecidableEq, Repr

/-- Whose code is running. -/
inductive Control where
  /-- `main`, with the entries scheduled at compile time -/
  | static
  | entryTimers
  | callback
  | timers
  | function
  | stopped
  deriving DecidableEq, Repr

inductive BootEvent (Cb : Type) where
  | enter (p : Phase)
  | left (p : Phase)
  | function (st : BootState)
  | sched (cb : Cb) (p : Phase)
  | ran (cb : Cb) (p : Phase)
  | block (p : Phase)
  | unblock (p : Phase)
  deriving DecidableEq, Repr

structure Machine (Cb : Type) where
  phases : Phase → BootPhase Cb
  complete : BootState → Bool
  /-- `current_phase` -/
  current : Phase
  next : BootState
  control : Control
  /-- what has happened: calls only when they returned 0 -/
  log : List (BootEvent Cb)

section Model

variable {Cb : Type} (m : Machine Cb)

-- ---------------------------------------------------------------------------
-- The clients' calls
-- ---------------------------------------------------------------------------

def bootStateSchedCallback (cb : Cb) (p : Phase) : Int × Machine Cb :=
  if m.complete p.state then (-1, m)
  else
    let phase := m.phases p
    (0, { m with
      phases := Function.update m.phases p { phase with callbacks := cb :: phase.callbacks }
      log := m.log ++ [.sched cb p] })

/-- The phase has run already. -/
def Machine.Ran (p : Phase) : Prop :=
  m.current.state.id > p.state.id ∨
    (m.current.state = p.state ∧ m.current.seq = .onExit ∧ p.seq = .onEntry)

instance (p : Phase) : Decidable (m.Ran p) := inferInstanceAs (Decidable (_ ∨ _))

def bootStateBlock (p : Phase) : Int × Machine Cb :=
  if m.Ran p then (-1, m)
  else
    let phase := m.phases p
    (0, { m with
      phases := Function.update m.phases p { phase with blockers := phase.blockers + 1 }
      log := m.log ++ [.block p] })

def bootStateUnblock (p : Phase) : Int × Machine Cb :=
  if m.Ran p then (-1, m)
  else
    let phase := m.phases p
    if phase.blockers = 0 then (-1, m)
    else
      (0, { m with
        phases := Function.update m.phases p { phase with blockers := phase.blockers - 1 }
        log := m.log ++ [.unblock p] })

-- ---------------------------------------------------------------------------
-- The machine
-- ---------------------------------------------------------------------------

/-- The head of the loop of `bs_walk_state_machine`. -/
def bsWalk : Machine Cb :=
  if m.complete m.current.state then { m with control := .stopped }
  else { m with control := .entryTimers }

/-- What follows `bs_call_callbacks`. -/
def leavePhase : Machine Cb :=
  let st := m.current.state
  match m.current.seq with
  | .onEntry =>
    { m with
      current := ⟨st, .onExit⟩
      control := .function
      log := m.log ++ [.left m.current] ++ [.enter ⟨st, .onExit⟩] ++ [.function st] }
  | .onExit =>
    bsWalk { m with
      current := ⟨m.next, .onEntry⟩
      complete := Function.update m.complete st true
      log := m.log ++ [.left m.current] ++ [.enter ⟨m.next, .onEntry⟩] }

/-- The loop of `bs_call_callbacks`, up to the next code of a client. -/
def bsCallCallbacks : Machine Cb :=
  let phase := m.phases m.current
  match phase.callbacks with
  | cb :: rest =>
    { m with
      phases := Function.update m.phases m.current { phase with callbacks := rest }
      control := .callback
      log := m.log ++ [.ran cb m.current] }
  | [] => if phase.blockers ≠ 0 then { m with control := .timers } else leavePhase m

/-- The client's code returns. -/
def resume (wake : Bool) : Machine Cb :=
  match m.control with
  | .static => bsWalk m
  | .entryTimers | .callback | .timers => bsCallCallbacks m
  | .function => bsCallCallbacks { m with next := m.current.state.runState wake }
  | .stopped => m

inductive BootAction (Cb : Type) where
  | sched (cb : Cb) (p : Phase)
  | block (p : Phase)
  | unblock (p : Phase)
  | ret (wake : Bool)
  deriving DecidableEq, Repr

def act : BootAction Cb → Machine Cb
  | .sched cb p => (bootStateSchedCallback m cb p).2
  | .block p => (bootStateBlock m p).2
  | .unblock p => (bootStateUnblock m p).2
  | .ret wake => resume m wake

/-- A client's code is running; an object is not scheduled while it is queued,
and no count of blockers overflows. -/
def Allowed (m : Machine Cb) : BootAction Cb → Prop
  | .sched cb _ => m.control ≠ .stopped ∧ ∀ q, cb ∉ (m.phases q).callbacks
  | .block p => m.control ≠ .stopped ∧ (m.phases p).blockers + 1 < 2 ^ 31
  | .unblock _ | .ret _ => m.control ≠ .stopped

def start : Machine Cb :=
  { phases := fun _ => ⟨[], 0⟩
    complete := fun _ => false
    current := ⟨.preDevice, .onEntry⟩
    next := .preDevice
    control := .static
    log := [.enter ⟨.preDevice, .onEntry⟩] }

/-- An on-entry callback for the current state when its entry is over. -/
def Late (m : Machine Cb) : BootAction Cb → Prop
  | .sched _ p => p = ⟨m.current.state, .onEntry⟩ ∧ m.current.seq = .onExit
  | _ => False

end Model

-- ---------------------------------------------------------------------------
-- What a history should be
-- ---------------------------------------------------------------------------

section Spec

variable {Cb : Type} [DecidableEq Cb]

def phaseOf : List (BootEvent Cb) → Option Phase :=
  List.foldl (fun p e => match e with | .enter q => some q | _ => p) none

/-- A callback runs in its phase and not behind it; a phase is left with as
many unblocks as blocks; no state's function runs twice. -/
def Good (log : List (BootEvent Cb)) : BootEvent Cb → Prop
  | .ran _ p => phaseOf log = some p ∧ .left p ∉ log
  | .left p => phaseOf log = some p ∧ log.count (.block p) = log.count (.unblock p)
  | .unblock p => log.count (.unblock p) < log.count (.block p)
  | .function st => .function st ∉ log
  | .enter _ | .sched _ _ | .block _ => True

structure Right (m : Machine Cb) : Prop where
  each : Each Good m.log
  /-- what has been accepted for a phase has run when the phase has been left -/
  drained : ∀ p, .left p ∈ m.log → ∀ cb, m.log.count (.sched cb p) = m.log.count (.ran cb p)
  once : ∀ p cb, m.log.count (.ran cb p) ≤ m.log.count (.sched cb p)
  blockers : ∀ p, m.log.count (.block p) = m.log.count (.unblock p) + (m.phases p).blockers

/-- What every machine keeps, whatever its clients do. -/
structure BootInv (m : Machine Cb) : Prop where
  each : Each Good m.log
  phase : phaseOf m.log = some m.current
  conserve : ∀ p cb, m.log.count (.sched cb p) =
    m.log.count (.ran cb p) + (m.phases p).callbacks.count cb
  blockers : ∀ p, m.log.count (.block p) = m.log.count (.unblock p) + (m.phases p).blockers
  left : ∀ p, .left p ∈ m.log ↔
    m.complete p.state = true ∨ (p = ⟨m.current.state, .onEntry⟩ ∧ m.current.seq = .onExit)
  function : ∀ st, .function st ∈ m.log ↔
    m.complete st = true ∨ (st = m.current.state ∧ m.current.seq = .onExit)
  running : m.control ≠ .stopped → m.complete m.current.state = false

-- ---------------------------------------------------------------------------
-- The clients' calls keep it
-- ---------------------------------------------------------------------------

omit [DecidableEq Cb] in
theorem phaseOf_concat (log : List (BootEvent Cb)) (e : BootEvent Cb) :
    phaseOf (log ++ [e]) = match e with | .enter q => some q | _ => phaseOf log := by
  cases e <;> simp [phaseOf]

theorem BootInv.start : BootInv (start : Machine Cb) := by
  refine ⟨?_, rfl, ?_, ?_, ?_, ?_, fun _ => rfl⟩
  · exact Each.nil.concat trivial
  all_goals simp [Boot.start]

/-- A call, or the start of a callback. -/
def BootEvent.IsCall : BootEvent Cb → Prop
  | .sched _ _ | .ran _ _ | .block _ | .unblock _ => True
  | .enter _ | .left _ | .function _ => False

theorem BootInv.call {m : Machine Cb} (h : BootInv m) (e : BootEvent Cb) (hcall : e.IsCall)
    (hgood : Good m.log e) {phases : Phase → BootPhase Cb} {control : Control}
    (hcontrol : m.control ≠ .stopped)
    (hconserve : ∀ p cb, (m.log ++ [e]).count (.sched cb p) =
      (m.log ++ [e]).count (.ran cb p) + (phases p).callbacks.count cb)
    (hblockers : ∀ p, (m.log ++ [e]).count (.block p) =
      (m.log ++ [e]).count (.unblock p) + (phases p).blockers) :
    BootInv { m with phases, control, log := m.log ++ [e] } := by
  refine ⟨h.each.concat hgood, ?_, hconserve, hblockers, fun p => ?_, fun st => ?_,
    fun _ => h.running hcontrol⟩
  · rw [phaseOf_concat]
    cases e <;> first | exact hcall.elim | exact h.phase
  · rw [← h.left p]
    cases e <;> first | exact hcall.elim | simp
  · rw [← h.function st]
    cases e <;> first | exact hcall.elim | simp

theorem BootInv.sched {m : Machine Cb} (h : BootInv m) (hcontrol : m.control ≠ .stopped) (cb : Cb)
    (p : Phase) : BootInv (bootStateSchedCallback m cb p).2 := by
  simp only [bootStateSchedCallback]
  split
  · exact h
  refine h.call (.sched cb p) trivial trivial hcontrol (fun q cb' => ?_) fun q => ?_
  · have hq := h.conserve q cb'
    by_cases heq : q = p
    · subst heq
      simp [List.count_append, List.count_cons, hq]
      split <;> omega
    · simp [List.count_append, heq, hq, Ne.symm heq]
  · have hq := h.blockers q
    by_cases heq : q = p
    · subst heq
      simpa [List.count_append] using hq
    · simpa [List.count_append, heq] using hq

theorem BootInv.block {m : Machine Cb} (h : BootInv m) (hcontrol : m.control ≠ .stopped)
    (p : Phase) : BootInv (bootStateBlock m p).2 := by
  simp only [bootStateBlock]
  split
  · exact h
  refine h.call (.block p) trivial trivial hcontrol (fun q cb => ?_) fun q => ?_
  · have hq := h.conserve q cb
    by_cases heq : q = p
    · subst heq
      simpa [List.count_append] using hq
    · simpa [List.count_append, heq] using hq
  · have hq := h.blockers q
    by_cases heq : q = p
    · subst heq
      simp [List.count_append, hq]
      omega
    · simp [List.count_append, heq, hq, Ne.symm heq]

theorem BootInv.unblock {m : Machine Cb} (h : BootInv m) (hcontrol : m.control ≠ .stopped)
    (p : Phase) : BootInv (bootStateUnblock m p).2 := by
  simp only [bootStateUnblock]
  split
  · exact h
  split
  · exact h
  rename_i hblocked
  have hp := h.blockers p
  refine h.call (.unblock p) trivial (show _ < _ by omega) hcontrol (fun q cb => ?_) fun q => ?_
  · have hq := h.conserve q cb
    by_cases heq : q = p
    · subst heq
      simpa [List.count_append] using hq
    · simpa [List.count_append, heq] using hq
  · have hq := h.blockers q
    by_cases heq : q = p
    · subst heq
      simp [List.count_append]
      omega
    · simp [List.count_append, heq, hq, Ne.symm heq]

-- ---------------------------------------------------------------------------
-- The machine keeps it
-- ---------------------------------------------------------------------------

theorem BootInv.control {m : Machine Cb} (h : BootInv m) {control : Control}
    (hrun : control ≠ .stopped → m.complete m.current.state = false) :
    BootInv { m with control } :=
      ⟨h.each, h.phase, h.conserve, h.blockers, h.left, h.function, hrun⟩

theorem BootInv.walk {m : Machine Cb} (h : BootInv m) : BootInv (bsWalk m) := by
  simp only [bsWalk]
  split
  · exact h.control fun hs => absurd rfl hs
  · rename_i hc
    exact h.control fun _ => eq_false_of_ne_true hc

omit [DecidableEq Cb] in
theorem current_eq {m : Machine Cb} (h : m.current.seq = seq) :
    m.current = ⟨m.current.state, seq⟩ := by
  rw [← h]

theorem BootInv.current_not_left {m : Machine Cb} (h : BootInv m) (hcontrol : m.control ≠ .stopped)
    :
    (.left m.current : BootEvent Cb) ∉ m.log := by
  rw [h.left, h.running hcontrol]
  rintro (hc | ⟨hentry, hexit⟩)
  · cases hc
  · rw [hentry] at hexit
    cases hexit

theorem BootInv.leave {m : Machine Cb} (h : BootInv m) (hcontrol : m.control ≠ .stopped)
    (hblockers : (m.phases m.current).blockers = 0) : BootInv (leavePhase m) := by
  have hcomplete := h.running hcontrol
  have hgood : Good m.log (.left m.current) := ⟨h.phase, by have := h.blockers m.current; omega⟩
  have hleft : ∀ p, Each Good (m.log ++ [.left m.current] ++ [.enter p]) := fun p =>
    (h.each.concat hgood).concat trivial
  simp only [leavePhase]
  split
  · rename_i hseq
    have hnew : .function m.current.state ∉ m.log := by
      rw [h.function]
      simp [hcomplete, hseq]
    refine ⟨(hleft _).concat (by simpa [Good] using hnew), ?_, fun q cb => ?_, fun q => ?_,
      fun q => ?_, fun st => ?_, fun _ => hcomplete⟩
    · rw [phaseOf_concat, phaseOf_concat]
    · simpa [List.count_append] using h.conserve q cb
    · simpa [List.count_append] using h.blockers q
    · have hq : .left q ∈ m.log ↔ m.complete q.state = true := by simpa [hseq] using h.left q
      rw [current_eq hseq]
      simp [hq]
    · have hst : .function st ∈ m.log ↔ m.complete st = true := by simpa [hseq] using h.function st
      simp [hst]
  · rename_i hseq
    have hbooks : BootInv { m with
        current := ⟨m.next, .onEntry⟩
        complete := Function.update m.complete m.current.state true
        control := .stopped
        log := m.log ++ [.left m.current] ++ [.enter ⟨m.next, .onEntry⟩] } := by
      refine ⟨hleft _, ?_, fun q cb => ?_, fun q => ?_, fun q => ?_, fun st => ?_,
        fun hs => absurd rfl hs⟩
      · rw [phaseOf_concat]
      · simpa [List.count_append] using h.conserve q cb
      · simpa [List.count_append] using h.blockers q
      · have hq := h.left q
        by_cases hst : q.state = m.current.state
        · obtain ⟨st, seq⟩ := q
          obtain rfl : st = m.current.state := hst
          cases seq with
          | onEntry => simp [hq, hseq]
          | onExit => simp [← current_eq hseq]
        · have hne : q ≠ m.current := fun h => hst (congrArg Phase.state h)
          have hentry : q ≠ ⟨m.current.state, .onEntry⟩ := by
            rintro rfl
            exact hst rfl
          simp [hst, hne, hq, hentry]
      · have hq := h.function st
        by_cases hst : st = m.current.state
        · subst hst
          simp [hq, hseq]
        · simp [hst, hq]
    exact hbooks.walk

theorem BootInv.callCallbacks {m : Machine Cb} (h : BootInv m) (hcontrol : m.control ≠ .stopped) :
    BootInv (bsCallCallbacks m) := by
  simp only [bsCallCallbacks]
  split
  · rename_i cb rest hcbs
    refine h.call (.ran cb m.current) trivial ⟨h.phase, h.current_not_left hcontrol⟩ hcontrol
      (fun q cb' => ?_) fun q => ?_
    · have hq := h.conserve q cb'
      by_cases heq : q = m.current
      · subst heq
        rw [hcbs, List.count_cons] at hq
        simp [List.count_append, List.count_cons, hq]
        omega
      · simp [List.count_append, heq, hq, Ne.symm heq]
    · have hq := h.blockers q
      by_cases heq : q = m.current
      · subst heq
        simpa [List.count_append] using hq
      · simpa [List.count_append, heq] using hq
  · split
    · exact h.control fun _ => h.running hcontrol
    · exact h.leave hcontrol (by omega)

theorem BootInv.resume {m : Machine Cb} (h : BootInv m) (hcontrol : m.control ≠ .stopped)
    (wake : Bool) : BootInv (resume m wake) := by
  have hnext : ∀ next, BootInv { m with next } := fun next =>
    ⟨h.each, h.phase, h.conserve, h.blockers, h.left, h.function, h.running⟩
  simp only [Boot.resume]
  split
  · exact h.walk
  · exact h.callCallbacks hcontrol
  · exact h.callCallbacks hcontrol
  · exact h.callCallbacks hcontrol
  · exact (hnext _).callCallbacks hcontrol
  · exact h

theorem BootInv.act {m : Machine Cb} (h : BootInv m) {a : BootAction Cb} (ha : Allowed m a) :
    BootInv (act m a) := by
  cases a with
  | sched cb p => exact h.sched ha.1 cb p
  | block p => exact h.block ha.1 p
  | unblock p => exact h.unblock ha p
  | ret wake => exact h.resume ha wake

-- ---------------------------------------------------------------------------
-- Phases that have been left
-- ---------------------------------------------------------------------------

/-- Nothing waits for a phase that is over. -/
def Drained (m : Machine Cb) : Prop := ∀ p, .left p ∈ m.log → (m.phases p).callbacks = []

theorem Drained.sched {m : Machine Cb} (hd : Drained m) (h : BootInv m) {cb : Cb} {p : Phase}
    (hlate : ¬ Late m (.sched cb p)) : Drained (bootStateSchedCallback m cb p).2 := by
  simp only [bootStateSchedCallback]
  split
  · exact hd
  rename_i hc
  intro q hq
  replace hq : .left q ∈ m.log := by simpa using hq
  by_cases heq : q = p
  · subst heq
    exact (((h.left q).mp hq).elim hc hlate).elim
  · simpa [heq] using hd q hq

omit [DecidableEq Cb] in
theorem leavePhase_phases (m : Machine Cb) : (leavePhase m).phases = m.phases := by
  simp only [leavePhase, bsWalk]
  split
  · rfl
  split <;> rfl

omit [DecidableEq Cb] in
theorem left_leavePhase (m : Machine Cb) :
    .left q ∈ (leavePhase m).log ↔ .left q ∈ m.log ∨ q = m.current := by
  simp only [leavePhase, bsWalk]
  split
  · simp
  split <;> simp

theorem Drained.callCallbacks {m : Machine Cb} (hd : Drained m) (h : BootInv m)
    (hcontrol : m.control ≠ .stopped) : Drained (bsCallCallbacks m) := by
  have hcurrent := h.current_not_left hcontrol
  simp only [bsCallCallbacks]
  split
  · intro q hq
    replace hq : .left q ∈ m.log := by simpa using hq
    have hne : q ≠ m.current := fun h => hcurrent (h ▸ hq)
    simpa [hne] using hd q hq
  · rename_i hempty
    split
    · exact hd
    · intro q hq
      rw [leavePhase_phases]
      rcases left_leavePhase m |>.mp hq with hq | rfl
      · exact hd q hq
      · exact hempty

theorem Drained.act {m : Machine Cb} (hd : Drained m) (h : BootInv m) {a : BootAction Cb}
    (ha : Allowed m a) (hlate : ¬ Late m a) : Drained (act m a) := by
  cases a with
  | sched cb p => exact hd.sched h hlate
  | block p =>
    simp only [Boot.act, bootStateBlock]
    split
    · exact hd
    · intro q hq
      replace hq : .left q ∈ m.log := by simpa using hq
      by_cases heq : q = p
      · subst heq
        simpa using hd q hq
      · simpa [heq] using hd q hq
  | unblock p =>
    simp only [Boot.act, bootStateUnblock]
    split
    · exact hd
    split
    · exact hd
    · intro q hq
      replace hq : .left q ∈ m.log := by simpa using hq
      by_cases heq : q = p
      · subst heq
        simpa using hd q hq
      · simpa [heq] using hd q hq
  | ret wake =>
    simp only [Boot.act, Boot.resume]
    split
    · simp only [bsWalk]
      split <;> exact hd
    · exact hd.callCallbacks h ha
    · exact hd.callCallbacks h ha
    · exact hd.callCallbacks h ha
    · have hnext : ∀ next, BootInv { m with next } := fun next =>
        ⟨h.each, h.phase, h.conserve, h.blockers, h.left, h.function, h.running⟩
      exact Drained.callCallbacks hd (hnext _) ha
    · exact hd

-- ---------------------------------------------------------------------------
-- Runs
-- ---------------------------------------------------------------------------

theorem BootInv.right {m : Machine Cb} (h : BootInv m) (hd : Drained m) : Right m := by
  refine ⟨h.each, fun p hp cb => ?_, fun p cb => ?_, h.blockers⟩
  · rw [h.conserve p cb, hd p hp, List.count_nil, Nat.add_zero]
  · rw [h.conserve p cb]
    exact Nat.le_add_right _ _

theorem Late.wrong {m : Machine Cb} {a : BootAction Cb} (hlate : Late m a) (h : BootInv m)
    (ha : Allowed m a) : ¬ Right (act m a) := by
  cases a with
  | sched cb p =>
    obtain ⟨rfl, hseq⟩ := hlate
    intro hr
    have hc := h.running ha.1
    have hleft := (h.left ⟨m.current.state, .onEntry⟩).mpr (.inr ⟨rfl, hseq⟩)
    have hbooks := h.conserve ⟨m.current.state, .onEntry⟩ cb
    have hdrained := hr.drained ⟨m.current.state, .onEntry⟩ (by
      simpa [Boot.act, bootStateSchedCallback, hc] using hleft) cb
    simp [Boot.act, bootStateSchedCallback, hc, List.count_append] at hdrained
    omega
  | block p => cases hlate
  | unblock p => cases hlate
  | ret wake => cases hlate

/-- A callback is lost exactly where it is accepted for the entry of the
current state when that is over. -/
theorem boot_right_iff {acts : List (BootAction Cb)} (h : Steps act start Allowed acts) :
    Always act start Right acts ↔ Steps act start (fun m a => ¬ Late m a) acts := by
  have hinv : ∀ pre, pre <+: acts → BootInv (pre.foldl act start) := fun pre hpre =>
    invariant BootInv.start (fun m a hm ha => hm.act ha) (Each.of_prefix h hpre)
  constructor
  · intro hright pre a hpre hlate
    have hbefore := hinv pre ((List.prefix_append pre [a]).trans hpre)
    have hafter := hright _ hpre
    rw [List.foldl_append] at hafter
    exact hlate.wrong hbefore (h pre a hpre) hafter
  · intro htimely pre hpre
    have hdrained : BootInv (pre.foldl act start) ∧ Drained (pre.foldl act start) := by
      refine invariant (I := fun m => BootInv m ∧ Drained m) (Q := fun m a => Allowed m a ∧ ¬ Late m a)
        ⟨BootInv.start, ?_⟩ ?_ ?_
      · intro p hp
        rfl
      · exact fun m a hm ha => ⟨hm.1.act ha.1, hm.2.act hm.1 ha.1 ha.2⟩
      · exact fun l a hl => ⟨h l a (hl.trans hpre), htimely l a (hl.trans hpre)⟩
    exact hdrained.1.right hdrained.2

end Spec

-- ---------------------------------------------------------------------------
-- Two runs
-- ---------------------------------------------------------------------------

/-- A static entry for the exit of the first state, which is run there. -/
def staticRun : List (BootAction Nat) :=
  [.sched 7 ⟨.preDevice, .onExit⟩] ++ [.ret false] ++ [.ret false] ++ [.ret false] ++ [.ret false]

theorem Allowed.ret {m : Machine Cb} (h : m.control ≠ .stopped) : Allowed m (.ret wake) := h

theorem staticRun_allowed : Steps act start Allowed staticRun :=
  ((((Each.nil.concat ⟨by decide, fun _ => List.not_mem_nil⟩).concat (Allowed.ret (by decide))).concat
    (Allowed.ret (by decide))).concat (Allowed.ret (by decide))).concat (Allowed.ret (by decide))

theorem boot_right_iff_static : Always act start Right staticRun ↔
    Steps act start (fun m a => ¬ Late m a) staticRun :=
  boot_right_iff staticRun_allowed

/-- The function of the first state schedules an on-entry callback for it. -/
def lateRun : List (BootAction Nat) :=
  [.ret false] ++ [.ret false] ++ [.sched 7 ⟨.preDevice, .onEntry⟩]

/-- The call returns 0, and the callback is not run. -/
theorem boot_late_callback :
    Steps act start Allowed lateRun ∧
      (bootStateSchedCallback ([.ret false, .ret false].foldl act start) 7 ⟨.preDevice, .onEntry⟩).1 = 0 ∧
      ¬ Always act start Right lateRun := by
  refine ⟨?_, by decide, fun h => ?_⟩
  · exact ((Each.nil.concat (Allowed.ret (by decide))).concat (Allowed.ret (by decide))).concat
      ⟨by decide, fun _ => List.not_mem_nil⟩
  · have hdrained := (h lateRun (List.prefix_refl _)).drained ⟨.preDevice, .onEntry⟩ (by decide) 7
    exact absurd hdrained (by decide)

end ItxLlama.Coreboot.Boot
