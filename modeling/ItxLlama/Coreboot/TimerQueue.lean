import Mathlib.Data.BitVec
import Mathlib.Logic.Function.Basic

/-!
# The timer queue

`lib/timer_queue.c`: callbacks by expiration, in a heap of at most 64
entries. A callback is an object of a type `Ptr`; its expiration is a field
that scheduling writes. Times are signed 32-bit microseconds.
-/

namespace ItxLlama.Coreboot.Timer

def maxTimerQueueEntries : Nat := 64

/-- A `long` with the low bits of `x`. -/
def long (x : Int) : Int := x.bmod (2 ^ 32)

def monoTimeCmp (t1 t2 : Int) : Int :=
  if t1 = t2 then 0 else if t1 < t2 then -1 else 1

def monoTimeBefore (t1 t2 : Int) : Bool := monoTimeCmp t1 t2 < 0

def monoTimeAddUsecs (mt us : Int) : Int := long (mt + us)

structure TimerQueue (Ptr : Type) where
  numEntries : Nat
  queue : Nat → Ptr

section Queue

variable {Ptr : Type} (expiration : Ptr → Int)

def timerQueueEmpty (tq : TimerQueue Ptr) : Bool := tq.numEntries = 0

def timerQueueFull (tq : TimerQueue Ptr) : Bool := tq.numEntries = maxTimerQueueEntries

def timerQueueHead (tq : TimerQueue Ptr) : Option Ptr :=
  if timerQueueEmpty tq then none else some (tq.queue 0)

/-- The loop of `timer_queue_insert`. -/
def insertLoop (tocb : Ptr) (index : Nat) (queue : Nat → Ptr) : Nat → Ptr :=
  if index = 0 then queue
  else
    let parentIndex := (index - 1) / 2
    let parent := queue parentIndex
    -- all other ancestors are less than or equal to the current
    if monoTimeCmp (expiration parent) (expiration tocb) ≤ 0 then queue
    else insertLoop tocb parentIndex
      (Function.update (Function.update queue parentIndex tocb) index parent)
termination_by index
decreasing_by omega

def timerQueueInsert (tq : TimerQueue Ptr) (tocb : Ptr) : Int × TimerQueue Ptr :=
  if timerQueueFull tq then (-1, tq)
  else
    let index := tq.numEntries
    (0, ⟨tq.numEntries + 1, insertLoop expiration tocb index (Function.update tq.queue index tocb)⟩)

/-- The index of the child with the smallest value; `none` is a negative index. -/
def timerQueueMinChildIndex (numEntries : Nat) (queue : Nat → Ptr) (index : Nat) : Option Nat :=
  let leftChildIndex := 2 * index + 1
  if leftChildIndex ≥ numEntries then none
  else
    let rightChildIndex := leftChildIndex + 1
    if rightChildIndex ≥ numEntries then some leftChildIndex
    else if monoTimeCmp (expiration (queue leftChildIndex)) (expiration (queue rightChildIndex)) < 0 then
      some leftChildIndex
    else some rightChildIndex

theorem index_lt_minChildIndex {queue : Nat → Ptr}
    (h : timerQueueMinChildIndex expiration n queue index = some child) :
    index < child ∧ child < n := by
  simp only [timerQueueMinChildIndex] at h
  split at h
  · cases h
  split at h
  · cases h
    omega
  split at h
  · cases h
    omega
  · cases h
    omega

/-- The loop of `timer_queue_remove_head`. -/
def removeLoop (tocb : Ptr) (numEntries index : Nat) (queue : Nat → Ptr) : Nat → Ptr :=
  match h : timerQueueMinChildIndex expiration numEntries queue index with
  | none => queue
  | some minChildIndex =>
    let child := queue minChildIndex
    -- smaller than or equal to the smallest child
    if monoTimeCmp (expiration tocb) (expiration child) ≤ 0 then queue
    else
      removeLoop tocb numEntries minChildIndex
        (Function.update (Function.update queue minChildIndex tocb) index child)
termination_by numEntries - index
decreasing_by
  have := index_lt_minChildIndex expiration h
  omega

def timerQueueRemoveHead (tq : TimerQueue Ptr) : TimerQueue Ptr :=
  let numEntries := tq.numEntries - 1
  let tocb := tq.queue numEntries
  ⟨numEntries, removeLoop expiration tocb numEntries 0 (Function.update tq.queue 0 tocb)⟩

def timerQueueExpired (tq : TimerQueue Ptr) (currentTime : Int) : Option Ptr × TimerQueue Ptr :=
  match timerQueueHead tq with
  | none => (none, tq)
  | some tocb =>
    if monoTimeBefore currentTime (expiration tocb) then (none, tq)
    else (some tocb, timerQueueRemoveHead expiration tq)

end Queue

-- ---------------------------------------------------------------------------
-- The interface
-- ---------------------------------------------------------------------------

/-- `global_timer_queue` and the `expiration` fields. -/
structure State (Ptr : Type) where
  tq : TimerQueue Ptr
  expiration : Ptr → Int

section Interface

variable {Ptr : Type} [DecidableEq Ptr]

/-- `us` is an unsigned 32-bit word, `currentTime` what the clock gives. -/
def timerSchedCallback (s : State Ptr) (currentTime : Int) (tocb : Ptr) (us : Nat) :
    Int × State Ptr :=
  if long us < 0 then (-1, s)
  else
    let s := { s with
      expiration := Function.update s.expiration tocb (monoTimeAddUsecs currentTime (long us)) }
    -- the expiration overflowed
    if us ≠ 0 ∧ monoTimeBefore currentTime (s.expiration tocb) = false then (-1, s)
    else
      let r := timerQueueInsert s.expiration s.tq tocb
      (r.1, { s with tq := r.2 })

/-- `callback` is what the call of a callback does to the timers. -/
def timersRun (s : State Ptr) (currentTime : Int) (callback : Ptr → State Ptr → State Ptr) :
    Bool × State Ptr :=
  let r := timerQueueExpired s.expiration s.tq currentTime
  let s := { s with tq := r.2 }
  let s := match r.1 with
    | some tocb => callback tocb s
    | none => s
  (!timerQueueEmpty s.tq, s)

end Interface

end ItxLlama.Coreboot.Timer
