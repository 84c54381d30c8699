import ItxLlama.Coreboot.BootStates
import ItxLlama.Coreboot.TimerQueueLaws

/-!
# Cooperative threads

`lib/thread.c` over the timer queue and the boot state machine. A thread is
its index in `all_threads`, and the two lists are lists of indexes. A step is
one call of the code that runs on the CPU, which is some client's: the
functions given to `thread_run`, the callbacks of timers and boot states.
-/

namespace ItxLlama.Coreboot.CoopThreads

open Timer Boot

/-- A `struct timeout_callback`: the one on the stack of a thread in
`thread_yield_microseconds`, or a client's own. -/
inductive Tocb where
  | thread (t : Nat)
  | client (c : Nat)
  deriving DecidableEq

/-- What a thread begins with: `main` has no wrapper, and the idle thread `call_wrapper`. -/
inductive Wrapper where
  | main
  | idle
  | blockCurrent
  | blockState (p : Phase)
  deriving DecidableEq

structure Thread (Fn : Type) where
  canYield : Bool
  entry : Option Fn
  wrapper : Wrapper
  /-- the wrapper has been entered -/
  started : Bool
  /-- the phase that the wrapper has blocked -/
  bound : Option Phase

structure Sys (Fn Cb : Type) where
  threads : Nat → Thread Fn
  current : Nat
  runnable : List Nat
  free : List Nat
  timers : Timer.State Tocb
  boot : Machine Cb
  /-- `die` was called -/
  died : Bool
  /-- the functions whose `thread_run` returned 0, those entered and those that returned -/
  accepted : List Fn
  entered : List Fn
  finished : List Fn
  /-- the blocks of the clients themselves that they have not taken back -/
  held : Phase → Nat

section Model

variable {Fn Cb : Type}

namespace Sys

variable (s : Sys Fn Cb)

def setThread (t : Nat) (thread : Thread Fn) : Sys Fn Cb :=
  { s with threads := Function.update s.threads t thread }

/-- `boot_state_block`, called by the wrapper of the thread. -/
def enter (t : Nat) (p : Phase) : Sys Fn Cb :=
  let thread := s.threads t
  let r := bootStateBlock s.boot p
  { s.setThread t { thread with started := true, bound := if r.1 = 0 then some p else none } with
    boot := r.2
    entered := s.entered ++ thread.entry.toList }

/-- `switch_to_thread`; a new thread runs its wrapper up to its function. -/
def switchToThread (t : Nat) : Sys Fn Cb :=
  let s := { s with current := t }
  let thread := s.threads t
  if thread.started then s
  else
    match thread.wrapper with
    | .main => s
    | .idle => s.setThread t { thread with started := true, canYield := false }
    | .blockCurrent => s.enter t s.boot.current
    | .blockState p => s.enter t p

def schedule : Option Nat → Sys Fn Cb
  | none =>
    match s.runnable with
    | [] => { s with died := true }
    | t :: rest => { s with runnable := rest }.switchToThread t
  -- current is still runnable
  | some t => { s with runnable := s.current :: s.runnable }.switchToThread t

def threadRun (func : Fn) (wrapper : Wrapper) : Sys Fn Cb :=
  if !(s.threads s.current).canYield then s
  else
    match s.free with
    | [] => s
    | t :: rest =>
      -- get_free_thread and prepare_thread
      let s := { s with free := rest, accepted := s.accepted ++ [func] }
      (s.setThread t ⟨true, some func, wrapper, false, none⟩).schedule (some t)

def threadYieldMicroseconds (now : Int) (us : Nat) : Sys Fn Cb :=
  if !(s.threads s.current).canYield then s
  else
    let r := timerSchedCallback s.timers now (.thread s.current) us
    let s := { s with timers := r.2 }
    if r.1 ≠ 0 then s else s.schedule none

/-- What the wrapper does when the function of the thread returns. -/
def terminateThread : Sys Fn Cb :=
  let thread := s.threads s.current
  let boot := match thread.wrapper with
    | .blockCurrent => (bootStateUnblock s.boot s.boot.current).2
    | .blockState p => (bootStateUnblock s.boot p).2
    | _ => s.boot
  { s with
    boot := boot
    finished := s.finished ++ thread.entry.toList
    free := s.current :: s.free }.schedule none

/-- `timers_run`; what a client's callback does are the steps that follow. -/
def timersRun (now : Int) : Sys Fn Cb :=
  let r := timerQueueExpired s.timers.expiration s.timers.tq now
  let s := { s with timers := { s.timers with tq := r.2 } }
  match r.1 with
  | some (.thread t) => s.schedule (some t)
  | _ => s

def setCanYield (canYield : Bool) : Sys Fn Cb :=
  s.setThread s.current { s.threads s.current with canYield }

/-- A call of the boot state machine. -/
def bootAct (a : BootAction Cb) : Sys Fn Cb :=
  { s with
    boot := act s.boot a
    held := match a with
      | .block p =>
        if (bootStateBlock s.boot p).1 = 0 then Function.update s.held p (s.held p + 1) else s.held
      | .unblock p =>
        if (bootStateUnblock s.boot p).1 = 0 then Function.update s.held p (s.held p - 1)
        else s.held
      | _ => s.held }

end Sys

inductive Act (Fn Cb : Type) where
  | threadRun (func : Fn)
  | threadRunUntil (func : Fn) (p : Phase)
  | threadYieldMicroseconds (now : Int) (us : Nat)
  | ret
  | timersRun (now : Int)
  | timerSchedCallback (now : Int) (c us : Nat)
  | threadCooperate
  | threadPreventCoop
  | boot (a : BootAction Cb)

def step (s : Sys Fn Cb) : Act Fn Cb → Sys Fn Cb
  | .threadRun func => s.threadRun func .blockCurrent
  | .threadRunUntil func p => s.threadRun func (.blockState p)
  | .threadYieldMicroseconds now us => s.threadYieldMicroseconds now us
  | .ret => s.terminateThread
  | .timersRun now => s.timersRun now
  | .timerSchedCallback now c us =>
    { s with timers := (timerSchedCallback s.timers now (.client c) us).2 }
  | .threadCooperate => s.setCanYield true
  | .threadPreventCoop => s.setCanYield false
  | .boot a => s.bootAct a

/-- A delay and a clock that fit in 32 bits. -/
def InTime (now : Int) (us : Nat) : Prop := -2 ^ 31 ≤ now ∧ now < 2 ^ 31 ∧ us < 2 ^ 32

/-- Who calls what while the boot state machine runs: `main` and the idle thread do not return,
the idle thread's callbacks do not call `thread_cooperate`, only `main` runs the boot state
machine, an object is not scheduled while it is queued, and a client takes back only blocks of
its own. -/
def Allowed (s : Sys Fn Cb) (a : Act Fn Cb) : Prop :=
  s.boot.control ≠ .stopped ∧
    match a with
    | .threadYieldMicroseconds now us => InTime now us
    | .ret => s.current ≠ 0 ∧ (s.threads s.current).wrapper ≠ .idle
    | .timerSchedCallback now c us => InTime now us ∧ .client c ∉ s.timers.tq.queued
    | .threadCooperate => (s.threads s.current).wrapper ≠ .idle
    | .boot (.ret _) => s.current = 0
    | .boot (.unblock p) => 0 < s.held p
    | _ => True

/-- The state behind `threads_initialize`, with `n` the number of threads beside `main`. The
idle thread is the last one freed. -/
def threadsInitialize (n : Nat) (queue : Nat → Tocb) (expiration : Tocb → Int)
    (boot : Machine Cb) : Sys Fn Cb where
  threads t :=
    if t = 0 then ⟨true, none, .main, true, none⟩
    else if t = n then ⟨true, none, .idle, false, none⟩
    else ⟨false, none, .main, false, none⟩
  current := 0
  runnable := [n]
  free := (List.range' 1 (n - 1)).reverse
  timers := ⟨⟨0, queue⟩, expiration⟩
  boot := boot
  died := false
  accepted := []
  entered := []
  finished := []
  held p := (boot.phases p).blockers

/-- The states of a run. -/
inductive Reachable (init : Sys Fn Cb) : Sys Fn Cb → Prop
  | init : Reachable init init
  | step (h : Reachable init s) (hallowed : Allowed s a) : Reachable init (step s a)

end Model

end ItxLlama.Coreboot.CoopThreads
