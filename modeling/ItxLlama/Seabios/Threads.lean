import ItxLlama.Lib.Hlist
import ItxLlama.Lib.Word

/-!
# Cooperative threads

The threads of `stacks.c`. A `thread_info` at `t` has `stackpos` at `t` and
its list node at `t + 4`; the stack of a thread other than the main one is
the 4096 bytes at `t`. The machine runs one thread at a time, the one whose
stack `esp` is on; every step below is a step of that thread, up to the next
place where it calls one of these functions.
-/

namespace ItxLlama.Seabios

open Lib.Word Lib.Hlist

def threadStackSize : Nat := 4096

def mainStackMax : Nat := 1024 * 1024

/-- Where a thread goes on when it is switched to: in its own code, in the
loop of `mutex_lock` or in the loop of `wait_threads`. -/
inductive ThreadWait where
  | running
  | locking (mutex : Nat)
  | joining
  deriving DecidableEq, Repr

structure Threads where
  mem : Mem
  esp : Nat
  /-- the thread whose function has returned, and `%ebx`: its next node -/
  ending : Option (Nat × Nat)
  isLocked : Nat → Bool
  /-- the blocks of `memalign_tmphigh` that are not freed -/
  allocated : List Nat
  /-- the threads whose function has started and not returned -/
  live : List Nat
  waits : Nat → ThreadWait
  /-- between its `mutex_lock` and its `mutex_unlock` -/
  holds : Nat → Nat → Bool

section Machine

-- `&MainThread`
variable (main : Nat)

def getCurThread (esp : Nat) : Nat :=
  if esp ≤ mainStackMax then main else alignDown esp threadStackSize

/-- `MainThread` before any other thread. -/
def mainOnly (m : Mem) : Mem :=
  store (store (store m main 0) (main + 4) (main + 4)) (main + 8) (main + 4)

def haveThreads (s : Threads) : Bool := s.mem (main + 4) != main + 4

/-- The return address and `%ebp` are pushed before `esp` is saved, and
popped after the other thread's is loaded. -/
def switchNext (s : Threads) : Threads :=
  let cur := getCurThread main s.esp
  let next := s.mem (cur + 4) - 4
  if cur = next then s
  else
    let m := store s.mem cur (s.esp - 8)
    { s with mem := m, esp := m next + 8 }

/-- `run_thread`, with the block that `memalign_tmphigh` returned; without
one `func` is an ordinary call. -/
def runThread (s : Threads) (thread : Option Nat) : Threads :=
  match thread with
  | none => s
  | some thread =>
    let m := store s.mem thread (thread + threadStackSize)
    let cur := getCurThread main s.esp
    let m := hlistAdd m (thread + 4) (cur + 4)
    let m := store m cur (s.esp - 8)
    { s with
      mem := m
      esp := m thread - 4
      allocated := thread :: s.allocated
      live := thread :: s.live
      waits := Function.update s.waits thread .running }

/-- `func` has returned: the main thread's stack is loaded for the call of
`__end_thread`. -/
def leaveThread (s : Threads) : Threads :=
  let thread := getCurThread main s.esp
  { s with
    ending := some (thread, s.mem (thread + 4))
    esp := s.mem main
    live := s.live.erase thread }

/-- `__end_thread(old)`, and the switch to the thread behind it. -/
def endThread (s : Threads) (old next : Nat) : Threads :=
  let m := hlistDel s.mem (old + 4)
  { s with
    mem := m
    esp := m (next - 4) + 8
    ending := none
    allocated := s.allocated.erase old
    holds := Function.update s.holds old fun _ => false }

inductive ThreadOp where
  /-- calls and returns in the thread's own code -/
  | move (esp : Nat)
  | run (thread : Option Nat)
  | yield
  | lock (mutex : Nat)
  /-- one turn of the loop in `mutex_lock` -/
  | spin
  | unlock (mutex : Nat)
  | wait
  /-- one turn of the loop in `wait_threads` -/
  | join
  | leave
  | finish
  deriving DecidableEq, Repr

/-- A thread stays on its stack, with room for what a switch pushes. -/
def OnStack (t esp : Nat) : Prop :=
  if t = main then 8 ≤ esp ∧ esp ≤ mainStackMax else t + 20 ≤ esp ∧ esp < t + threadStackSize

instance (t esp : Nat) : Decidable (OnStack main t esp) := by
  unfold OnStack
  infer_instance

/-- What `memalign_tmphigh(4096, 4096)` gives: a block above the main stack
that is in no other use. -/
def FreshStack (s : Threads) (t : Nat) : Prop :=
  threadStackSize ∣ t ∧ mainStackMax ≤ t ∧ t ∉ s.allocated

instance (s : Threads) (t : Nat) : Decidable (FreshStack s t) := by
  unfold FreshStack
  infer_instance

/-- One step of the running thread, where it can take one. -/
def threadStep (s : Threads) (op : ThreadOp) : Option Threads :=
  let cur := getCurThread main s.esp
  match s.ending, s.waits cur, op with
  | some (old, next), _, .finish => some (endThread s old next)
  | some _, _, _ => none
  | none, .running, .move esp => if OnStack main cur esp then some { s with esp := esp } else none
  | none, .running, .run none => some s
  | none, .running, .run (some t) =>
    if FreshStack s t then some (runThread main s (some t)) else none
  | none, .running, .yield => some (switchNext main s)
  | none, .running, .lock mutex =>
    some { s with waits := Function.update s.waits cur (.locking mutex) }
  | none, .running, .unlock mutex =>
    if s.holds cur mutex then
      some { s with
        isLocked := Function.update s.isLocked mutex false
        holds := Function.update s.holds cur (Function.update (s.holds cur) mutex false) }
    else none
  | none, .running, .wait => some { s with waits := Function.update s.waits cur .joining }
  | none, .running, .leave => if cur = main then none else some (leaveThread main s)
  | none, .locking mutex, .spin =>
    if s.isLocked mutex then some (switchNext main s)
    else
      some { s with
        isLocked := Function.update s.isLocked mutex true
        waits := Function.update s.waits cur .running
        holds := Function.update s.holds cur (Function.update (s.holds cur) mutex true) }
  | none, .joining, .join =>
    if haveThreads main s then some (switchNext main s)
    else some { s with waits := Function.update s.waits cur .running }
  | _, _, _ => none

/-- The state at `thread_init`, with the main thread in its own code. -/
structure ThreadsStart (s : Threads) : Prop where
  mem : ∃ m, s.mem = mainOnly main m
  esp : OnStack main main s.esp
  ending : s.ending = none
  allocated : s.allocated = []
  live : s.live = []
  waits : s.waits main = .running
  holds : ∀ t mutex, s.holds t mutex = false

/-- What the machine can do from `s₀`, in any order of steps. -/
inductive ThreadRun (s₀ : Threads) : Threads → Prop where
  | start : ThreadRun s₀ s₀
  | step (op : ThreadOp) : ThreadRun s₀ s → threadStep main s op = some s' → ThreadRun s₀ s'

end Machine

end ItxLlama.Seabios
