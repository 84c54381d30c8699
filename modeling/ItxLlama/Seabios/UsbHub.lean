import ItxLlama.Lib.Word
import ItxLlama.Lib.Tally
import Mathlib.Data.ZMod.Basic
import Mathlib.Tactic.LinearCombination

/-!
# The enumeration of a USB hub

`usb_enumerate` of `hw/usb.c` launches a thread for every port and waits for
them; a thread goes through `usb_hub_port_setup`, with `usb_set_address` and
`configure_usb_device`. A step of a thread is one call of these functions, and
its outcome is in the step; the threads take their steps in any order.
-/

namespace ItxLlama.Seabios.UsbHub

open Lib.Word Lib.Tally

def usbMaxaddr : Nat := 127

/-- Where the thread of a port is: at this call. -/
inductive Pc where
  -- not launched, or without memory for its device structure
  | idle | noMemory
  | detect | lock | reset
  -- usb_set_address
  | allocPipe | sendAddress | updateAddress
  | disconnect | resetfail | unlock
  -- configure_usb_device
  | deviceInfo | updatePipe | driver
  | freePipe | done | ended
  deriving DecidableEq, Repr

/-- The device structure of a port and the variables of its thread. A pipe is named by its
allocation. -/
structure Port where
  pc : Pc
  defpipe : Option Nat
  speed : Int
  devaddr : Nat
  count : Int
  /-- how often the structure has been freed -/
  frees : Nat

/-- What the threads share: the hub's counters and the controller. -/
structure Shared where
  threads : Nat
  devcount : Nat
  maxaddr : Nat
  isLocked : Bool
  /-- the number of pipes allocated -/
  pipes : Nat
  pipeFrees : Nat → Nat

/-- `--` on 32 bits. -/
def decrement (x : Nat) : Nat := if x = 0 then 2 ^ 32 - 1 else x - 1

namespace Shared

def freePipe (sh : Shared) : Option Nat → Shared
  | none => sh
  | some pipe => { sh with pipeFrees := Function.update sh.pipeFrees pipe (sh.pipeFrees pipe + 1) }

/-- `usb_alloc_pipe`; it has no memory if `ret` is not zero. -/
def allocPipe (sh : Shared) (ret : Int) : Shared × Option Nat :=
  if ret ≠ 0 then (sh, none) else ({ sh with pipes := sh.pipes + 1 }, some sh.pipes)

/-- `hub->devcount += count` -/
def addCount (sh : Shared) (count : Int) : Shared :=
  { sh with devcount := ((sh.devcount + count) % 2 ^ 32).toNat }

/-- `hub->threads--` -/
def endThread (sh : Shared) : Shared := { sh with threads := decrement sh.threads }

/-- The pipe of an xHCI device stays, others are freed and allocated anew. -/
def updatePipe (sh : Shared) (xhci : Bool) (pipe : Option Nat) (ret : Int) : Shared × Option Nat :=
  if xhci then (sh, pipe) else (sh.freePipe pipe).allocPipe ret

end Shared

section Machine

variable (xhci : Bool)

/-- A step of the thread of a port; `ret` is what the call returns, 0 for success. -/
def portStep (sh : Shared) (port : Port) (ret : Int) : Option (Shared × Port) :=
  match port.pc with
  | .idle | .noMemory | .ended => none
  | .detect => some (sh, { port with pc := if ret ≠ 0 then .done else .lock })
  | .lock => if sh.isLocked then none else some ({ sh with isLocked := true }, { port with pc := .reset })
  | .reset =>
    some (sh, if ret < 0 then { port with pc := .resetfail }
      else { port with pc := .allocPipe, speed := ret })
  | .allocPipe =>
    if sh.maxaddr ≥ usbMaxaddr then some (sh, { port with pc := .disconnect })
    else
      let r := sh.allocPipe ret
      some (r.1, { port with defpipe := r.2, pc := if r.2 = none then .disconnect else .sendAddress })
  | .sendAddress =>
    if ret ≠ 0 then some (sh.freePipe port.defpipe, { port with pc := .disconnect })
    else some (sh, { port with pc := .updateAddress })
  | .updateAddress =>
    let sh := { sh with maxaddr := u8 (sh.maxaddr + 1) }
    let r := sh.updatePipe xhci port.defpipe ret
    some (r.1, { port with
      devaddr := sh.maxaddr, defpipe := r.2, pc := if r.2 = none then .disconnect else .unlock })
  | .disconnect => some (sh, { port with pc := .resetfail })
  | .resetfail => some ({ sh with isLocked := false }, { port with pc := .done })
  | .unlock => some ({ sh with isLocked := false }, { port with pc := .deviceInfo })
  | .deviceInfo =>
    some (sh, if ret ≠ 0 then { port with count := 0, pc := .freePipe }
      else { port with pc := .updatePipe })
  | .updatePipe =>
    let r := sh.updatePipe xhci port.defpipe ret
    some (r.1, if r.2 = none then { port with defpipe := r.2, count := -1, pc := .freePipe }
      else { port with defpipe := r.2, pc := .driver })
  | .driver => some (sh, { port with count := if ret ≠ 0 then 0 else 1, pc := .freePipe })
  | .freePipe =>
    some ((sh.freePipe port.defpipe).addCount port.count, { port with pc := .done })
  | .done => some (sh.endThread, { port with frees := port.frees + 1, pc := .ended })

structure Hub (n : Nat) where
  shared : Shared
  ports : Fin n → Port
  /-- the next port to launch a thread for -/
  i : Nat
  returned : Bool
  /-- a thread of another hub holds the controller's lock -/
  other : Bool

/-- `malloc_tmphigh` of the next port's structure, a call of a port's thread, the return of
`usb_enumerate`, and the other hubs of the controller. -/
inductive Act (n : Nat) where
  | malloc (ok : Bool)
  | port (p : Fin n) (ret : Int)
  | ret
  | otherLock
  | otherUnlock (maxaddr : Nat)

variable {n : Nat}

def step (s : Hub n) : Act n → Option (Hub n)
  | .malloc ok =>
    if hi : s.i < n then
      some { s with
        ports := Function.update s.ports ⟨s.i, hi⟩
          { s.ports ⟨s.i, hi⟩ with pc := if ok then .detect else .noMemory }
        i := s.i + 1 }
    else none
  | .port p ret =>
    (portStep xhci s.shared (s.ports p) ret).map fun r =>
      { s with shared := r.1, ports := Function.update s.ports p r.2 }
  | .ret =>
    if s.i = n ∧ s.shared.threads = 0 ∧ s.returned = false then some { s with returned := true } else none
  | .otherLock =>
    if s.shared.isLocked then none
    else some { s with shared := { s.shared with isLocked := true }, other := true }
  | .otherUnlock maxaddr =>
    if s.other then
      some { s with
        shared := { s.shared with isLocked := false, maxaddr := maxaddr }
        other := false }
    else none

def run (s : Hub n) : List (Act n) → Option (Hub n)
  | [] => some s
  | a :: acts => (step xhci s a).bind fun t => run t acts

end Machine

def startPort : Port := ⟨.idle, none, 0, 0, 0, 0⟩

def start (n maxaddr : Nat) : Hub n where
  shared := ⟨n, 0, maxaddr, false, 0, fun _ => 0⟩
  ports _ := startPort
  i := 0
  returned := false
  other := false

-- ---------------------------------------------------------------------------
-- What one step keeps
-- ---------------------------------------------------------------------------

def own (defpipe : Option Nat) (pipe : Nat) : Nat := if defpipe = some pipe then 1 else 0

namespace Port

variable (port : Port)

def isEnded : Nat := if port.pc = .ended then 1 else 0

/-- What the port has added to the device count. -/
def counted : ZMod (2 ^ 32) :=
  if port.pc = .done ∨ port.pc = .ended then (port.count : ZMod (2 ^ 32)) else 0

/-- The thread is between `mutex_lock` and `mutex_unlock`. -/
def holds : Nat :=
  match port.pc with
  | .reset | .allocPipe | .sendAddress | .updateAddress | .disconnect | .resetfail | .unlock => 1
  | _ => 0

/-- The thread has the pipe and will free it. -/
def owns (pipe : Nat) : Nat :=
  match port.pc with
  | .sendAddress | .updateAddress | .unlock | .deviceInfo | .updatePipe | .driver | .freePipe =>
    own port.defpipe pipe
  | _ => 0

/-- A bound on the steps left. -/
def rank : Nat :=
  match port.pc with
  | .idle => 16
  | .detect => 15
  | .lock => 14
  | .reset => 13
  | .allocPipe => 12
  | .sendAddress => 11
  | .updateAddress => 10
  | .disconnect => 9
  | .unlock => 9
  | .resetfail => 8
  | .deviceInfo => 8
  | .updatePipe => 7
  | .driver => 6
  | .freePipe => 5
  | .done => 4
  | .noMemory => 0
  | .ended => 0

/-- The port has got no structure, or lost its pipe while it was configured. -/
def bad : Prop := port.pc = .noMemory ∨ port.count = -1

instance : Decidable port.bad := inferInstanceAs (Decidable (_ ∨ _))

/-- `count` is set when the device is configured, or not. -/
def Fresh : Prop :=
  port.count = 0 ∨ (port.count = 1 ∨ port.count = -1) ∧
    (port.pc = .freePipe ∨ port.pc = .done ∨ port.pc = .ended)

/-- The thread has a pipe until it is configured. -/
def HasPipe : Prop :=
  match port.pc with
  | .sendAddress | .updateAddress | .unlock | .deviceInfo | .updatePipe | .driver =>
    port.defpipe ≠ none
  | _ => True

end Port

def Shared.lock (sh : Shared) : Nat := if sh.isLocked then 1 else 0

def Shared.issued (sh : Shared) (pipe : Nat) : Nat := if pipe < sh.pipes then 1 else 0

/-- What the caller of a call must have. -/
structure Ready (sh : Shared) (port : Port) : Prop where
  locked : port.holds = 1 → sh.isLocked = true
  running : port.pc ≠ .ended → port.pc ≠ .noMemory → 0 < sh.threads
  count : port.Fresh
  pipe : port.HasPipe

/-- What a step of a thread keeps. -/
structure Kept (xhci : Bool) (sh : Shared) (port : Port) (ret : Int) (sh' : Shared) (port' : Port) :
    Prop where
  threads : sh'.threads + port'.isEnded = sh.threads + port.isEnded
  devcount : (sh'.devcount : ZMod (2 ^ 32)) + port.counted = sh.devcount + port'.counted
  lock : sh'.lock + port.holds = sh.lock + port'.holds
  pipes : ∀ pipe, sh'.pipeFrees pipe + port'.owns pipe + sh.issued pipe =
    sh.pipeFrees pipe + port.owns pipe + sh'.issued pipe
  frees : port'.frees + port.isEnded = port.frees + port'.isEnded
  rank : port'.rank < port.rank
  bad : port'.bad ↔ port.bad ∨ port.pc = .updatePipe ∧ xhci = false ∧ ret ≠ 0
  started : port.pc ≠ .idle ∧ port'.pc ≠ .idle
  memory : port.pc ≠ .noMemory ∧ port'.pc ≠ .noMemory
  count : port'.Fresh
  pipe : port'.HasPipe
  small : sh.devcount < 2 ^ 32 → sh'.devcount < 2 ^ 32

namespace Shared

variable (sh : Shared)

@[simp] theorem freePipe_threads (d : Option Nat) : (sh.freePipe d).threads = sh.threads := by
  cases d <;> rfl

@[simp] theorem freePipe_devcount (d : Option Nat) : (sh.freePipe d).devcount = sh.devcount := by
  cases d <;> rfl

@[simp] theorem freePipe_isLocked (d : Option Nat) : (sh.freePipe d).isLocked = sh.isLocked := by
  cases d <;> rfl

@[simp] theorem freePipe_pipes (d : Option Nat) : (sh.freePipe d).pipes = sh.pipes := by
  cases d <;> rfl

theorem freePipe_pipeFrees (d : Option Nat) (pipe : Nat) :
    (sh.freePipe d).pipeFrees pipe = sh.pipeFrees pipe + own d pipe := by
  cases d with
  | none => rfl
  | some p =>
    unfold freePipe own
    by_cases hp : p = pipe
    · subst hp
      simp
    · simp [hp, Function.update_of_ne (Ne.symm hp)]

@[simp] theorem allocPipe_threads (ret : Int) : (sh.allocPipe ret).1.threads = sh.threads := by
  unfold allocPipe
  split <;> rfl

@[simp] theorem allocPipe_devcount (ret : Int) : (sh.allocPipe ret).1.devcount = sh.devcount := by
  unfold allocPipe
  split <;> rfl

@[simp] theorem allocPipe_isLocked (ret : Int) : (sh.allocPipe ret).1.isLocked = sh.isLocked := by
  unfold allocPipe
  split <;> rfl

theorem allocPipe_pipes (ret : Int) (pipe : Nat) :
    (sh.allocPipe ret).1.pipeFrees pipe + own (sh.allocPipe ret).2 pipe + sh.issued pipe =
      sh.pipeFrees pipe + (sh.allocPipe ret).1.issued pipe := by
  unfold allocPipe
  split
  case isTrue => rfl
  case isFalse =>
    simp only [own, issued, Option.some.injEq]
    split <;> split <;> split <;> omega

@[simp] theorem updatePipe_threads (xhci : Bool) (d : Option Nat) (ret : Int) :
    (sh.updatePipe xhci d ret).1.threads = sh.threads := by
  cases xhci <;> simp [updatePipe]

@[simp] theorem updatePipe_devcount (xhci : Bool) (d : Option Nat) (ret : Int) :
    (sh.updatePipe xhci d ret).1.devcount = sh.devcount := by
  cases xhci <;> simp [updatePipe]

@[simp] theorem updatePipe_isLocked (xhci : Bool) (d : Option Nat) (ret : Int) :
    (sh.updatePipe xhci d ret).1.isLocked = sh.isLocked := by
  cases xhci <;> simp [updatePipe]

theorem updatePipe_pipes (xhci : Bool) (d : Option Nat) (ret : Int) (pipe : Nat) :
    (sh.updatePipe xhci d ret).1.pipeFrees pipe + own (sh.updatePipe xhci d ret).2 pipe + sh.issued pipe =
      sh.pipeFrees pipe + own d pipe + (sh.updatePipe xhci d ret).1.issued pipe := by
  cases xhci with
  | true => rfl
  | false =>
    have halloc := (sh.freePipe d).allocPipe_pipes ret pipe
    have hfree := sh.freePipe_pipeFrees d pipe
    have hissued : (sh.freePipe d).issued pipe = sh.issued pipe := by
      unfold issued
      rw [freePipe_pipes]
    simp only [updatePipe, Bool.false_eq_true, if_false]
    omega

@[simp] theorem addCount_threads (count : Int) : (sh.addCount count).threads = sh.threads := rfl
@[simp] theorem addCount_isLocked (count : Int) : (sh.addCount count).isLocked = sh.isLocked := rfl
@[simp] theorem addCount_pipes (count : Int) : (sh.addCount count).pipes = sh.pipes := rfl
@[simp] theorem addCount_pipeFrees (count : Int) :
    (sh.addCount count).pipeFrees = sh.pipeFrees := rfl

@[simp] theorem endThread_devcount : sh.endThread.devcount = sh.devcount := rfl
@[simp] theorem endThread_isLocked : sh.endThread.isLocked = sh.isLocked := rfl
@[simp] theorem endThread_pipes : sh.endThread.pipes = sh.pipes := rfl
@[simp] theorem endThread_pipeFrees : sh.endThread.pipeFrees = sh.pipeFrees := rfl

theorem addCount_devcount (count : Int) :
    ((sh.addCount count).devcount : ZMod (2 ^ 32)) = sh.devcount + count := by
  have hnonneg : 0 ≤ ((sh.devcount : Int) + count) % 2 ^ 32 := Int.emod_nonneg _ (by decide)
  have hcast : (((((sh.devcount : Int) + count) % 2 ^ 32).toNat : Int) : ZMod (2 ^ 32)) =
      ((sh.devcount + count : Int) : ZMod (2 ^ 32)) := by
    rw [Int.toNat_of_nonneg hnonneg]
    exact ZMod.intCast_mod _ _
  rw [Int.cast_natCast] at hcast
  rw [addCount, hcast]
  push_cast
  rfl

theorem addCount_lt (count : Int) : (sh.addCount count).devcount < 2 ^ 32 := by
  show (((sh.devcount : Int) + count) % 2 ^ 32).toNat < 2 ^ 32
  omega

theorem endThread_threads (hpos : 0 < sh.threads) : sh.endThread.threads + 1 = sh.threads := by
  show decrement sh.threads + 1 = sh.threads
  rw [decrement, if_neg (Nat.pos_iff_ne_zero.mp hpos), Nat.sub_add_cancel hpos]

theorem updatePipe_none (xhci : Bool) (d : Option Nat) (ret : Int) :
    (sh.updatePipe xhci d ret).2 = none ↔ xhci = true ∧ d = none ∨ xhci = false ∧ ret ≠ 0 := by
  cases xhci <;> simp [updatePipe, allocPipe, apply_ite Prod.snd]

end Shared

section Steps

attribute [local simp] Port.isEnded Port.counted Port.holds Port.owns Port.rank Port.bad Port.Fresh
  Port.HasPipe

variable {xhci : Bool} {sh sh' : Shared} {port port' : Port} {ret : Int}

theorem Ready.count_zero (h : Ready sh port) (hfree : port.pc ≠ .freePipe) (hdone : port.pc ≠ .done)
    (hended : port.pc ≠ .ended) : port.count = 0 := by
  rcases h.count with hzero | ⟨-, hpc | hpc | hpc⟩
  · exact hzero
  · exact absurd hpc hfree
  · exact absurd hpc hdone
  · exact absurd hpc hended

/-- The default pipe of a new device. -/
theorem allocPipe_kept (hpc : port.pc = .allocPipe) (hcount : port.count = 0)
    (h : portStep xhci sh port ret = some (sh', port')) : Kept xhci sh port ret sh' port' := by
  obtain ⟨pc, defpipe, speed, devaddr, count, frees⟩ := port
  cases hpc
  cases hcount
  simp only [portStep] at h
  split at h
  · cases h
    constructor <;> simp
  · cases h
    have hpipes := sh.allocPipe_pipes ret
    cases hr : (sh.allocPipe ret).2 <;> rw [hr] at hpipes <;> constructor <;>
      simp_all [Shared.lock, own]

/-- The pipe is updated twice: for the new address, and for the packet size. -/
theorem updateAddress_kept (hpc : port.pc = .updateAddress) (hcount : port.count = 0)
    (h : portStep xhci sh port ret = some (sh', port')) : Kept xhci sh port ret sh' port' := by
  obtain ⟨pc, defpipe, speed, devaddr, count, frees⟩ := port
  cases hpc
  cases hcount
  simp only [portStep, Option.some.injEq, Prod.mk.injEq] at h
  obtain ⟨rfl, rfl⟩ := h
  obtain ⟨next, hnext⟩ : ∃ next : Shared, next = { sh with maxaddr := u8 (sh.maxaddr + 1) } :=
    ⟨_, rfl⟩
  have hpipes := next.updatePipe_pipes xhci defpipe ret
  rw [← hnext]
  cases hr : (next.updatePipe xhci defpipe ret).2 <;> rw [hr] at hpipes <;> constructor <;>
    simp_all [Shared.lock, Shared.issued, own]

theorem updatePipe_kept (hpc : port.pc = .updatePipe) (hready : Ready sh port)
    (h : portStep xhci sh port ret = some (sh', port')) : Kept xhci sh port ret sh' port' := by
  have hcount := hready.count_zero (by simp [hpc]) (by simp [hpc]) (by simp [hpc])
  have hpipe := hready.pipe
  obtain ⟨pc, defpipe, speed, devaddr, count, frees⟩ := port
  cases hpc
  cases hcount
  simp only [portStep, Option.some.injEq, Prod.mk.injEq] at h
  obtain ⟨rfl, rfl⟩ := h
  have hpipes := sh.updatePipe_pipes xhci defpipe ret
  have hbad := sh.updatePipe_none xhci defpipe ret
  have hsome : defpipe ≠ none := hpipe
  cases hr : (sh.updatePipe xhci defpipe ret).2 <;> rw [hr] at hpipes hbad <;> constructor <;>
    simp_all [Shared.lock, own]

/-- The pipe is given back, and the port's count added. -/
theorem freePipe_kept (hpc : port.pc = .freePipe) (hready : Ready sh port)
    (h : portStep xhci sh port ret = some (sh', port')) : Kept xhci sh port ret sh' port' := by
  have hcount := hready.count
  obtain ⟨pc, defpipe, speed, devaddr, count, frees⟩ := port
  cases hpc
  simp only [portStep, Option.some.injEq, Prod.mk.injEq] at h
  obtain ⟨rfl, rfl⟩ := h
  have hpipes := sh.freePipe_pipeFrees defpipe
  have hsum := (sh.freePipe defpipe).addCount_devcount count
  have hlt := (sh.freePipe defpipe).addCount_lt count
  refine ⟨?_, ?_, ?_, fun pipe => ?_, rfl, ?_, ?_, ?_, ?_, ?_, trivial, fun _ => hlt⟩ <;>
    simp [hsum, hpipes, Shared.lock, Shared.issued]
  simpa using hcount

/-- The thread ends. -/
theorem done_kept (hpc : port.pc = .done) (hready : Ready sh port)
    (h : portStep xhci sh port ret = some (sh', port')) : Kept xhci sh port ret sh' port' := by
  have hcount := hready.count
  have hless := sh.endThread_threads
    (hready.running (by simp [hpc]) (by simp [hpc]))
  obtain ⟨pc, defpipe, speed, devaddr, count, frees⟩ := port
  cases hpc
  simp only [portStep, Option.some.injEq, Prod.mk.injEq] at h
  obtain ⟨rfl, rfl⟩ := h
  refine ⟨?_, ?_, rfl, fun _ => rfl, rfl, by simp, by simp, by simp, by simp, ?_, trivial, id⟩
  · simpa using hless
  · simp
  · simpa using hcount

theorem portStep_kept (hready : Ready sh port)
    (h : portStep xhci sh port ret = some (sh', port')) : Kept xhci sh port ret sh' port' := by
  have hlocked := hready.locked
  have hpipe := hready.pipe
  have hzero := hready.count_zero
  cases hpc : port.pc
  case allocPipe =>
    exact allocPipe_kept hpc (hzero (by simp [hpc]) (by simp [hpc]) (by simp [hpc])) h
  case updateAddress =>
    exact updateAddress_kept hpc (hzero (by simp [hpc]) (by simp [hpc]) (by simp [hpc])) h
  case updatePipe => exact updatePipe_kept hpc hready h
  case freePipe => exact freePipe_kept hpc hready h
  case done => exact done_kept hpc hready h
  all_goals
    obtain ⟨pc, defpipe, speed, devaddr, count, frees⟩ := port
    cases hpc
  case idle | noMemory | ended => cases h
  all_goals obtain rfl : count = 0 := hzero (by simp) (by simp) (by simp)
  case detect =>
    simp only [portStep, Option.some.injEq, Prod.mk.injEq] at h
    obtain ⟨rfl, rfl⟩ := h
    split <;> constructor <;> simp
  case lock =>
    simp only [portStep] at h
    split at h
    · cases h
    · rename_i hfree
      cases h
      constructor <;> simp [Shared.lock, Shared.issued, hfree]
  case reset =>
    simp only [portStep, Option.some.injEq, Prod.mk.injEq] at h
    obtain ⟨rfl, rfl⟩ := h
    split <;> constructor <;> simp
  case sendAddress =>
    simp only [portStep] at h
    have hsome : ¬ defpipe = none := hpipe
    split at h
    · cases h
      have hpipes := sh.freePipe_pipeFrees defpipe
      constructor <;> simp [Shared.lock, Shared.issued, hpipes]
    · cases h
      constructor <;> simp [hsome]
  case disconnect =>
    simp only [portStep, Option.some.injEq, Prod.mk.injEq] at h
    obtain ⟨rfl, rfl⟩ := h
    constructor <;> simp
  case resetfail =>
    simp only [portStep, Option.some.injEq, Prod.mk.injEq] at h
    obtain ⟨rfl, rfl⟩ := h
    constructor <;> simp [Shared.lock, Shared.issued, hlocked rfl]
  case unlock =>
    simp only [portStep, Option.some.injEq, Prod.mk.injEq] at h
    obtain ⟨rfl, rfl⟩ := h
    have hsome : ¬ defpipe = none := hpipe
    constructor <;> simp [hsome, Shared.lock, Shared.issued, hlocked rfl]
  case deviceInfo =>
    simp only [portStep, Option.some.injEq, Prod.mk.injEq] at h
    obtain ⟨rfl, rfl⟩ := h
    have hsome : ¬ defpipe = none := hpipe
    split <;> constructor <;> simp [hsome]
  case driver =>
    simp only [portStep, Option.some.injEq, Prod.mk.injEq] at h
    obtain ⟨rfl, rfl⟩ := h
    split <;> constructor <;> simp

end Steps

-- ---------------------------------------------------------------------------
-- What every run keeps
-- ---------------------------------------------------------------------------

section Runs

variable {n : Nat} {xhci : Bool} {s t : Hub n}

/-- The counters and the pipes add up over the ports. -/
structure Inv (s : Hub n) : Prop where
  threads : s.shared.threads + ∑ p, (s.ports p).isEnded = n
  devcount : (s.shared.devcount : ZMod (2 ^ 32)) = ∑ p, (s.ports p).counted
  lock : s.shared.lock = ∑ p, (s.ports p).holds + (if s.other then 1 else 0)
  pipes : ∀ pipe, s.shared.pipeFrees pipe + ∑ p, (s.ports p).owns pipe = s.shared.issued pipe
  frees : ∀ p, (s.ports p).frees = (s.ports p).isEnded
  count : ∀ p, (s.ports p).Fresh
  pipe : ∀ p, (s.ports p).HasPipe
  launched : ∀ p, (s.ports p).pc = .idle ↔ s.i ≤ p
  inside : s.i ≤ n
  small : s.shared.devcount < 2 ^ 32
  returned : s.returned = true → s.i = n ∧ s.shared.threads = 0

theorem isEnded_le (port : Port) : port.isEnded ≤ 1 := by
  unfold Port.isEnded
  split <;> decide

theorem start_inv (n maxaddr : Nat) : Inv (start n maxaddr) where
  threads := by simp [start, startPort, Port.isEnded]
  devcount := by simp [start, startPort, Port.counted]
  lock := by simp [start, startPort, Port.holds, Shared.lock]
  pipes pipe := by simp [start, startPort, Port.owns, Shared.issued]
  frees p := by simp [start, startPort, Port.isEnded]
  count p := Or.inl rfl
  pipe p := trivial
  launched p := by simp [start, startPort]
  inside := Nat.zero_le n
  small := by simp [start]
  returned := nofun

theorem Inv.ready (h : Inv s) (p : Fin n) : Ready s.shared (s.ports p) where
  locked hholds := by
    have hle := le_sum Port.holds s.ports p
    have hlock := h.lock
    unfold Shared.lock at hlock
    split at hlock
    · assumption
    · omega
  running hended _ := by
    have hzero : (s.ports p).isEnded = 0 := if_neg hended
    have hlt := sum_lt_of_zero Port.isEnded s.ports (fun q => isEnded_le _) hzero
    have hthreads := h.threads
    omega
  count := h.count p
  pipe := h.pipe p

theorem forall_update {P : Port → Prop} {ports : Fin n → Port} (h : ∀ q, P (ports q)) (p : Fin n)
    {x : Port}
    (hx : P x) (q : Fin n) : P (Function.update ports p x q) := by
  rcases eq_or_ne q p with rfl | hne
  · rwa [Function.update_self]
  · rw [Function.update_of_ne hne]
    exact h q

theorem Inv.port {sh : Shared} {x : Port} (h : Inv s)
    (hstep : portStep xhci s.shared (s.ports p) ret = some (sh, x)) :
    Inv { s with shared := sh, ports := Function.update s.ports p x } := by
  have hkept := portStep_kept (h.ready p) hstep
  constructor
  case threads =>
    have hsum := sum_update Port.isEnded s.ports p x
    have hthreads := h.threads
    have hlocal := hkept.threads
    simp only
    omega
  case devcount =>
    have hsum := sum_update Port.counted s.ports p x
    have hlocal := hkept.devcount
    rw [h.devcount] at hlocal
    simp only
    linear_combination hlocal - hsum
  case lock =>
    have hsum := sum_update Port.holds s.ports p x
    have hlock := h.lock
    have hlocal := hkept.lock
    simp only
    omega
  case pipes =>
    intro pipe
    have hsum := sum_update (fun port => port.owns pipe) s.ports p x
    have hpipes := h.pipes pipe
    have hlocal := hkept.pipes pipe
    simp only at hsum ⊢
    omega
  case frees =>
    refine forall_update (P := fun port => port.frees = port.isEnded) h.frees p ?_
    have hfrees := h.frees p
    have hlocal := hkept.frees
    omega
  case count => exact forall_update h.count p hkept.count
  case pipe => exact forall_update h.pipe p hkept.pipe
  case launched =>
    intro q
    simp only
    rcases eq_or_ne q p with rfl | hne
    · rw [Function.update_self]
      exact iff_of_false hkept.started.2 fun hle => hkept.started.1 ((h.launched q).mpr hle)
    · rw [Function.update_of_ne hne]
      exact h.launched q
  case inside => exact h.inside
  case small => exact hkept.small h.small
  case returned =>
    intro hret
    obtain ⟨hi, hzero⟩ := h.returned hret
    have hlocal := hkept.threads
    have hended : (s.ports p).isEnded = 0 := by
      refine if_neg fun hended => ?_
      unfold portStep at hstep
      rw [hended] at hstep
      exact nomatch hstep
    exact ⟨hi, by simp only; omega⟩

theorem Inv.malloc (h : Inv s) (hi : s.i < n) {pc : Pc} (hpc : pc = .detect ∨ pc = .noMemory) :
    Inv { s with
      ports := Function.update s.ports ⟨s.i, hi⟩ { s.ports ⟨s.i, hi⟩ with pc := pc }
      i := s.i + 1 } := by
  have hidle : (s.ports ⟨s.i, hi⟩).pc = .idle := (h.launched _).mpr (Nat.le_refl _)
  have hne : pc ≠ .idle ∧ pc ≠ .ended ∧ pc ≠ .done := by
    rcases hpc with rfl | rfl <;> exact ⟨nofun, nofun, nofun⟩
  have hholds : ({ s.ports ⟨s.i, hi⟩ with pc := pc } : Port).holds = (s.ports ⟨s.i, hi⟩).holds := by
    rcases hpc with rfl | rfl <;> simp [Port.holds, hidle]
  have howns (pipe : Nat) : ({ s.ports ⟨s.i, hi⟩ with pc := pc } : Port).owns pipe =
      (s.ports ⟨s.i, hi⟩).owns pipe := by
    rcases hpc with rfl | rfl <;> simp [Port.owns, hidle]
  have hended : ({ s.ports ⟨s.i, hi⟩ with pc := pc } : Port).isEnded = (s.ports ⟨s.i, hi⟩).isEnded := by
    simp [Port.isEnded, hidle, hne.2.1]
  have hcounted : ({ s.ports ⟨s.i, hi⟩ with pc := pc } : Port).counted = (s.ports ⟨s.i, hi⟩).counted := by
    simp [Port.counted, hidle, hne.2.1, hne.2.2]
  constructor
  case threads =>
    have hsum := sum_update Port.isEnded s.ports ⟨s.i, hi⟩ { s.ports ⟨s.i, hi⟩ with pc := pc }
    rw [hended] at hsum
    exact (congrArg _ (Nat.add_right_cancel hsum)).trans h.threads
  case devcount =>
    have hsum := sum_update Port.counted s.ports ⟨s.i, hi⟩ { s.ports ⟨s.i, hi⟩ with pc := pc }
    rw [hcounted] at hsum
    exact h.devcount.trans (add_right_cancel hsum).symm
  case lock =>
    have hsum := sum_update Port.holds s.ports ⟨s.i, hi⟩ { s.ports ⟨s.i, hi⟩ with pc := pc }
    rw [hholds] at hsum
    exact h.lock.trans (congrArg (· + _) (Nat.add_right_cancel hsum).symm)
  case pipes =>
    intro pipe
    have hsum := sum_update (fun port => port.owns pipe) s.ports ⟨s.i, hi⟩
      { s.ports ⟨s.i, hi⟩ with pc := pc }
    simp only [howns] at hsum
    exact (congrArg _ (Nat.add_right_cancel hsum)).trans (h.pipes pipe)
  case frees =>
    refine forall_update (P := fun port => port.frees = port.isEnded) h.frees _ ?_
    rw [hended]
    exact h.frees ⟨s.i, hi⟩
  case count =>
    refine forall_update h.count _ ?_
    have hcount := h.count ⟨s.i, hi⟩
    simp only [Port.Fresh, hidle, reduceCtorEq, or_self, and_false, or_false] at hcount
    exact Or.inl hcount
  case pipe =>
    refine forall_update h.pipe _ ?_
    rcases hpc with rfl | rfl <;> trivial
  case launched =>
    intro q
    simp only
    rcases eq_or_ne q ⟨s.i, hi⟩ with rfl | hq
    · rw [Function.update_self]
      exact iff_of_false hne.1 (Nat.not_succ_le_self _)
    · rw [Function.update_of_ne hq, h.launched q]
      have hval : q.val ≠ s.i := fun heq => hq (Fin.ext heq)
      omega
  case inside => exact hi
  case small => exact h.small
  case returned =>
    intro hret
    exact absurd (h.returned hret).1 (Nat.ne_of_lt hi)

theorem Inv.step (h : Inv s) (hstep : UsbHub.step xhci s a = some t) : Inv t := by
  cases a with
  | malloc ok =>
    simp only [UsbHub.step] at hstep
    split at hstep
    case isFalse => exact nomatch hstep
    case isTrue hi =>
      cases hstep
      refine h.malloc hi ?_
      cases ok
      · exact Or.inr rfl
      · exact Or.inl rfl
  | port p ret =>
    obtain ⟨⟨sh, x⟩, hport, rfl⟩ := Option.map_eq_some_iff.mp hstep
    exact h.port hport
  | ret =>
    simp only [UsbHub.step] at hstep
    split at hstep
    case isFalse => exact nomatch hstep
    case isTrue hready =>
      cases hstep
      exact { h with returned := fun _ => ⟨hready.1, hready.2.1⟩ }
  | otherLock =>
    simp only [UsbHub.step] at hstep
    split at hstep
    case isTrue => exact nomatch hstep
    case isFalse hfree =>
      cases hstep
      have hlock := h.lock
      have hzero : s.shared.lock = 0 := if_neg hfree
      refine { h with lock := ?_ }
      show 1 = ∑ p, (s.ports p).holds + 1
      omega
  | otherUnlock maxaddr =>
    simp only [UsbHub.step] at hstep
    split at hstep
    case isFalse => exact nomatch hstep
    case isTrue hother =>
      cases hstep
      have hlock := h.lock
      have hone : s.shared.lock ≤ 1 := by
        unfold Shared.lock
        split <;> decide
      rw [if_pos hother] at hlock
      refine { h with lock := ?_ }
      show 0 = ∑ p, (s.ports p).holds + 0
      omega

theorem Inv.run (h : Inv s) (hrun : UsbHub.run xhci s acts = some t) : Inv t := by
  induction acts generalizing s with
  | nil =>
    cases hrun
    exact h
  | cons a acts ih =>
    obtain ⟨u, hu, hrun⟩ := Option.bind_eq_some_iff.mp hrun
    exact ih (h.step hu) hrun

-- ---------------------------------------------------------------------------
-- How a run ends
-- ---------------------------------------------------------------------------

/-- Nothing is left to do for this hub, and no other hub is about to unlock the controller. -/
def Stuck (xhci : Bool) (s : Hub n) : Prop := ∀ a, a ≠ .otherLock → UsbHub.step xhci s a = none

theorem portStep_isSome (xhci : Bool) (sh : Shared) {port : Port} (hpc : port.pc ≠ .idle)
    (hmemory : port.pc ≠ .noMemory) (hended : port.pc ≠ .ended)
      (hlock : port.pc = .lock → sh.isLocked = false) :
    (portStep xhci sh port 0).isSome := by
  unfold portStep
  cases hcase : port.pc with
  | idle => exact absurd hcase hpc
  | noMemory => exact absurd hcase hmemory
  | ended => exact absurd hcase hended
  | lock =>
    simp only
    rw [if_neg (by rw [hlock hcase]; exact Bool.false_ne_true)]
    rfl
  | allocPipe =>
    simp only
    split <;> rfl
  | _ => rfl

theorem Stuck.port (hstuck : Stuck xhci s) (p : Fin n) :
    portStep xhci s.shared (s.ports p) 0 = none :=
  Option.map_eq_none_iff.mp (hstuck (.port p 0) nofun)

theorem Stuck.free (h : Inv s) (hstuck : Stuck xhci s) : s.shared.isLocked = false := by
  by_contra hlocked
  have hlock : s.shared.lock = 1 := if_pos (Bool.of_not_eq_false hlocked)
  have hsum := h.lock
  have hother : s.other = false := by
    by_contra hother
    have hunlock := hstuck (.otherUnlock 0) nofun
    simp only [UsbHub.step, Bool.of_not_eq_false hother, if_true] at hunlock
    exact nomatch hunlock
  rw [hlock, hother] at hsum
  have hpos : ∑ p, (s.ports p).holds ≠ 0 := by
    simp only [Bool.false_eq_true, if_false] at hsum
    omega
  obtain ⟨p, hp⟩ : ∃ p, (s.ports p).holds ≠ 0 := by
    by_contra hall
    exact hpos ((sum_eq_zero_iff Port.holds s.ports).mpr fun p => not_not.mp fun hp => hall ⟨p, hp⟩)
  have hsome : (portStep xhci s.shared (s.ports p) 0).isSome := by
    unfold Port.holds at hp
    refine portStep_isSome xhci s.shared ?_ ?_ ?_ ?_ <;> intro hpc <;> rw [hpc] at hp <;>
      exact absurd rfl hp
  rw [hstuck.port p] at hsome
  exact nomatch hsome

theorem Stuck.launched (h : Inv s) (hstuck : Stuck xhci s) : s.i = n := by
  refine Nat.le_antisymm h.inside (Nat.le_of_not_lt fun hi => ?_)
  have hmalloc := hstuck (.malloc true) nofun
  simp only [UsbHub.step, dif_pos hi] at hmalloc
  exact nomatch hmalloc

theorem Stuck.ended (h : Inv s) (hstuck : Stuck xhci s) (p : Fin n)
    (hmemory : (s.ports p).pc ≠ .noMemory) :
    (s.ports p).pc = .ended := by
  by_contra hended
  have hidle : (s.ports p).pc ≠ .idle := fun hidle => by
    have hle := (h.launched p).mp hidle
    have hi := hstuck.launched h
    omega
  have hsome := portStep_isSome xhci s.shared hidle hmemory hended fun _ => hstuck.free h
  rw [hstuck.port p] at hsome
  exact nomatch hsome

/-- `usb_enumerate` has returned just where no port was left without its structure. -/
theorem Stuck.returned_iff (h : Inv s) (hstuck : Stuck xhci s) :
    s.returned = true ↔ ∀ p, (s.ports p).pc ≠ .noMemory := by
  have hthreads := h.threads
  constructor
  · intro hret p hmemory
    have hzero : (s.ports p).isEnded = 0 := if_neg (by rw [hmemory]; exact nofun)
    have hlt := sum_lt_of_zero Port.isEnded s.ports (fun q => isEnded_le _) hzero
    have hnone := (h.returned hret).2
    omega
  · intro hall
    have hone (p : Fin n) : (s.ports p).isEnded = 1 := if_pos (hstuck.ended h p (hall p))
    have hsum : ∑ p, (s.ports p).isEnded = n := by
      rw [Finset.sum_congr rfl fun p _ => hone p, Finset.sum_const, Finset.card_univ,
        Fintype.card_fin,
        smul_eq_mul, Nat.mul_one]
    by_contra hret
    have hgo := hstuck .ret nofun
    have hready : s.i = n ∧ s.shared.threads = 0 ∧ s.returned = false :=
      ⟨hstuck.launched h, by omega, Bool.of_not_eq_true hret⟩
    simp only [UsbHub.step, if_pos hready] at hgo
    exact nomatch hgo

def Port.isConfigured (port : Port) : Nat := if port.count = 1 then 1 else 0

def Port.isLost (port : Port) : Nat := if port.count = -1 then 1 else 0

/-- The enumeration ends, releases what it allocated and counts the devices. -/
structure EnumerationRight (s : Hub n) : Prop where
  returned : s.returned = true
  structures : ∀ p, (s.ports p).pc ≠ .noMemory → (s.ports p).frees = 1
  pipes : ∀ pipe < s.shared.pipes, s.shared.pipeFrees pipe = 1
  devcount : s.shared.devcount = ∑ p, (s.ports p).isConfigured

theorem counted_eq (hcount : Port.Fresh port) (hpc : port.pc = .ended ∨ port.pc = .noMemory) :
    port.counted + (port.isLost : ZMod (2 ^ 32)) = (port.isConfigured : ZMod (2 ^ 32)) := by
  rcases hcount with hzero | ⟨hcount, hset⟩
  · simp [Port.counted, Port.isLost, Port.isConfigured, hzero]
  · have hended : port.pc = .ended := by
      rcases hpc with hpc | hpc
      · exact hpc
      · rw [hpc] at hset
        exact absurd hset (by simp)
    rcases hcount with hone | hlost
    · simp [Port.counted, Port.isLost, Port.isConfigured, hended, hone]
    · simp [Port.counted, Port.isLost, Port.isConfigured, hended, hlost]

theorem Stuck.devcount_iff (hn : n < 2 ^ 32) (h : Inv s) (hstuck : Stuck xhci s) :
    s.shared.devcount = ∑ p, (s.ports p).isConfigured ↔ ∀ p, (s.ports p).count ≠ -1 := by
  have hlast (p : Fin n) : (s.ports p).pc = .ended ∨ (s.ports p).pc = .noMemory := by
    by_cases hmemory : (s.ports p).pc = .noMemory
    · exact Or.inr hmemory
    · exact Or.inl (hstuck.ended h p hmemory)
  have hsum : (s.shared.devcount : ZMod (2 ^ 32)) + ((∑ p, (s.ports p).isLost : Nat) : ZMod (2 ^ 32)) =
      ((∑ p, (s.ports p).isConfigured : Nat) : ZMod (2 ^ 32)) := by
    rw [h.devcount, Nat.cast_sum, Nat.cast_sum, ← Finset.sum_add_distrib]
    exact Finset.sum_congr rfl fun p _ => counted_eq (h.count p) (hlast p)
  have hlost : ∑ p, (s.ports p).isLost ≤ n * 1 := sum_le Port.isLost s.ports fun q => by
    unfold Port.isLost
    split <;> decide
  have hconfigured : ∑ p, (s.ports p).isConfigured ≤ n * 1 :=
    sum_le Port.isConfigured s.ports fun q => by
    unfold Port.isConfigured
    split <;> decide
  have hnone : (∀ p, (s.ports p).count ≠ -1) ↔ ∑ p, (s.ports p).isLost = 0 := by
    rw [sum_eq_zero_iff Port.isLost s.ports]
    refine forall_congr' fun p => ?_
    unfold Port.isLost
    split
    case isTrue hp => exact iff_of_false (absurd hp) nofun
    case isFalse hp => exact iff_of_true hp rfl
  rw [← Nat.cast_add, ZMod.natCast_eq_natCast_iff] at hsum
  have hmod : (s.shared.devcount + ∑ p, (s.ports p).isLost) % 2 ^ 32 =
      (∑ p, (s.ports p).isConfigured) % 2 ^ 32 := hsum
  rw [hnone]
  have hsmall := h.small
  generalize s.shared.devcount = devcount at *
  generalize ∑ p, (s.ports p).isLost = lost at *
  generalize ∑ p, (s.ports p).isConfigured = configured at *
  omega

theorem Stuck.right_iff (hn : n < 2 ^ 32) (h : Inv s) (hstuck : Stuck xhci s) :
    EnumerationRight s ↔ ∀ p, ¬ (s.ports p).bad := by
  constructor
  · rintro ⟨hret, -, -, hcount⟩ p hbad
    rcases hbad with hmemory | hlost
    · exact (hstuck.returned_iff h).mp hret p hmemory
    · exact (hstuck.devcount_iff hn h).mp hcount p hlost
  · intro hgood
    refine ⟨(hstuck.returned_iff h).mpr fun p hp => hgood p (Or.inl hp), fun p hp => ?_,
      fun pipe hpipe => ?_,
      (hstuck.devcount_iff hn h).mpr fun p hp => hgood p (Or.inr hp)⟩
    · rw [h.frees p]
      exact if_pos (hstuck.ended h p hp)
    · have hpipes := h.pipes pipe
      have hnone : ∑ p, (s.ports p).owns pipe = 0 := by
        refine (sum_eq_zero_iff (fun port => port.owns pipe) s.ports).mpr fun p => ?_
        have hended := hstuck.ended h p fun hp => hgood p (Or.inl hp)
        simp only [Port.owns, hended]
      rw [hnone, Shared.issued, if_pos hpipe] at hpipes
      exact hpipes

-- ---------------------------------------------------------------------------
-- The condition on a run
-- ---------------------------------------------------------------------------

/-- There is memory for a port's structure, and the pipe of a device that is configured is not
lost when it is updated. -/
def Meets (xhci : Bool) (s : Hub n) : Act n → Prop
  | .malloc ok => ok = true
  | .port p ret => (s.ports p).pc = .updatePipe → xhci = false → ret = 0
  | _ => True

def AllMeet (xhci : Bool) (s : Hub n) : List (Act n) → Prop
  | [] => True
  | a :: acts => Meets xhci s a ∧ ∀ t, UsbHub.step xhci s a = some t → AllMeet xhci t acts

theorem bad_update {ports : Fin n → Port} (p : Fin n) {x : Port} {good : Prop}
    (hx : ¬ x.bad ↔ ¬ (ports p).bad ∧ good) :
    (∀ q, ¬ (Function.update ports p x q).bad) ↔ (∀ q, ¬ (ports q).bad) ∧ good := by
  constructor
  · intro h
    have hp := h p
    rw [Function.update_self] at hp
    obtain ⟨hold, hgood⟩ := hx.mp hp
    refine ⟨fun q => ?_, hgood⟩
    rcases eq_or_ne q p with rfl | hne
    · exact hold
    · have hq := h q
      rwa [Function.update_of_ne hne] at hq
  · rintro ⟨h, hgood⟩
    exact forall_update (P := fun port => ¬ port.bad) h p (hx.mpr ⟨h p, hgood⟩)

theorem step_bad (h : Inv s) (hstep : UsbHub.step xhci s a = some t) :
    (∀ p, ¬ (t.ports p).bad) ↔ (∀ p, ¬ (s.ports p).bad) ∧ Meets xhci s a := by
  cases a with
  | malloc ok =>
    simp only [UsbHub.step] at hstep
    split at hstep
    case isFalse => exact nomatch hstep
    case isTrue hi =>
      cases hstep
      refine bad_update _ ?_
      have hidle : (s.ports ⟨s.i, hi⟩).pc = .idle := (h.launched _).mpr (Nat.le_refl _)
      cases ok
      · simp [Port.bad, Meets]
      · simp [Port.bad, Meets, hidle]
  | port p ret =>
    obtain ⟨⟨sh, x⟩, hport, rfl⟩ := Option.map_eq_some_iff.mp hstep
    refine bad_update p ?_
    rw [(portStep_kept (h.ready p) hport).bad, Meets]
    tauto
  | ret =>
    simp only [UsbHub.step] at hstep
    split at hstep
    case isFalse => exact nomatch hstep
    case isTrue =>
      cases hstep
      simp [Meets]
  | otherLock =>
    simp only [UsbHub.step] at hstep
    split at hstep
    case isTrue => exact nomatch hstep
    case isFalse =>
      cases hstep
      simp [Meets]
  | otherUnlock maxaddr =>
    simp only [UsbHub.step] at hstep
    split at hstep
    case isFalse => exact nomatch hstep
    case isTrue =>
      cases hstep
      simp [Meets]

theorem run_bad (h : Inv s) (hrun : UsbHub.run xhci s acts = some t) :
    (∀ p, ¬ (t.ports p).bad) ↔ (∀ p, ¬ (s.ports p).bad) ∧ AllMeet xhci s acts := by
  induction acts generalizing s with
  | nil =>
    cases hrun
    simp [AllMeet]
  | cons a acts ih =>
    obtain ⟨u, hu, hrun⟩ := Option.bind_eq_some_iff.mp hrun
    rw [ih (h.step hu) hrun, step_bad h hu, AllMeet, and_assoc]
    refine and_congr_right fun _ => and_congr_right fun _ => ?_
    exact ⟨fun hall v hv => Option.some.inj (hu.symm.trans hv) ▸ hall, fun hall => hall u hu⟩

/-- The steps that are not another hub's. -/
def Act.isOwn : Act n → Nat
  | .otherLock | .otherUnlock _ => 0
  | _ => 1

/-- A bound on the steps left. -/
def left (s : Hub n) : Nat := ∑ p, (s.ports p).rank + (if s.returned then 0 else 1)

theorem rank_update {ports : Fin n → Port} {p : Fin n} {x : Port}
    (hrank : x.rank < (ports p).rank) (r : Nat) :
    ∑ q, (Function.update ports p x q).rank + r + 1 ≤ ∑ q, (ports q).rank + r := by
  have hsum := sum_update Port.rank ports p x
  omega

theorem step_left (h : Inv s) (hstep : UsbHub.step xhci s a = some t) :
    left t + a.isOwn ≤ left s := by
  cases a with
  | malloc ok =>
    simp only [UsbHub.step] at hstep
    split at hstep
    case isFalse => exact nomatch hstep
    case isTrue hi =>
      cases hstep
      have hidle : (s.ports ⟨s.i, hi⟩).pc = .idle := (h.launched _).mpr (Nat.le_refl _)
      refine rank_update (p := ⟨s.i, hi⟩) ?_ _
      have hold : (s.ports ⟨s.i, hi⟩).rank = 16 := by rw [Port.rank, hidle]
      rw [hold]
      cases ok <;> simp [Port.rank]
  | port p ret =>
    obtain ⟨⟨sh, x⟩, hport, rfl⟩ := Option.map_eq_some_iff.mp hstep
    exact rank_update (portStep_kept (h.ready p) hport).rank _
  | ret =>
    simp only [UsbHub.step] at hstep
    split at hstep
    case isFalse => exact nomatch hstep
    case isTrue hready =>
      cases hstep
      simp only [left, Act.isOwn, hready.2.2, if_true, Bool.false_eq_true, if_false]
      omega
  | otherLock =>
    simp only [UsbHub.step] at hstep
    split at hstep
    case isTrue => exact nomatch hstep
    case isFalse =>
      cases hstep
      exact Nat.le_refl _
  | otherUnlock maxaddr =>
    simp only [UsbHub.step] at hstep
    split at hstep
    case isFalse => exact nomatch hstep
    case isTrue =>
      cases hstep
      exact Nat.le_refl _

theorem run_left (h : Inv s) (hrun : UsbHub.run xhci s acts = some t) :
    left t + (acts.map Act.isOwn).sum ≤ left s := by
  induction acts generalizing s with
  | nil =>
    cases hrun
    exact Nat.le_refl _
  | cons a acts ih =>
    obtain ⟨u, hu, hrun⟩ := Option.bind_eq_some_iff.mp hrun
    have hfirst := step_left h hu
    have hrest := ih (h.step hu) hrun
    rw [List.map_cons, List.sum_cons]
    omega

theorem left_start (n maxaddr : Nat) : left (start n maxaddr) = 16 * n + 1 := by
  simp [left, start, startPort, Port.rank, Nat.mul_comm]

theorem allMeet_of_forall {acts : List (Act n)} (h : ∀ a ∈ acts, ∀ u, Meets xhci u a) :
    AllMeet xhci s acts := by
  induction acts generalizing s with
  | nil => trivial
  | cons a acts ih =>
    exact ⟨h a List.mem_cons_self s, fun t _ => ih fun b hb => h b (List.mem_cons_of_mem _ hb)⟩

/-- One port, whose device is configured. -/
def onePort : List (Act 1) := .malloc true :: List.replicate 12 (.port 0 0) ++ [.ret]

/-- What a stuck state of one port looks like. -/
def isLast (s : Hub 1) (pc : Pc) : Bool :=
  s.i = 1 ∧ s.other = false ∧ (s.shared.threads = 0 → s.returned = true) ∧ (s.ports 0).pc = pc

theorem stuck_of_isLast {s : Hub 1} {pc : Pc} (hpc : pc = .ended ∨ pc = .noMemory)
    (h : isLast s pc = true) :
    Stuck xhci s := by
  obtain ⟨hi, hother, hthreads, hlast⟩ := of_decide_eq_true h
  intro a ha
  cases a with
  | malloc ok => exact dif_neg (by rw [hi]; exact Nat.lt_irrefl 1)
  | port p ret =>
    obtain rfl := Subsingleton.elim 0 p
    refine Option.map_eq_none_iff.mpr ?_
    unfold portStep
    rcases hpc with rfl | rfl <;> rw [hlast]
  | ret =>
    refine if_neg fun hret => ?_
    exact absurd (hthreads hret.2.1) (by rw [hret.2.2]; exact Bool.false_ne_true)
  | otherLock => exact absurd rfl ha
  | otherUnlock maxaddr => exact if_neg (by rw [hother]; exact Bool.false_ne_true)

end Runs

end ItxLlama.Seabios.UsbHub
