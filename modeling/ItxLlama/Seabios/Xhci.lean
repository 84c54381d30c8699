import ItxLlama.Lib.Ring
import ItxLlama.Lib.Word
import Mathlib.Logic.Function.Basic

/-!
# The rings of XHCI

The driver queues TRBs on a command ring and on the rings of the pipes, the
controller consumes them and posts events on the event ring, which
`xhci_process_events` reads. The last slot of a ring of requests is for the link
to its start; a bit that flips from lap to lap tells what is new.
-/

namespace ItxLlama.Seabios.Xhci

open Lib.Word

structure Trb where
  ptrLow : BitVec 32
  ptrHigh : BitVec 32
  status : BitVec 32
  control : BitVec 32
  deriving DecidableEq, Repr, Inhabited

def sizeofTrb : Nat := 16

def xhciRingItems : Nat := 16

def xhciRingSize : Nat := xhciRingItems * sizeofTrb

def trbC : BitVec 32 := 1
def trbLkTc : BitVec 32 := 2

def trLink : BitVec 32 := 6
def erTransfer : BitVec 32 := 32
def erCommandComplete : BitVec 32 := 33

def trbType (control : BitVec 32) : BitVec 32 := control >>> 10 &&& 0x3f

structure XhciRing where
  ring : Nat → Trb
  evt : Trb
  eidx : Nat
  nidx : Nat
  cs : Bool

/-- The command ring and those of the pipes by their addresses, the event ring
and the place in it that the controller was last told, as an index. `log` is the
events processed, as the debug output has them. -/
structure Driver where
  rings : Nat → XhciRing
  evts : XhciRing
  erdp : Nat
  log : List Trb

/-- A ring of requests is where `XHCI_RING` finds it from its TRBs. -/
structure RingAddr where
  addr : Nat
  aligned : xhciRingSize ∣ addr
  bound : addr + xhciRingSize ≤ 2 ^ 32
  deriving DecidableEq

-- ---------------------------------------------------------------------------
-- The driver
-- ---------------------------------------------------------------------------

/-- The cycle bit for a ring's state. -/
def cycleBit (cs : Bool) : BitVec 32 := if cs then trbC else 0

def xhciTrbQueue (addr : Nat) (ring : XhciRing) (trb : Trb) : XhciRing :=
  let ring :=
    if ring.nidx = xhciRingItems - 1 then
      { ring with
        ring := Function.update ring.ring ring.nidx
          { ptrLow := .ofNat 32 addr
            ptrHigh := 0
            status := 0
            control := trLink <<< 10 ||| trbLkTc ||| cycleBit ring.cs }
        nidx := 0
        cs := !ring.cs }
    else ring
  { ring with
    ring := Function.update ring.ring ring.nidx
      { trb with control := trb.control ||| cycleBit ring.cs }
    nidx := ring.nidx + 1 }

/-- One turn of the loop of `xhci_process_events`; `none` where it returns. -/
def processEvent (s : Driver) : Option Driver :=
  let etrb := s.evts.ring s.evts.nidx
  if etrb.control &&& trbC ≠ cycleBit s.evts.cs then none
  else
    let rings :=
      if trbType etrb.control = erTransfer ∨ trbType etrb.control = erCommandComplete then
        let rtrb := etrb.ptrLow.toNat
        let ring := alignDown rtrb xhciRingSize
        let eidx := (rtrb - ring) / sizeofTrb + 1
        Function.update s.rings ring { s.rings ring with evt := etrb, eidx }
      else s.rings
    -- move ring index, notify xhci
    let nidx := s.evts.nidx + 1
    let evts :=
      if nidx = xhciRingItems then { s.evts with nidx := 0, cs := !s.evts.cs }
      else { s.evts with nidx }
    some { rings, evts, erdp := evts.nidx, log := s.log ++ [etrb] }

def xhciProcessEvents : (fuel : Nat) → Driver → Option Driver
  | 0, _ => none
  | fuel + 1, s =>
    match processEvent s with
    | none => some s
    | some s => xhciProcessEvents fuel s

def xhciRingBusy (ring : XhciRing) : Bool := ring.eidx ≠ ring.nidx

def completionCode (trb : Trb) : BitVec 32 := trb.status >>> 24 &&& 0xff

/-- A round of `xhci_event_wait`, before it looks at the time: the completion code
it returns, or `none` where it goes on waiting. -/
def eventWaitRound (fuel addr : Nat) (s : Driver) : Option (Option (BitVec 32) × Driver) :=
  (xhciProcessEvents fuel s).map fun s =>
    (if xhciRingBusy (s.rings addr) then none else some (completionCode (s.rings addr).evt), s)

-- ---------------------------------------------------------------------------
-- The controller
-- ---------------------------------------------------------------------------

/-- A completion of the `index`th TRB of a ring, counted from 0, or another event. -/
inductive Posted where
  | completion (r : RingAddr) (index : Nat) (etrb : Trb)
  | notice (etrb : Trb)

def Posted.etrb : Posted → Trb
  | completion _ _ etrb => etrb
  | notice etrb => etrb

/-- The driver, and what the controller has: where it is in every ring with its
cycle bit there, the TRBs consumed and not completed, and the next slot of the
event ring. Behind them is what happened so far. -/
structure World where
  driver : Driver
  deq : RingAddr → Nat
  ccs : RingAddr → Bool
  inflight : RingAddr → List Nat
  enq : Nat
  pcs : Bool
  queued : RingAddr → List Trb
  consumed : RingAddr → List Trb
  posted : List Posted

def withCycle (trb : Trb) (cs : Bool) : Trb := { trb with control := trb.control ||| cycleBit cs }

/-- The TRB as it was before it got its cycle bit. -/
def withoutCycle (trb : Trb) : Trb := { trb with control := trb.control &&& ~~~trbC }

/-- The TRB at the controller's place, where its cycle bit matches. -/
def World.fetch (w : World) (r : RingAddr) : Option Trb :=
  let trb := (w.driver.rings r.addr).ring ((w.deq r - r.addr) / sizeofTrb)
  if trb.control &&& trbC = cycleBit (w.ccs r) then some trb else none

/-- The controller consumes a TRB, or follows a link. -/
def World.consume (w : World) (r : RingAddr) : World :=
  match w.fetch r with
  | none => w
  | some trb =>
    if trbType trb.control = trLink then
      { w with
        deq := Function.update w.deq r trb.ptrLow.toNat
        ccs := Function.update w.ccs r
          (if trb.control &&& trbLkTc ≠ 0 then !w.ccs r else w.ccs r) }
    else
      { w with
        deq := Function.update w.deq r (w.deq r + sizeofTrb)
        inflight := Function.update w.inflight r (w.inflight r ++ [w.deq r])
        consumed := Function.update w.consumed r (w.consumed r ++ [withoutCycle trb]) }

/-- The completions on a ring: the index of the TRB, and the event. -/
def completionsOf (r : RingAddr) (posted : List Posted) : List (Nat × Trb) :=
  posted.filterMap fun
    | .completion r' index etrb => if r' = r then some (index, etrb) else none
    | .notice _ => none

/-- How many TRBs of a ring are up to the last one completed. -/
def completed (r : RingAddr) (posted : List Posted) : Nat :=
  match (completionsOf r posted).getLast? with
  | none => 0
  | some (index, _) => index + 1

/-- The TRBs queued and not completed. -/
def World.outstanding (w : World) (r : RingAddr) : Nat :=
  (w.queued r).length - completed r w.posted

/-- An event goes to the event ring, unless the driver has to read some first. -/
def World.post (w : World) (p : Posted) : World :=
  let enq := if w.enq + 1 = xhciRingItems then 0 else w.enq + 1
  { w with
    driver := { w.driver with
      evts := { w.driver.evts with
        ring := Function.update w.driver.evts.ring w.enq (withCycle p.etrb w.pcs) } }
    enq
    pcs := if w.enq + 1 = xhciRingItems then !w.pcs else w.pcs
    posted := w.posted ++ [p] }

def World.full (w : World) : Prop :=
  (if w.enq + 1 = xhciRingItems then 0 else w.enq + 1) = w.driver.erdp

instance (w : World) : Decidable w.full := inferInstanceAs (Decidable (_ = _))

/-- The event for one of the TRBs in flight, with those in front of it. -/
def World.complete (w : World) (r : RingAddr) (skip : Nat) (ptrHigh status control : BitVec 32) :
    World :=
  match (w.inflight r)[skip]? with
  | none => w
  | some addr =>
    if w.full then w
    else
      { w.post (.completion r (completed r w.posted + skip)
          ⟨.ofNat 32 addr, ptrHigh, status, control⟩) with
        inflight := Function.update w.inflight r ((w.inflight r).drop (skip + 1)) }

-- ---------------------------------------------------------------------------
-- Runs
-- ---------------------------------------------------------------------------

/-- What happens next: the driver queues a TRB, takes a turn of its loop over the
events or a whole round of waiting; the controller consumes a TRB, completes one or
posts another event. A request of `xhci_cmd_submit`, `xhci_control`,
`xhci_send_bulk` or `xhci_poll_intr` is some of the driver's steps; a time-out is no
further round. -/
inductive Event where
  | queue (r : RingAddr) (trb : Trb)
  | process
  | wait (r : RingAddr)
  | consume (r : RingAddr)
  | complete (r : RingAddr) (skip : Nat) (ptrHigh status control : BitVec 32)
  | notice (etrb : Trb)

/-- A completion and another event are of their types, a TRB is no link, none of
them has the cycle bit, and a ring has fewer TRBs outstanding than usable slots. -/
def Event.Allowed (w : World) : Event → Prop
  | queue r trb =>
    trb.control &&& trbC = 0 ∧ trbType trb.control ≠ trLink ∧
      w.outstanding r + 1 < xhciRingItems - 1
  | process => True
  | wait _ => True
  | consume _ => True
  | complete _ _ _ _ control =>
    control &&& trbC = 0 ∧
      (trbType control = erTransfer ∨ trbType control = erCommandComplete)
  | notice etrb =>
    etrb.control &&& trbC = 0 ∧
      trbType etrb.control ≠ erTransfer ∧ trbType etrb.control ≠ erCommandComplete

def Event.step (w : World) : Event → World
  | queue r trb =>
    { w with
      driver := { w.driver with
        rings := Function.update w.driver.rings r.addr
          (xhciTrbQueue r.addr (w.driver.rings r.addr) trb) }
      queued := Function.update w.queued r (w.queued r ++ [trb]) }
  | process => { w with driver := (processEvent w.driver).getD w.driver }
  | wait r =>
    { w with driver := ((eventWaitRound xhciRingItems r.addr w.driver).map Prod.snd).getD w.driver }
  | consume r => w.consume r
  | complete r skip ptrHigh status control => w.complete r skip ptrHigh status control
  | notice etrb => if w.full then w else w.post (.notice etrb)

def emptyRing : XhciRing := ⟨fun _ => ⟨0, 0, 0, 0⟩, ⟨0, 0, 0, 0⟩, 0, 0, true⟩

def start : World where
  driver := ⟨fun _ => emptyRing, emptyRing, 0, []⟩
  deq r := r.addr
  ccs _ := true
  inflight _ := []
  enq := 0
  pcs := true
  queued _ := []
  consumed _ := []
  posted := []

inductive Reachable : World → Prop where
  | start : Reachable start
  | next (h : Reachable w) (e : Event) (hallowed : e.Allowed w) : Reachable (e.step w)

end ItxLlama.Seabios.Xhci
