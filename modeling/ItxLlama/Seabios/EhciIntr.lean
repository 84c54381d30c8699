import ItxLlama.Lib.Ring
import ItxLlama.Lib.Table
import ItxLlama.Seabios.EhciBulk
import ItxLlama.Seabios.Ticks

/-!
# Interrupt reports of EHCI

`ehci_alloc_intr_pipe` sets up a ring of transfer descriptors with a buffer
each, `ehci_poll_intr` takes reports from it. The controller fills the buffer
of the descriptor it points at while that is active. Only the first page
pointer of a descriptor is set.
-/

namespace ItxLlama.Seabios.EhciIntr

open Lib.Word Lib.Ring Lib.Table Lib.FlaggedRing
open Ehci

abbrev Byte := BitVec 8

/-- With the upper halves of the page pointers, aligned. -/
def sizeofQtd : Nat := 64

def ehciPtrBits : BitVec 32 := 0x1f

/-- What `ehci_poll_intr` finds in a pipe and leaves as it is. -/
structure EhciPipe where
  tds : Nat
  data : Nat
  /-- Not kept by the code: the number of descriptors. -/
  count : Nat
  maxpacket : Nat
  deriving DecidableEq, Repr

/-- Where the driver and the controller are, the transfer descriptors by their
addresses and the memory of the buffers. -/
structure State where
  nextTd : Nat
  qhQtdNext : Nat
  td : Nat → Qtd
  mem : Nat → Byte

-- ---------------------------------------------------------------------------
-- The driver
-- ---------------------------------------------------------------------------

/-- Entries for 2 timer ticks. -/
def tdCount (frameexp : Nat) : Nat :=
  let frameexp := if frameexp > 10 then 10 else frameexp
  let ms := 1 <<< frameexp
  (Clock.ticksToMs 2 + ms - 1) / ms

def intrToken (maxpacket : Nat) : BitVec 32 :=
  ehciExplen maxpacket ||| qtdStsActive ||| qtdPidIn ||| ehciMaxerr 3

/-- `ehci_alloc_intr_pipe` up to the schedule, with the memory that it gets. -/
def ehciAllocIntrPipe (frameexp wMaxPacketSize tds data : Nat) (td : Nat → Qtd)
    (mem : Nat → Byte) : EhciPipe × State :=
  let count := tdCount frameexp
  let init := fun i =>
    { qtdNext := .ofNat 32 (if i = count - 1 then tds else tds + sizeofQtd * (i + 1))
      altNext := ehciPtrTerm
      token := intrToken wMaxPacketSize
      buf := [u32 (data + wMaxPacketSize * i), 0, 0, 0, 0] }
  (⟨tds, data, count, wMaxPacketSize⟩,
    { nextTd := tds
      qhQtdNext := tds
      td := fill (fun i => tds + sizeofQtd * i) init count td
      mem := fun a => if data ≤ a ∧ a < data + wMaxPacketSize * count then 0 else mem a })

/-- -1 is `none`. -/
def ehciPollIntr (pipe : EhciPipe) (s : State) : Option (List Byte) × State :=
  let td := s.td s.nextTd
  -- no intrs found
  if td.token &&& qtdStsActive ≠ 0 then (none, s)
  else
    let pos := (s.nextTd - pipe.tds) / sizeofQtd
    let tddata := pipe.data + pipe.maxpacket * pos
    let data := (List.range pipe.maxpacket).map fun k => s.mem (tddata + k)
    -- reenable this td
    let next := (td.qtdNext &&& ~~~ehciPtrBits).toNat
    let td := { td with buf := td.buf.set 0 (u32 tddata), token := intrToken pipe.maxpacket }
    (some data, { s with nextTd := next, td := Function.update s.td s.nextTd td })

-- ---------------------------------------------------------------------------
-- The controller
-- ---------------------------------------------------------------------------

/-- A report goes to the pages of its descriptor, byte by byte. -/
def storeReport (td : Qtd) (report : List Byte) (mem : Nat → Byte) : Nat → Byte :=
  fill td.byteAddr (fun k => report.getD k 0) report.length mem

/-- A transfer without an error, perhaps of a short packet: the descriptor is
not active any more, with the rest of its token as the controller leaves it. -/
def completeTd (report : List Byte) (status : BitVec 32) (s : State) : State :=
  let td := s.td s.qhQtdNext
  { s with
    mem := storeReport td report s.mem
    td := Function.update s.td s.qhQtdNext { td with token := status &&& ~~~qtdStsActive }
    qhQtdNext := (td.qtdNext &&& ~~~ehciPtrBits).toNat }

inductive Event (maxpacket : Nat) where
  | complete (report : List Byte) (hlen : report.length ≤ maxpacket) (status : BitVec 32)
  | poll

/-- A transfer takes place while the descriptor is active. -/
def Event.step (pipe : EhciPipe) (s : State) :
    Event pipe.maxpacket → State × Answer (List Byte)
  | complete report _ status =>
    if (s.td s.qhQtdNext).token &&& qtdStsActive = 0 then (s, .refused)
    else (completeTd report status s, .stored)
  | poll =>
    match ehciPollIntr pipe s with
    | (none, s) => (s, .nothing)
    | (some data, s) => (s, .taken data)

def run (pipe : EhciPipe) (s : State) :
    List (Event pipe.maxpacket) → State × List (Answer (List Byte))
  | [] => (s, [])
  | e :: es =>
    let r := run pipe (e.step pipe s).1 es
    (r.1, (e.step pipe s).2 :: r.2)

/-- What an event is to a queue of reports. -/
def Event.call {maxpacket : Nat} : Event maxpacket → Call (List Byte)
  | complete report _ _ => .put report
  | poll => .take

/-- The queue of the reports that were not polled yet, and its answers. -/
def queue (pipe : EhciPipe) (es : List (Event pipe.maxpacket)) :
    List (List Byte) × List (Answer (List Byte)) :=
  runCalls pipe.count [] (es.map Event.call)

/-- What is polled is a report's buffer: the report, and behind a short one what
was there before. -/
inductive Delivers (maxpacket : Nat) : Answer (List Byte) → Answer (List Byte) → Prop
  | stored : Delivers maxpacket .stored .stored
  | refused : Delivers maxpacket .refused .refused
  | nothing : Delivers maxpacket .nothing .nothing
  | taken (hlen : data.length = maxpacket) (h : report <+: data) :
      Delivers maxpacket (.taken data) (.taken report)

def EhciPipe.buffer (pipe : EhciPipe) (i : Nat) : Nat := pipe.data + pipe.maxpacket * i

/-- Transfers and polls are answered as a queue of reports answers them, and no
byte outside of the buffers is written. -/
structure Fifo (pipe : EhciPipe) (s : State) (es : List (Event pipe.maxpacket)) : Prop where
  answers : List.Forall₂ (Delivers pipe.maxpacket) (run pipe s es).2 (queue pipe es).2
  inside : ∀ a, (a < pipe.data ∨ pipe.data + pipe.maxpacket * pipe.count ≤ a) →
    (run pipe s es).1.mem a = s.mem a

/-- No buffer reaches into another page. -/
def EhciPipe.InPages (pipe : EhciPipe) : Prop :=
  ∀ i < pipe.count, pipe.buffer i % 0x1000 + pipe.maxpacket ≤ 0x1000

instance (pipe : EhciPipe) : Decidable pipe.InPages :=
  inferInstanceAs (Decidable (∀ i < pipe.count, pipe.buffer i % 0x1000 + pipe.maxpacket ≤ 0x1000))

structure EhciPipe.Allocated (pipe : EhciPipe) : Prop where
  aligned : sizeofQtd ∣ pipe.tds
  tds : pipe.tds + sizeofQtd * pipe.count < 2 ^ 32
  data : pipe.data + pipe.maxpacket * pipe.count < 2 ^ 32

end ItxLlama.Seabios.EhciIntr
