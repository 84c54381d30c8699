import ItxLlama.Lib.Ring
import ItxLlama.Lib.Table
import ItxLlama.Lib.Word
import ItxLlama.Seabios.Ticks

/-!
# Interrupt reports of OHCI

`ohci_alloc_intr_pipe` sets up a ring of transfer descriptors with a buffer
each, `ohci_poll_intr` takes reports from it. The controller fills the buffer
of the descriptor at the head and unlinks it, up to the one at the tail.
-/

namespace ItxLlama.Seabios.OhciIntr

open Lib.Word Lib.Ring Lib.Table

abbrev Byte := BitVec 8

structure OhciTd where
  hwINFO : Nat
  hwCBP : Nat
  hwNextTD : Nat
  hwBE : Nat
  deriving DecidableEq, Repr, Inhabited

def sizeofTd : Nat := 16

/-- `TD_DP_IN | TD_T_TOGGLE | TD_CC` -/
def tdIn : Nat := 0x00100000 ||| 0x00000000 ||| 0xf0000000

/-- What `ohci_poll_intr` finds in a pipe. -/
structure OhciPipe where
  tds : Nat
  data : Nat
  count : Nat
  maxpacket : Nat
  deriving DecidableEq, Repr

/-- The pointers of the endpoint descriptor, the transfer descriptors by
their addresses and the memory of the buffers. -/
structure State where
  hwHeadP : Nat
  hwTailP : Nat
  td : Nat → OhciTd
  mem : Nat → Byte

/-- `ED_C`, the toggle carry. -/
def edC : Nat := 0x02

/-- `& ~(ED_C|ED_H)` -/
def maskHead (p : Nat) : Nat := alignDown p 4

-- ---------------------------------------------------------------------------
-- The driver
-- ---------------------------------------------------------------------------

/-- Entries for 2 timer ticks, and the one at the tail. -/
def tdCount (frameexp : Nat) : Nat :=
  let frameexp := if frameexp > 5 then 5 else frameexp
  let ms := 1 <<< frameexp
  (Clock.ticksToMs 2 + ms - 1) / ms + 1

/-- `ohci_alloc_intr_pipe` up to the schedule, with the memory that it gets;
the transfer descriptors at first have any contents. -/
def ohciAllocIntrPipe (frameexp wMaxPacketSize tds data : Nat) (td : Nat → OhciTd)
    (mem : Nat → Byte) : OhciPipe × State :=
  let count := tdCount frameexp
  let init := fun i =>
    { hwINFO := tdIn
      hwCBP := u32 (data + wMaxPacketSize * i)
      hwNextTD := tds + sizeofTd * (i + 1)
      hwBE := u32 (u32 (data + wMaxPacketSize * i) + wMaxPacketSize + (2 ^ 32 - 1)) }
  (⟨tds, data, count, wMaxPacketSize⟩,
    { hwHeadP := tds
      hwTailP := tds + sizeofTd * (count - 1)
      td := fill (fun i => tds + sizeofTd * i) init (count - 1) td
      mem })

/-- -1 is `none`. -/
def ohciPollIntr (pipe : OhciPipe) (s : State) : Option (List Byte) × State :=
  let head := maskHead s.hwHeadP
  let tail := s.hwTailP
  let pos := ((tail - pipe.tds) / sizeofTd + 1) % pipe.count
  let next := pipe.tds + sizeofTd * pos
  -- no intrs found
  if head = next then (none, s)
  else
    let intrdata := pipe.data + pipe.maxpacket * pos
    let data := (List.range pipe.maxpacket).map fun k => s.mem (intrdata + k)
    -- reenable this td
    let intrdata := pipe.data + pipe.maxpacket * ((tail - pipe.tds) / sizeofTd)
    let td := Function.update s.td tail
      { hwINFO := tdIn
        hwCBP := u32 intrdata
        hwNextTD := next
        hwBE := u32 (u32 intrdata + pipe.maxpacket + (2 ^ 32 - 1)) }
    (some data, { s with td, hwTailP := next })

-- ---------------------------------------------------------------------------
-- The controller
-- ---------------------------------------------------------------------------

/-- The bytes of a report stored from `hwCBP` to `hwBE`. -/
def storeReport (td : OhciTd) (report : Nat → Byte) (mem : Nat → Byte) : Nat → Byte := fun a =>
  if td.hwCBP ≤ a ∧ a ≤ td.hwBE then report (a - td.hwCBP) else mem a

/-- A transfer without an error: the descriptor at the head is done, moved to
the done queue (its words are `retired`) and the head goes on. -/
def completeTd (report : Nat → Byte) (carry : Bool) (retired : OhciTd) (s : State) : State :=
  let head := maskHead s.hwHeadP
  let td := s.td head
  { s with
    mem := storeReport td report s.mem
    td := Function.update s.td head retired
    hwHeadP := td.hwNextTD ||| if carry then edC else 0 }

inductive Event where
  | complete (report : Nat → Byte) (carry : Bool) (retired : OhciTd)
  | poll

/-- A transfer takes place unless the head is at the tail. -/
def Event.step (pipe : OhciPipe) (s : State) : Event → State × Answer (List Byte)
  | complete report carry retired =>
    if maskHead s.hwHeadP = s.hwTailP then (s, .refused)
    else (completeTd report carry retired s, .stored)
  | poll =>
    match ohciPollIntr pipe s with
    | (none, s) => (s, .nothing)
    | (some data, s) => (s, .taken data)

def run (pipe : OhciPipe) (s : State) : List Event → State × List (Answer (List Byte))
  | [] => (s, [])
  | e :: es =>
    let r := run pipe (e.step pipe s).1 es
    (r.1, (e.step pipe s).2 :: r.2)

/-- What an event is to a queue of reports. -/
def Event.call (pipe : OhciPipe) : Event → Call (List Byte)
  | complete report _ _ => .put ((List.range pipe.maxpacket).map report)
  | poll => .take

-- ---------------------------------------------------------------------------
-- The ring
-- ---------------------------------------------------------------------------

def OhciPipe.tdAddr (pipe : OhciPipe) (i : Nat) : Nat := pipe.tds + sizeofTd * i

def OhciPipe.buffer (pipe : OhciPipe) (i : Nat) : Nat := pipe.data + pipe.maxpacket * i

/-- What is in buffer `i`. -/
def OhciPipe.slot (pipe : OhciPipe) (mem : Nat → Byte) (i : Nat) : List Byte :=
  (List.range pipe.maxpacket).map fun k => mem (pipe.buffer i + k)

structure OhciPipe.Allocated (pipe : OhciPipe) : Prop where
  aligned : 16 ∣ pipe.tds
  nonnull : 0 < pipe.data
  data : pipe.data + pipe.maxpacket * pipe.count < 2 ^ 32

/-- Descriptor `i` is ready for a report in its buffer, with the next one behind it. -/
structure Armed (pipe : OhciPipe) (td : OhciTd) (i : Nat) : Prop where
  hwCBP : td.hwCBP = pipe.buffer i
  hwBE : td.hwBE = pipe.buffer i + pipe.maxpacket - 1
  hwNextTD : td.hwNextTD = pipe.tdAddr (next pipe.count i)

/-- The buffers behind the one of the tail, up to the head, hold the unread
reports; the descriptors from the head to the tail are ready. -/
structure Rep (pipe : OhciPipe) (s : State) (head tail : Nat) (q : List (List Byte)) : Prop where
  hwHeadP : maskHead s.hwHeadP = pipe.tdAddr head
  hwTailP : s.hwTailP = pipe.tdAddr tail
  tail_lt : tail < pipe.count
  ring : Lib.Ring.Holds pipe.count (pipe.slot s.mem) (next pipe.count tail) head q
  armed : ∀ j, j + q.length + 1 < pipe.count →
    Armed pipe (s.td (pipe.tdAddr ((head + j) % pipe.count))) ((head + j) % pipe.count)

section

variable {pipe : OhciPipe} {s : State} {head tail i j : Nat} {q : List (List Byte)}

theorem OhciPipe.tdAddr_inj : pipe.tdAddr i = pipe.tdAddr j ↔ i = j := by
  unfold tdAddr sizeofTd
  omega

theorem OhciPipe.index_tdAddr (pipe : OhciPipe) (i : Nat) :
    (pipe.tdAddr i - pipe.tds) / sizeofTd = i := by
  unfold tdAddr sizeofTd
  omega

theorem OhciPipe.buffer_le (pipe : OhciPipe) (hi : i < pipe.count) :
    pipe.buffer i + pipe.maxpacket ≤ pipe.data + pipe.maxpacket * pipe.count := by
  have hmul := Nat.mul_le_mul_left pipe.maxpacket hi
  rw [Nat.mul_succ] at hmul
  unfold buffer
  omega

theorem OhciPipe.buffer_mono (pipe : OhciPipe) (hlt : i < j) :
    pipe.buffer i + pipe.maxpacket ≤ pipe.buffer j := by
  have hmul := Nat.mul_le_mul_left pipe.maxpacket hlt
  rw [Nat.mul_succ] at hmul
  unfold buffer
  omega

theorem OhciPipe.Allocated.maskHead_tdAddr (h : pipe.Allocated) (i : Nat) (carry : Bool) :
    maskHead (pipe.tdAddr i ||| if carry then edC else 0) = pipe.tdAddr i := by
  obtain ⟨c, hc⟩ := h.aligned
  have haddr : pipe.tdAddr i = (4 * (c + i)) <<< 2 := by
    rw [Nat.shiftLeft_eq, OhciPipe.tdAddr, sizeofTd, hc]
    omega
  cases carry with
  | false =>
    rw [if_neg Bool.false_ne_true, Nat.or_zero, haddr, Nat.shiftLeft_eq]
    unfold maskHead alignDown
    omega
  | true =>
    rw [if_pos rfl, edC, haddr, ← Nat.shiftLeft_add_eq_or_of_lt (by decide), Nat.shiftLeft_eq]
    unfold maskHead alignDown
    omega

theorem OhciPipe.Allocated.armed (h : pipe.Allocated) (hi : i < pipe.count) (info : Nat) :
    Armed pipe ⟨info, u32 (pipe.buffer i), pipe.tdAddr (next pipe.count i),
      u32 (u32 (pipe.buffer i) + pipe.maxpacket + (2 ^ 32 - 1))⟩ i := by
  have hle := pipe.buffer_le hi
  have hdata := h.data
  have hpos : 0 < pipe.buffer i := Nat.lt_of_lt_of_le h.nonnull (Nat.le_add_right _ _)
  have hbound : pipe.buffer i < 2 ^ 32 := by omega
  refine ⟨u32_eq hbound, ?_, rfl⟩
  dsimp only
  rw [u32_eq hbound]
  unfold u32
  omega

-- ---------------------------------------------------------------------------
-- A transfer
-- ---------------------------------------------------------------------------

theorem next_inj {n : Nat} (hi : i < n) (hj : j < n) : next n i = next n j ↔ i = j := by
  unfold next
  split <;> split <;> omega

theorem Rep.stalled_iff (h : Rep pipe s head tail q) :
    maskHead s.hwHeadP = s.hwTailP ↔ q.length + 1 = pipe.count := by
  rw [h.hwHeadP, h.hwTailP, OhciPipe.tdAddr_inj, ← h.ring.full_iff]
  exact (next_inj h.ring.tail_lt h.tail_lt).symm

theorem slot_storeReport {td : OhciTd} (htd : Armed pipe td head)
    (report : Nat → Byte) (mem : Nat → Byte) :
    pipe.slot (storeReport td report mem) head = (List.range pipe.maxpacket).map report := by
  refine List.map_congr_left fun k hk => ?_
  have hk := List.mem_range.mp hk
  unfold storeReport
  rw [htd.hwCBP, htd.hwBE, if_pos (by omega), Nat.add_sub_cancel_left]

theorem slot_storeReport_ne {td : OhciTd} (htd : Armed pipe td head)
    (hne : i ≠ head) (report : Nat → Byte) (mem : Nat → Byte) :
    pipe.slot (storeReport td report mem) i = pipe.slot mem i := by
  refine List.map_congr_left fun k hk => ?_
  have hk := List.mem_range.mp hk
  unfold storeReport
  rw [htd.hwCBP, htd.hwBE]
  rcases Nat.lt_or_gt_of_ne hne with hlt | hlt
  · have hle := pipe.buffer_mono hlt
    exact if_neg (by omega)
  · have hle := pipe.buffer_mono hlt
    exact if_neg (by omega)

theorem Rep.armed_head (h : Rep pipe s head tail q) (hroom : q.length + 1 < pipe.count) :
    Armed pipe (s.td (pipe.tdAddr head)) head := by
  have harmed := h.armed 0 (by rwa [Nat.zero_add])
  rwa [Nat.add_zero, Nat.mod_eq_of_lt h.ring.tail_lt] at harmed

theorem Rep.complete (h : Rep pipe s head tail q) (hp : pipe.Allocated)
    (hroom : q.length + 1 < pipe.count) (report : Nat → Byte) (carry : Bool) (retired : OhciTd) :
    Rep pipe (completeTd report carry retired s) (next pipe.count head) tail
      (q ++ [(List.range pipe.maxpacket).map report]) := by
  have htd := h.armed_head hroom
  have hhead := h.ring.tail_lt
  have hmem : (completeTd report carry retired s).mem =
      storeReport (s.td (pipe.tdAddr head)) report s.mem := by
    rw [← h.hwHeadP]
    rfl
  refine ⟨?_, h.hwTailP, h.tail_lt, ?_, fun j hj => ?_⟩
  · unfold completeTd
    dsimp only
    rw [h.hwHeadP, htd.hwNextTD]
    exact hp.maskHead_tdAddr _ _
  · refine h.ring.push hroom (fun i _ hne => ?_) ?_
    · rw [hmem]
      exact slot_storeReport_ne htd hne _ _
    · rw [hmem]
      exact slot_storeReport htd _ _
  · have hlen : (q ++ [(List.range pipe.maxpacket).map report]).length = q.length + 1 :=
      List.length_append
    rw [hlen] at hj
    have hindex : (next pipe.count head + j) % pipe.count = (head + (j + 1)) % pipe.count := by
      rw [next_eq_mod hhead, Nat.mod_add_mod, Nat.add_right_comm, Nat.add_assoc]
    have hne : (head + (j + 1)) % pipe.count ≠ head := by
      intro heq
      have hzero : (head + (j + 1)) % pipe.count = (head + 0) % pipe.count := by
        rw [heq, Nat.add_zero, Nat.mod_eq_of_lt hhead]
      exact absurd (add_mod_inj (by omega) (by omega) hzero) (Nat.succ_ne_zero j)
    rw [hindex]
    unfold completeTd
    dsimp only
    rw [h.hwHeadP, Function.update_of_ne (mt OhciPipe.tdAddr_inj.mp hne)]
    exact h.armed (j + 1) (by omega)

-- ---------------------------------------------------------------------------
-- Polling
-- ---------------------------------------------------------------------------

theorem Rep.pos_eq (h : Rep pipe s head tail q) :
    ((s.hwTailP - pipe.tds) / sizeofTd + 1) % pipe.count = next pipe.count tail := by
  rw [h.hwTailP, pipe.index_tdAddr, next_eq_mod h.tail_lt]

theorem Rep.poll_nil (h : Rep pipe s head tail []) : ohciPollIntr pipe s = (none, s) := by
  have hempty : head = next pipe.count tail := (h.ring.empty_iff.mpr rfl).symm
  unfold ohciPollIntr
  dsimp only
  rw [h.pos_eq, h.hwHeadP, hempty]
  exact if_pos rfl

/-- The descriptor at the tail is made ready, and the next one is the tail. -/
def reenable (pipe : OhciPipe) (s : State) (tail : Nat) : State :=
  { s with
    td := Function.update s.td (pipe.tdAddr tail)
      ⟨tdIn, u32 (pipe.buffer tail), pipe.tdAddr (next pipe.count tail),
        u32 (u32 (pipe.buffer tail) + pipe.maxpacket + (2 ^ 32 - 1))⟩
    hwTailP := pipe.tdAddr (next pipe.count tail) }

theorem Rep.poll_cons {data : List Byte} (h : Rep pipe s head tail (data :: q)) :
    ohciPollIntr pipe s = (some data, reenable pipe s tail) := by
  have hne : head ≠ next pipe.count tail := fun heq =>
    absurd (h.ring.empty_iff.mp heq.symm) (List.cons_ne_nil _ _)
  have hdata : pipe.slot s.mem (next pipe.count tail) = data := h.ring.head_eq
  unfold ohciPollIntr
  dsimp only
  rw [h.pos_eq, h.hwHeadP, h.hwTailP, pipe.index_tdAddr, ← hdata]
  exact if_neg (mt OhciPipe.tdAddr_inj.mp hne)

theorem Rep.reenable {data : List Byte} (h : Rep pipe s head tail (data :: q))
    (hp : pipe.Allocated) : Rep pipe (reenable pipe s tail) head (next pipe.count tail) q := by
  have hroom : q.length + 1 < pipe.count := h.ring.room
  -- the ready descriptors end with the one before the tail
  have htail : (head + (pipe.count - (q.length + 2))) % pipe.count = tail := by
    rw [h.ring.tail_eq, Nat.mod_add_mod, next_eq_mod h.tail_lt, List.length_cons]
    have hsum : (tail + 1) % pipe.count + (q.length + 1) + (pipe.count - (q.length + 2)) =
        (tail + 1) % pipe.count + (pipe.count - 1) := by omega
    have hsucc : tail + 1 + (pipe.count - 1) = tail + pipe.count := by omega
    rw [hsum, Nat.mod_add_mod, hsucc, Nat.add_mod_right, Nat.mod_eq_of_lt h.tail_lt]
  refine ⟨h.hwHeadP, rfl, next_lt h.tail_lt, h.ring.pop, fun j hj => ?_⟩
  unfold OhciIntr.reenable
  dsimp only
  by_cases hlast : j = pipe.count - (q.length + 2)
  · rw [hlast, htail, Function.update_self]
    exact hp.armed h.tail_lt _
  · have hne : (head + j) % pipe.count ≠ tail := fun heq =>
      hlast (add_mod_inj (by omega) (by omega) (heq.trans htail.symm))
    rw [Function.update_of_ne (mt OhciPipe.tdAddr_inj.mp hne)]
    refine h.armed j ?_
    rw [List.length_cons]
    omega

-- ---------------------------------------------------------------------------
-- Runs
-- ---------------------------------------------------------------------------

theorem Rep.step (h : Rep pipe s head tail q) (hp : pipe.Allocated) (e : Event) :
    (e.step pipe s).2 = ((e.call pipe).step (pipe.count - 1) q).2 ∧
      ∃ head' tail', Rep pipe (e.step pipe s).1 head' tail'
        ((e.call pipe).step (pipe.count - 1) q).1 := by
  cases e with
  | complete report carry retired =>
    unfold Event.step Event.call Call.step
    dsimp only
    by_cases hroom : q.length + 1 < pipe.count
    · rw [if_neg (mt h.stalled_iff.mp (Nat.ne_of_lt hroom)), if_pos (Nat.lt_sub_of_add_lt hroom)]
      exact ⟨rfl, _, _, h.complete hp hroom report carry retired⟩
    · have hfull : q.length + 1 = pipe.count :=
        Nat.le_antisymm h.ring.room (Nat.le_of_not_lt hroom)
      rw [if_pos (h.stalled_iff.mpr hfull), if_neg (by omega)]
      exact ⟨rfl, _, _, h⟩
  | poll =>
    unfold Event.step Event.call Call.step
    cases q with
    | nil =>
      rw [h.poll_nil]
      exact ⟨rfl, _, _, h⟩
    | cons data q =>
      rw [h.poll_cons]
      exact ⟨rfl, _, _, h.reenable hp⟩

theorem Rep.run (h : Rep pipe s head tail q) (hp : pipe.Allocated) (es : List Event) :
    (run pipe s es).2 = (runCalls (pipe.count - 1) q (es.map (Event.call pipe))).2 ∧
      ∃ head' tail', Rep pipe (run pipe s es).1 head' tail'
        (runCalls (pipe.count - 1) q (es.map (Event.call pipe))).1 := by
  induction es generalizing s head tail q with
  | nil => exact ⟨rfl, _, _, h⟩
  | cons e es ih =>
    obtain ⟨hanswer, _, _, hstep⟩ := h.step hp e
    obtain ⟨hanswers, hrun⟩ := ih hstep
    exact ⟨congrArg₂ _ hanswer hanswers, hrun⟩

end

-- ---------------------------------------------------------------------------
-- Setting up
-- ---------------------------------------------------------------------------

theorem one_lt_tdCount (frameexp : Nat) : 1 < tdCount frameexp := by
  have hticks : 0 < Clock.ticksToMs 2 := by decide
  have hms : 0 < 1 <<< (if frameexp > 5 then 5 else frameexp) := by
    rw [Nat.one_shiftLeft]
    exact Nat.two_pow_pos _
  exact Nat.succ_lt_succ (Nat.div_pos (by omega) hms)

variable {frameexp wMaxPacketSize tds data : Nat} {td : Nat → OhciTd} {mem : Nat → Byte}

theorem ohciAllocIntrPipe_rep
    (h : (ohciAllocIntrPipe frameexp wMaxPacketSize tds data td mem).1.Allocated) :
    Rep (ohciAllocIntrPipe frameexp wMaxPacketSize tds data td mem).1
      (ohciAllocIntrPipe frameexp wMaxPacketSize tds data td mem).2 0 (tdCount frameexp - 1)
      [] := by
  have hcount := one_lt_tdCount frameexp
  have hnext : next (tdCount frameexp) (tdCount frameexp - 1) = 0 := if_neg (by omega)
  refine ⟨?_, rfl, Nat.sub_one_lt_of_lt hcount, ?_, fun j hj => ?_⟩
  · have hhead := h.maskHead_tdAddr 0 false
    rwa [if_neg Bool.false_ne_true, Nat.or_zero] at hhead
  · change Lib.Ring.Holds (tdCount frameexp) _ (next (tdCount frameexp) (tdCount frameexp - 1)) 0 []
    rw [hnext]
    exact holds_nil (Nat.zero_lt_of_lt hcount)
  · have hj : j + 1 < tdCount frameexp := hj
    have harmed := h.armed (Nat.lt_of_succ_lt hj) tdIn
    have hsucc : next (tdCount frameexp) j = j + 1 := if_pos hj
    rw [show (0 + j) % _ = j by rw [Nat.zero_add]; exact Nat.mod_eq_of_lt (Nat.lt_of_succ_lt hj)]
    unfold ohciAllocIntrPipe at harmed ⊢
    dsimp only at harmed ⊢
    rw [hsucc] at harmed
    unfold OhciPipe.tdAddr OhciPipe.buffer at *
    dsimp only at *
    rw [fill_at (fun i => tds + sizeofTd * i) (Nat.lt_sub_of_add_lt hj)]
    · exact harmed
    · intro i hlt _
      unfold sizeofTd
      omega

-- ---------------------------------------------------------------------------
-- First in, first out
-- ---------------------------------------------------------------------------

/-- The reports of the transfers that took place and were not polled yet. -/
def unread (pipe : OhciPipe) (es : List Event) : List (List Byte) :=
  (runCalls (pipe.count - 1) [] (es.map (Event.call pipe))).1

/-- The ring of a pipe is a queue: every event is answered as a queue's call,
what was polled are the first of the transfers, and the others still are in
their buffers behind the tail's. -/
structure Fifo (pipe : OhciPipe) (s : State) (es : List Event) : Prop where
  answers : (run pipe s es).2 = (runCalls (pipe.count - 1) [] (es.map (Event.call pipe))).2
  inOrder : accepted (es.map (Event.call pipe)) (run pipe s es).2 =
    delivered (run pipe s es).2 ++ unread pipe es
  kept : ∀ j (hj : j < (unread pipe es).length),
    pipe.slot (run pipe s es).1.mem
      (((((run pipe s es).1.hwTailP - pipe.tds) / sizeofTd + 1) + j) % pipe.count) =
      (unread pipe es)[j]
  nothing : (ohciPollIntr pipe (run pipe s es).1).1 = none ↔ unread pipe es = []

theorem ohciPollIntr_fifo (frameexp wMaxPacketSize tds data : Nat) (td : Nat → OhciTd)
    (mem : Nat → Byte) (h : (ohciAllocIntrPipe frameexp wMaxPacketSize tds data td mem).1.Allocated)
    (es : List Event) :
    Fifo (ohciAllocIntrPipe frameexp wMaxPacketSize tds data td mem).1
      (ohciAllocIntrPipe frameexp wMaxPacketSize tds data td mem).2 es := by
  obtain ⟨hanswers, head, tail, hrep⟩ := (ohciAllocIntrPipe_rep h).run h es
  refine ⟨hanswers, ?_, fun j hj => ?_, ?_⟩
  · rw [hanswers]
    exact accepted_eq _ [] _
  · rw [← Nat.mod_add_mod, hrep.pos_eq]
    exact hrep.ring.slots j hj
  · unfold unread
    generalize (runCalls _ [] _).1 = q at hrep ⊢
    cases q with
    | nil => exact iff_of_true (congrArg Prod.fst hrep.poll_nil) rfl
    | cons data q =>
      rw [hrep.poll_cons]
      exact iff_of_false nofun (List.cons_ne_nil _ _)

theorem ohciPollIntr_fifo_one :
    Fifo (ohciAllocIntrPipe 3 8 0x1000 0x2000 (fun _ => default) (fun _ => 0)).1
      (ohciAllocIntrPipe 3 8 0x1000 0x2000 (fun _ => default) (fun _ => 0)).2
      [.complete (fun k => .ofNat 8 k) true default, .poll, .poll] :=
  ohciPollIntr_fifo 3 8 0x1000 0x2000 (fun _ => default) (fun _ => 0)
    ⟨by decide, by decide, by decide⟩ _

end ItxLlama.Seabios.OhciIntr
