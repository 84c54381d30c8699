import ItxLlama.Seabios.Xhci

/-!
# What the rings of XHCI hold

A ring of requests is the stream of the TRBs queued with a link behind every
fifteen, the event ring that of the events posted. What each side has read and
written are positions of these streams.
-/

namespace ItxLlama.Seabios.Xhci

open Lib.Word Lib.CycleRing

-- ---------------------------------------------------------------------------
-- Cycle bits
-- ---------------------------------------------------------------------------

def Trb.cycle (trb : Trb) : Bool := trb.control.getLsbD 0

theorem and_trbC (control : BitVec 32) : control &&& trbC = cycleBit (control.getLsbD 0) := by
  have hand : control &&& 1#32 = (BitVec.ofBool (control.getLsbD 0)).setWidth 32 :=
    BitVec.and_one_eq_setWidth_ofBool_getLsbD
  refine hand.trans ?_
  cases control.getLsbD 0 <;> decide

theorem cycleBit_inj : cycleBit a = cycleBit b ↔ a = b := by
  cases a <;> cases b <;> decide

theorem matches_iff (trb : Trb) (cs : Bool) :
    trb.control &&& trbC = cycleBit cs ↔ trb.cycle = cs := by
  rw [and_trbC, cycleBit_inj]
  rfl

theorem unset_iff (trb : Trb) : trb.control &&& trbC = 0 ↔ trb.cycle = false :=
  matches_iff trb false

theorem cycle_withCycle {trb : Trb} (h : trb.control &&& trbC = 0) (cs : Bool) :
    (withCycle trb cs).cycle = cs := by
  have hbit : trb.control.getLsbD 0 = false := (unset_iff trb).mp h
  unfold withCycle Trb.cycle
  rw [BitVec.getLsbD_or, hbit]
  cases cs <;> decide

theorem withoutCycle_withCycle {trb : Trb} (h : trb.control &&& trbC = 0) (cs : Bool) :
    withoutCycle (withCycle trb cs) = trb := by
  have hmask : cycleBit cs &&& ~~~trbC = 0 := by cases cs <;> decide
  have hkept : trb.control &&& ~~~trbC = trb.control := by
    apply BitVec.eq_of_getLsbD_eq
    intro i hi
    have hbit := congrArg (fun x => x.getLsbD i) h
    rw [BitVec.getLsbD_and] at hbit
    rw [BitVec.getLsbD_and, BitVec.getLsbD_not]
    cases htrb : trb.control.getLsbD i with
    | false => rfl
    | true =>
      rw [htrb] at hbit
      simpa [hi] using hbit
  have hcontrol : (trb.control ||| cycleBit cs) &&& ~~~trbC = trb.control := by
    rw [BitVec.and_comm, BitVec.and_or_distrib_left, BitVec.and_comm, hkept, BitVec.and_comm, hmask]
    exact BitVec.or_zero
  unfold withoutCycle withCycle
  rw [hcontrol]

theorem trbType_withCycle (trb : Trb) (cs : Bool) :
    trbType (withCycle trb cs).control = trbType trb.control := by
  have hshift : cycleBit cs >>> 10 = 0 := by cases cs <;> decide
  unfold withCycle trbType
  rw [BitVec.ushiftRight_or_distrib, hshift]
  exact congrArg (· &&& 0x3f) BitVec.or_zero

-- ---------------------------------------------------------------------------
-- A ring of requests
-- ---------------------------------------------------------------------------

def linkTrb (r : RingAddr) (cs : Bool) : Trb :=
  ⟨.ofNat 32 r.addr, 0, 0, trLink <<< 10 ||| trbLkTc ||| cycleBit cs⟩

theorem cycle_linkTrb (r : RingAddr) (cs : Bool) : (linkTrb r cs).cycle = cs := by
  have hbit : (trLink <<< 10 ||| trbLkTc ||| cycleBit cs).getLsbD 0 = cs := by
    cases cs <;> decide
  exact hbit

theorem linkTrb_type (r : RingAddr) (cs : Bool) :
    trbType (linkTrb r cs).control = trLink ∧ (linkTrb r cs).control &&& trbLkTc ≠ 0 := by
  have hcontrol : trbType (trLink <<< 10 ||| trbLkTc ||| cycleBit cs) = trLink ∧
      (trLink <<< 10 ||| trbLkTc ||| cycleBit cs) &&& trbLkTc ≠ 0 := by
    cases cs <;> decide
  exact hcontrol

/-- The stream of the TRBs queued and the links. -/
def entry (r : RingAddr) (queued : List Trb) (p : Nat) : Trb :=
  if p % xhciRingItems = xhciRingItems - 1 then linkTrb r (phase xhciRingItems p)
  else withCycle (queued.getD (p - p / xhciRingItems) default) (phase xhciRingItems p)

/-- How long the stream is: a link is written with the TRB behind it. -/
def written (n : Nat) : Nat := n + (n - 1) / 15

def Request (trb : Trb) : Prop := trb.control &&& trbC = 0 ∧ trbType trb.control ≠ trLink

/-- The ring and its state after so many entries of the stream. -/
structure WrittenTo (r : RingAddr) (ring : XhciRing) (queued : List Trb) (w : Nat) : Prop where
  slots : Written xhciRingItems Trb.cycle (entry r queued) ring.ring w
  nidx : ring.nidx = w % xhciRingItems
  cs : ring.cs = phase xhciRingItems w

structure Requests (r : RingAddr) (ring : XhciRing) (queued : List Trb) : Prop where
  requests : ∀ trb ∈ queued, Request trb
  all : WrittenTo r ring queued (written queued.length)

/-- The first part of `xhci_trb_queue`, with the ring at its last slot. -/
def linkRing (addr : Nat) (ring : XhciRing) : XhciRing :=
  { ring with
    ring := Function.update ring.ring ring.nidx
      ⟨.ofNat 32 addr, 0, 0, trLink <<< 10 ||| trbLkTc ||| cycleBit ring.cs⟩
    nidx := 0
    cs := !ring.cs }

/-- The second part of `xhci_trb_queue`. -/
def putTrb (ring : XhciRing) (trb : Trb) : XhciRing :=
  { ring with
    ring := Function.update ring.ring ring.nidx (withCycle trb ring.cs)
    nidx := ring.nidx + 1 }

theorem xhciTrbQueue_eq (addr : Nat) (ring : XhciRing) (trb : Trb) :
    xhciTrbQueue addr ring trb =
      putTrb (if ring.nidx = xhciRingItems - 1 then linkRing addr ring else ring) trb := rfl

section

variable {r : RingAddr} {ring : XhciRing} {queued : List Trb} {trb : Trb} {p w : Nat}

theorem entry_link (hp : p % xhciRingItems = xhciRingItems - 1) :
    entry r queued p = linkTrb r (phase xhciRingItems p) := if_pos hp

theorem entry_trb (hp : p % xhciRingItems ≠ xhciRingItems - 1)
    (hget : queued[p - p / xhciRingItems]? = some trb) :
    entry r queued p = withCycle trb (phase xhciRingItems p) := by
  unfold entry
  rw [if_neg hp, List.getD_eq_getElem?_getD, hget]
  rfl

theorem index_lt (hp : p < written n) (hlink : p % xhciRingItems ≠ xhciRingItems - 1) :
    p - p / xhciRingItems < n := by
  unfold written xhciRingItems at *
  omega

theorem entry_append (hp : p < written queued.length) (more : List Trb) :
    entry r (queued ++ more) p = entry r queued p := by
  unfold entry
  by_cases hlink : p % xhciRingItems = xhciRingItems - 1
  · rw [if_pos hlink, if_pos hlink]
  · rw [if_neg hlink, if_neg hlink, List.getD_eq_getElem?_getD, List.getD_eq_getElem?_getD,
      List.getElem?_append_left (index_lt hp hlink)]

theorem requests_empty (r : RingAddr) : Requests r emptyRing [] where
  requests := nofun
  all := ⟨written_zero fun _ _ => (unset_iff ⟨0, 0, 0, 0⟩).mp rfl, rfl, rfl⟩

theorem WrittenTo.link (h : WrittenTo r ring queued w)
    (hlink : w % xhciRingItems = xhciRingItems - 1) :
    WrittenTo r (linkRing r.addr ring) queued (w + 1) := by
  have hentry : entry r queued w = linkTrb r ring.cs := h.cs ▸ entry_link hlink
  refine ⟨h.slots.push ?_ ?_ fun i _ hne => ?_, ?_, ?_⟩
  · rw [hentry, cycle_linkTrb, h.cs]
  · unfold linkRing
    dsimp only
    rw [← h.nidx, Function.update_self, hentry]
    rfl
  · exact Function.update_of_ne (h.nidx ▸ hne) ..
  · rw [mod_succ (by decide), hlink]
    rfl
  · rw [phase_succ (by decide), hlink, ← h.cs]
    rfl

theorem WrittenTo.put (h : WrittenTo r ring queued w)
    (hlink : w % xhciRingItems ≠ xhciRingItems - 1)
    (hget : queued[w - w / xhciRingItems]? = some trb) (htrb : Request trb) :
    WrittenTo r (putTrb ring trb) queued (w + 1) := by
  have hentry : entry r queued w = withCycle trb ring.cs := h.cs ▸ entry_trb hlink hget
  have hmod : w % xhciRingItems + 1 ≠ xhciRingItems := by
    unfold xhciRingItems at *
    omega
  refine ⟨h.slots.push ?_ ?_ fun i _ hne => ?_, ?_, ?_⟩
  · rw [hentry, cycle_withCycle htrb.1, h.cs]
  · unfold putTrb
    dsimp only
    rw [← h.nidx, Function.update_self, hentry]
  · exact Function.update_of_ne (h.nidx ▸ hne) ..
  · rw [mod_succ (by decide), if_neg hmod, ← h.nidx]
    rfl
  · rw [phase_succ (by decide), if_neg hmod, ← h.cs]
    rfl

theorem Requests.queue (h : Requests r ring queued) (htrb : Request trb) :
    Requests r (xhciTrbQueue r.addr ring trb) (queued ++ [trb]) := by
  have hlength : (queued ++ [trb]).length = queued.length + 1 := List.length_append
  have hget : (queued ++ [trb])[queued.length]? = some trb := List.getElem?_concat_length
  have hall : WrittenTo r ring (queued ++ [trb]) (written queued.length) :=
    ⟨h.all.slots.congr fun p hp => entry_append hp [trb], h.all.nidx, h.all.cs⟩
  refine ⟨List.forall_mem_append.mpr ⟨h.requests, List.forall_mem_singleton.mpr htrb⟩, ?_⟩
  rw [xhciTrbQueue_eq, hlength]
  by_cases hlink : ring.nidx = xhciRingItems - 1
  · have hlast : written queued.length % xhciRingItems = xhciRingItems - 1 :=
      h.all.nidx.symm.trans hlink
    have hnew : written (queued.length + 1) = written queued.length + 1 + 1 := by
      unfold written xhciRingItems at *
      omega
    have hstart : (written queued.length + 1) % xhciRingItems ≠ xhciRingItems - 1 := by
      unfold xhciRingItems at *
      omega
    have hindex : written queued.length + 1 - (written queued.length + 1) / xhciRingItems =
        queued.length := by
      unfold written xhciRingItems at *
      omega
    rw [if_pos hlink, hnew]
    exact (hall.link hlast).put hstart (by rwa [hindex]) htrb
  · have hlast : written queued.length % xhciRingItems ≠ xhciRingItems - 1 :=
      h.all.nidx ▸ hlink
    have hnew : written (queued.length + 1) = written queued.length + 1 := by
      unfold written xhciRingItems at *
      omega
    have hindex : written queued.length - written queued.length / xhciRingItems =
        queued.length := by
      unfold written xhciRingItems at *
      omega
    rw [if_neg hlink, hnew]
    exact hall.put hlast (by rwa [hindex]) htrb

end

end ItxLlama.Seabios.Xhci
