import ItxLlama.Seabios.XhciLaws

/-!
# What the steps of XHCI keep

The controller follows the stream of a ring of requests, the driver that of the
events. Every step keeps what is known of both sides.
-/

namespace ItxLlama.Seabios.Xhci

open Lib.Word Lib.CycleRing

-- ---------------------------------------------------------------------------
-- The controller on a ring of requests
-- ---------------------------------------------------------------------------

def RingAddr.trbAddr (r : RingAddr) (index : Nat) : Nat := r.addr + sizeofTrb * (index % 15)

/-- The controller is at position `p` of the stream. -/
structure Follows (r : RingAddr) (w : World) (p : Nat) : Prop where
  le : p ≤ written (w.queued r).length
  deq : w.deq r = r.addr + sizeofTrb * (p % xhciRingItems)
  ccs : w.ccs r = phase xhciRingItems p
  consumed : w.consumed r = (w.queued r).take (p - p / xhciRingItems)
  completed_le : completed r w.posted ≤ p - p / xhciRingItems
  inflight : w.inflight r =
    (List.range' (completed r w.posted)
      (p - p / xhciRingItems - completed r w.posted)).map r.trbAddr
  room : (w.queued r).length < completed r w.posted + 15

/-- Both sides of a ring of requests. -/
def RingInv (w : World) (r : RingAddr) : Prop :=
  Requests r (w.driver.rings r.addr) (w.queued r) ∧ ∃ p, Follows r w p

section

variable {r : RingAddr} {w : World} {p : Nat} {ring : XhciRing} {queued : List Trb}
  {s : Driver} {enq : Nat} {pcs : Bool} {posted : List Posted}

theorem Follows.near (h : Follows r w p) : written (w.queued r).length ≤ p + xhciRingItems := by
  have hroom := h.room
  have hle := h.completed_le
  unfold written xhciRingItems at *
  omega

theorem Follows.fetch (h : Follows r w p)
    (hring : Requests r (w.driver.rings r.addr) (w.queued r)) :
    w.fetch r =
      if p < written (w.queued r).length then some (entry r (w.queued r) p) else none := by
  have hindex : (w.deq r - r.addr) / sizeofTrb = p % xhciRingItems := by
    rw [h.deq, Nat.add_sub_cancel_left, Nat.mul_div_cancel_left _ (by decide)]
  have hflag := hring.all.slots.flag_iff (by decide) h.le h.near
  unfold World.fetch
  simp only [hindex, matches_iff, h.ccs, hflag]
  refine ite_congr rfl (fun hlt => ?_) fun _ => rfl
  rw [hring.all.slots.last p hlt h.near]

theorem entry_cases (hring : Requests r ring queued) (hlt : p < written queued.length) :
    (p % xhciRingItems = xhciRingItems - 1 ∧
        entry r queued p = linkTrb r (phase xhciRingItems p)) ∨
      p % xhciRingItems ≠ xhciRingItems - 1 ∧
        ∃ trb, queued[p - p / xhciRingItems]? = some trb ∧ Request trb ∧
          entry r queued p = withCycle trb (phase xhciRingItems p) := by
  by_cases hlink : p % xhciRingItems = xhciRingItems - 1
  · exact .inl ⟨hlink, entry_link hlink⟩
  · have hindex := index_lt hlt hlink
    have hget := List.getElem?_eq_getElem hindex
    exact .inr ⟨hlink, _, hget, hring.requests _ (List.getElem_mem hindex), entry_trb hlink hget⟩

theorem Follows.consume_link (h : Follows r w p) (hlt : p < written (w.queued r).length)
    (hlink : p % xhciRingItems = xhciRingItems - 1)
    (hfetch : w.fetch r = some (linkTrb r (phase xhciRingItems p))) :
    Follows r (w.consume r) (p + 1) := by
  have hindex : (p + 1) - (p + 1) / xhciRingItems = p - p / xhciRingItems := by
    unfold xhciRingItems at *
    omega
  have htype := linkTrb_type r (phase xhciRingItems p)
  have haddr : (BitVec.ofNat 32 r.addr).toNat = r.addr := by
    rw [BitVec.toNat_ofNat]
    refine Nat.mod_eq_of_lt (Nat.lt_of_lt_of_le (Nat.lt_add_of_pos_right ?_) r.bound)
    decide
  have heq : w.consume r = { w with
      deq := Function.update w.deq r r.addr
      ccs := Function.update w.ccs r (!w.ccs r) } := by
    unfold World.consume
    simp only [hfetch, htype.1, if_pos, htype.2, ne_eq, not_false_iff]
    rw [show (linkTrb r (phase xhciRingItems p)).ptrLow.toNat = r.addr from haddr]
  rw [heq]
  refine ⟨hlt, ?_, ?_, ?_, ?_, ?_, h.room⟩
  · rw [mod_succ (by decide), hlink]
    exact Function.update_self ..
  · rw [phase_succ (by decide), hlink, ← h.ccs]
    exact Function.update_self ..
  · rw [hindex]
    exact h.consumed
  · rw [hindex]
    exact h.completed_le
  · rw [hindex]
    exact h.inflight

theorem Follows.consume_trb {trb : Trb} (h : Follows r w p)
    (hlt : p < written (w.queued r).length) (hlink : p % xhciRingItems ≠ xhciRingItems - 1)
    (hget : (w.queued r)[p - p / xhciRingItems]? = some trb) (htrb : Request trb)
    (hfetch : w.fetch r = some (withCycle trb (phase xhciRingItems p))) :
    Follows r (w.consume r) (p + 1) := by
  have hindex : (p + 1) - (p + 1) / xhciRingItems = p - p / xhciRingItems + 1 := by
    unfold xhciRingItems at *
    omega
  have hmod : (p + 1) % xhciRingItems = p % xhciRingItems + 1 := by
    unfold xhciRingItems at *
    omega
  have hslot : (p - p / xhciRingItems) % 15 = p % xhciRingItems := by
    unfold xhciRingItems at *
    omega
  have htype : ¬ trbType (withCycle trb (phase xhciRingItems p)).control = trLink := by
    rw [trbType_withCycle]
    exact htrb.2
  have heq : w.consume r = { w with
      deq := Function.update w.deq r (w.deq r + sizeofTrb)
      inflight := Function.update w.inflight r (w.inflight r ++ [w.deq r])
      consumed := Function.update w.consumed r (w.consumed r ++ [trb]) } := by
    unfold World.consume
    simp only [hfetch, if_neg htype, withoutCycle_withCycle htrb.1]
  have hle := h.completed_le
  rw [heq]
  refine ⟨hlt, ?_, ?_, ?_, ?_, ?_, h.room⟩
  · rw [hmod, Nat.mul_succ, ← Nat.add_assoc, ← h.deq]
    exact Function.update_self ..
  · rw [phase_succ (by decide), if_neg (by omega), ← h.ccs]
  · rw [hindex, List.take_add_one, hget]
    refine (Function.update_self ..).trans ?_
    rw [h.consumed]
    rfl
  · rw [hindex]
    exact Nat.le_succ_of_le hle
  · refine (Function.update_self ..).trans ?_
    dsimp only
    rw [hindex, Nat.succ_sub hle, List.range'_concat, List.map_append, ← h.inflight,
      Nat.one_mul, Nat.add_sub_cancel' hle]
    unfold RingAddr.trbAddr
    rw [List.map_singleton, hslot, h.deq]

theorem Follows.congr {w' : World} (h : Follows r w p) (hqueued : w'.queued r = w.queued r)
    (hdeq : w'.deq r = w.deq r) (hccs : w'.ccs r = w.ccs r)
    (hconsumed : w'.consumed r = w.consumed r) (hinflight : w'.inflight r = w.inflight r)
    (hcompleted : completed r w'.posted = completed r w.posted) : Follows r w' p where
  le := hqueued ▸ h.le
  deq := hdeq.trans h.deq
  ccs := hccs.trans h.ccs
  consumed := by rw [hconsumed, hqueued, h.consumed]
  completed_le := hcompleted ▸ h.completed_le
  inflight := by rw [hinflight, hcompleted, h.inflight]
  room := by rw [hqueued, hcompleted]; exact h.room

theorem Requests.congr {ring' : XhciRing} (h : Requests r ring queued)
    (hring : ring'.ring = ring.ring) (hnidx : ring'.nidx = ring.nidx) (hcs : ring'.cs = ring.cs) :
    Requests r ring' queued where
  requests := h.requests
  all := ⟨hring ▸ h.all.slots, hnidx.trans h.all.nidx, hcs.trans h.all.cs⟩

theorem consume_driver (w : World) (r : RingAddr) :
    (w.consume r).driver = w.driver ∧ (w.consume r).queued = w.queued ∧
      (w.consume r).posted = w.posted ∧ (w.consume r).enq = w.enq ∧ (w.consume r).pcs = w.pcs := by
  unfold World.consume
  split
  · exact ⟨rfl, rfl, rfl, rfl, rfl⟩
  · split
    · exact ⟨rfl, rfl, rfl, rfl, rfl⟩
    · exact ⟨rfl, rfl, rfl, rfl, rfl⟩

theorem consume_other {r' : RingAddr} (hne : r ≠ r') (w : World) :
    (w.consume r').deq r = w.deq r ∧ (w.consume r').ccs r = w.ccs r ∧
      (w.consume r').consumed r = w.consumed r ∧ (w.consume r').inflight r = w.inflight r := by
  unfold World.consume
  split
  · exact ⟨rfl, rfl, rfl, rfl⟩
  · split
    · exact ⟨Function.update_of_ne hne .., Function.update_of_ne hne .., rfl, rfl⟩
    · exact ⟨Function.update_of_ne hne .., rfl, Function.update_of_ne hne ..,
        Function.update_of_ne hne ..⟩

theorem Follows.consume (h : Follows r w p)
    (hring : Requests r (w.driver.rings r.addr) (w.queued r)) :
    ∃ p', Follows r (w.consume r) p' := by
  have hfetch := h.fetch hring
  by_cases hlt : p < written (w.queued r).length
  · rw [if_pos hlt] at hfetch
    rcases entry_cases hring hlt with ⟨hlink, hentry⟩ | ⟨hlink, trb, hget, htrb, hentry⟩
    · exact ⟨_, h.consume_link hlt hlink (hentry ▸ hfetch)⟩
    · exact ⟨_, h.consume_trb hlt hlink hget htrb (hentry ▸ hfetch)⟩
  · rw [if_neg hlt] at hfetch
    refine ⟨p, ?_⟩
    unfold World.consume
    rw [hfetch]
    exact h

theorem RingInv.consume (h : RingInv w r) (r' : RingAddr) : RingInv (w.consume r') r := by
  obtain ⟨hring, p, hfollows⟩ := h
  obtain ⟨hdriver, hqueued, hposted, -, -⟩ := consume_driver w r'
  refine ⟨by rwa [hdriver, hqueued], ?_⟩
  by_cases heq : r = r'
  · exact heq ▸ hfollows.consume hring
  · obtain ⟨hdeq, hccs, hconsumed, hinflight⟩ := consume_other heq w
    exact ⟨p, hfollows.congr (congrFun hqueued r) hdeq hccs hconsumed hinflight
      (congrArg (completed r) hposted)⟩

theorem addr_ne {r r' : RingAddr} (hne : r ≠ r') : r.addr ≠ r'.addr := by
  intro heq
  cases r
  cases r'
  exact hne (by simpa using heq)

theorem RingInv.queue (h : RingInv w r) {r' : RingAddr} {trb : Trb}
    (hallowed : (Event.queue r' trb).Allowed w) : RingInv ((Event.queue r' trb).step w) r := by
  obtain ⟨hring, p, hfollows⟩ := h
  obtain ⟨hunset, htype, hroom⟩ := hallowed
  by_cases heq : r = r'
  · subst heq
    have hqueued : ((Event.queue r trb).step w).queued r = w.queued r ++ [trb] :=
      Function.update_self ..
    have hrings : ((Event.queue r trb).step w).driver.rings r.addr =
        xhciTrbQueue r.addr (w.driver.rings r.addr) trb := Function.update_self ..
    have hlength : (w.queued r ++ [trb]).length = (w.queued r).length + 1 := List.length_append
    have hle := hfollows.le
    have hindex : p - p / xhciRingItems ≤ (w.queued r).length := by
      unfold written xhciRingItems at *
      omega
    have hcompleted := hfollows.completed_le
    refine ⟨?_, p, ?_, hfollows.deq, hfollows.ccs, ?_, hfollows.completed_le,
      hfollows.inflight, ?_⟩
    · rw [hrings, hqueued]
      exact hring.queue ⟨hunset, htype⟩
    · rw [hqueued, hlength]
      unfold written at *
      omega
    · rw [hqueued, List.take_append_of_le_length hindex]
      exact hfollows.consumed
    · rw [hqueued, hlength]
      change (w.queued r).length + 1 < completed r w.posted + 15
      unfold World.outstanding xhciRingItems at hroom
      omega
  · have hrings : ((Event.queue r' trb).step w).driver.rings r.addr = w.driver.rings r.addr :=
      Function.update_of_ne (addr_ne heq) ..
    have hqueued : ((Event.queue r' trb).step w).queued r = w.queued r :=
      Function.update_of_ne heq ..
    exact ⟨by rwa [hrings, hqueued], p, hfollows.congr hqueued rfl rfl rfl rfl rfl⟩

-- ---------------------------------------------------------------------------
-- Completions
-- ---------------------------------------------------------------------------

theorem completionsOf_concat (r : RingAddr) (posted : List Posted) (p : Posted) :
    completionsOf r (posted ++ [p]) = completionsOf r posted ++ completionsOf r [p] :=
  List.filterMap_append

theorem completionsOf_self (r : RingAddr) (index : Nat) (etrb : Trb) :
    completionsOf r [.completion r index etrb] = [(index, etrb)] := by
  simp [completionsOf]

theorem completionsOf_other {r r' : RingAddr} (hne : r ≠ r') (index : Nat) (etrb : Trb) :
    completionsOf r [.completion r' index etrb] = [] := by
  simp [completionsOf, Ne.symm hne]

theorem completionsOf_notice (r : RingAddr) (etrb : Trb) :
    completionsOf r [.notice etrb] = [] := rfl

theorem completed_self (r : RingAddr) (posted : List Posted) (index : Nat) (etrb : Trb) :
    completed r (posted ++ [.completion r index etrb]) = index + 1 := by
  unfold completed
  rw [completionsOf_concat, completionsOf_self, List.getLast?_concat]

theorem completed_other {posted : List Posted} {p : Posted} (h : completionsOf r [p] = []) :
    completed r (posted ++ [p]) = completed r posted := by
  unfold completed
  rw [completionsOf_concat, h, List.append_nil]

theorem complete_eq {skip addr : Nat} (hget : (w.inflight r)[skip]? = some addr)
    (hfull : ¬ w.full) (ptrHigh status control : BitVec 32) :
    w.complete r skip ptrHigh status control =
      { w.post (.completion r (completed r w.posted + skip)
          ⟨.ofNat 32 addr, ptrHigh, status, control⟩) with
        inflight := Function.update w.inflight r ((w.inflight r).drop (skip + 1)) } := by
  unfold World.complete
  rw [hget]
  exact if_neg hfull

theorem Follows.inflight_get (h : Follows r w p) {skip addr : Nat}
    (hget : (w.inflight r)[skip]? = some addr) :
    skip < p - p / xhciRingItems - completed r w.posted ∧
      addr = r.trbAddr (completed r w.posted + skip) := by
  obtain ⟨hlt, -⟩ := List.getElem?_eq_some_iff.mp hget
  rw [h.inflight, List.length_map, List.length_range'] at hlt
  rw [h.inflight, List.getElem?_map, List.getElem?_range' hlt] at hget
  exact ⟨hlt, by simpa using hget.symm⟩

theorem Follows.complete (h : Follows r w p) {skip addr : Nat}
    (hget : (w.inflight r)[skip]? = some addr) (hfull : ¬ w.full)
    (ptrHigh status control : BitVec 32) :
    Follows r (w.complete r skip ptrHigh status control) p := by
  obtain ⟨hlt, -⟩ := h.inflight_get hget
  have hroom := h.room
  rw [complete_eq hget hfull]
  have hcompleted := completed_self r w.posted (completed r w.posted + skip)
    ⟨.ofNat 32 addr, ptrHigh, status, control⟩
  refine ⟨h.le, h.deq, h.ccs, h.consumed, ?_, ?_, ?_⟩
  · refine hcompleted.le.trans ?_
    omega
  · refine (Function.update_self ..).trans ?_
    rw [h.inflight, ← List.map_drop, List.drop_range']
    refine congrArg (List.map r.trbAddr) ?_
    refine congrArg₂ (List.range' · · 1) ?_ ?_
    · rw [Nat.mul_one]
      exact hcompleted.symm
    · refine Eq.trans ?_ (congrArg (p - p / xhciRingItems - ·) hcompleted.symm)
      omega
  · refine Nat.lt_of_lt_of_le hroom ?_
    refine Nat.add_le_add_right (le_trans ?_ hcompleted.ge) 15
    omega

theorem RingInv.complete (h : RingInv w r) (r' : RingAddr) (skip : Nat)
    (ptrHigh status control : BitVec 32) :
    RingInv (w.complete r' skip ptrHigh status control) r := by
  obtain ⟨hring, p, hfollows⟩ := h
  cases hget : (w.inflight r')[skip]? with
  | none =>
    unfold World.complete
    rw [hget]
    exact ⟨hring, p, hfollows⟩
  | some addr =>
    by_cases hfull : w.full
    · unfold World.complete
      rw [hget]
      dsimp only
      rw [if_pos hfull]
      exact ⟨hring, p, hfollows⟩
    · by_cases heq : r = r'
      · subst heq
        have hcomplete := hfollows.complete hget hfull ptrHigh status control
        rw [complete_eq hget hfull] at hcomplete ⊢
        exact ⟨hring, p, hcomplete⟩
      · rw [complete_eq hget hfull]
        exact ⟨hring, p, hfollows.congr rfl rfl rfl rfl (Function.update_of_ne heq ..)
          (completed_other (completionsOf_other heq _ _))⟩

theorem RingInv.notice (h : RingInv w r) (etrb : Trb) :
    RingInv ((Event.notice etrb).step w) r := by
  obtain ⟨hring, p, hfollows⟩ := h
  unfold Event.step
  dsimp only
  split
  · exact ⟨hring, p, hfollows⟩
  · exact ⟨hring, p, hfollows.congr rfl rfl rfl rfl rfl
      (completed_other (completionsOf_notice r etrb))⟩

/-- Reading events changes nothing of the requests. -/
def SameRequests (s s' : Driver) : Prop :=
  ∀ addr, (s'.rings addr).ring = (s.rings addr).ring ∧
    (s'.rings addr).nidx = (s.rings addr).nidx ∧ (s'.rings addr).cs = (s.rings addr).cs

theorem RingInv.driver (h : RingInv w r) {s : Driver} (hsame : SameRequests w.driver s) :
    RingInv { w with driver := s } r := by
  obtain ⟨hring, p, hfollows⟩ := h
  obtain ⟨hslots, hnidx, hcs⟩ := hsame r.addr
  exact ⟨hring.congr hslots hnidx hcs, p, hfollows.congr rfl rfl rfl rfl rfl rfl⟩

-- ---------------------------------------------------------------------------
-- The event ring
-- ---------------------------------------------------------------------------

def eventEntry (posted : List Posted) (p : Nat) : Trb :=
  withCycle ((posted[p]?.map Posted.etrb).getD default) (phase xhciRingItems p)

def Posted.WellFormed : Posted → Prop
  | completion r index etrb =>
    etrb.control &&& trbC = 0 ∧ etrb.ptrLow = .ofNat 32 (r.trbAddr index) ∧
      (trbType etrb.control = erTransfer ∨ trbType etrb.control = erCommandComplete)
  | notice etrb =>
    etrb.control &&& trbC = 0 ∧
      ¬ (trbType etrb.control = erTransfer ∨ trbType etrb.control = erCommandComplete)

theorem Posted.WellFormed.unset {p : Posted} (h : p.WellFormed) : p.etrb.control &&& trbC = 0 := by
  cases p with
  | completion r index etrb => exact h.1
  | notice etrb => exact h.1

/-- What a ring knows of the last completion on it. -/
def Seen (ring : XhciRing) : Option (Nat × Trb) → Prop
  | none => ring.eidx = 0
  | some (index, etrb) => ring.eidx = index % 15 + 1 ∧ ring.evt.status = etrb.status

/-- Both sides of the event ring: the driver is behind the controller. -/
structure EventsInv (s : Driver) (enq : Nat) (pcs : Bool) (posted : List Posted) : Prop where
  wellFormed : ∀ p ∈ posted, p.WellFormed
  slots : Written xhciRingItems Trb.cycle (eventEntry posted) s.evts.ring posted.length
  enq : enq = posted.length % xhciRingItems
  pcs : pcs = phase xhciRingItems posted.length
  nidx : s.evts.nidx = s.log.length % xhciRingItems
  cs : s.evts.cs = phase xhciRingItems s.log.length
  erdp : s.erdp = s.log.length % xhciRingItems
  le : s.log.length ≤ posted.length
  room : posted.length < s.log.length + xhciRingItems
  log : s.log.map withoutCycle = (posted.take s.log.length).map Posted.etrb
  seen : ∀ r : RingAddr, Seen (s.rings r.addr)
    (completionsOf r (posted.take s.log.length)).getLast?

theorem eventEntry_append (hp : p < posted.length) (more : List Posted) :
    eventEntry (posted ++ more) p = eventEntry posted p := by
  unfold eventEntry
  rw [List.getElem?_append_left hp]

theorem eventEntry_get {event : Posted} (hget : posted[p]? = some event) :
    eventEntry posted p = withCycle event.etrb (phase xhciRingItems p) := by
  unfold eventEntry
  rw [hget]
  rfl

theorem EventsInv.post (h : EventsInv w.driver w.enq w.pcs w.posted) (hfull : ¬ w.full)
    {event : Posted} (hevent : event.WellFormed) :
    EventsInv (w.post event).driver (w.post event).enq (w.post event).pcs
      (w.post event).posted := by
  have hlength : (w.posted ++ [event]).length = w.posted.length + 1 := List.length_append
  have hget : (w.posted ++ [event])[w.posted.length]? = some event := List.getElem?_concat_length
  have htake : (w.posted ++ [event]).take w.driver.log.length = w.posted.take w.driver.log.length :=
    List.take_append_of_le_length h.le
  have hnext : (if w.enq + 1 = xhciRingItems then 0 else w.enq + 1) =
      (w.posted.length + 1) % xhciRingItems := by
    rw [h.enq, mod_succ (by decide)]
  have hle := h.le
  have hroom := h.room
  refine ⟨List.forall_mem_append.mpr ⟨h.wellFormed, List.forall_mem_singleton.mpr hevent⟩,
    ?_, ?_, ?_, h.nidx, h.cs, h.erdp, ?_, ?_, ?_, ?_⟩
  · have hslots := h.slots.congr fun p hp => eventEntry_append hp [event]
    have hentry := eventEntry_get hget
    refine hlength ▸ hslots.push ?_ ?_ fun i _ hne => ?_
    · rw [hentry, cycle_withCycle hevent.unset]
    · rw [hentry, ← h.pcs, ← h.enq]
      exact Function.update_self ..
    · exact Function.update_of_ne (h.enq ▸ hne) ..
  · exact hnext.trans (congrArg (· % xhciRingItems) hlength.symm)
  · refine Eq.trans ?_ (congrArg (phase xhciRingItems) hlength.symm)
    rw [phase_succ (by decide), ← h.enq, ← h.pcs]
    rfl
  · exact Nat.le_trans hle (hlength ▸ Nat.le_succ _)
  · have hne : (w.posted.length + 1) % xhciRingItems ≠ w.driver.log.length % xhciRingItems := by
      rw [← hnext, ← h.erdp]
      exact hfull
    refine Nat.lt_of_le_of_ne (hlength ▸ hroom) fun heq => hne ?_
    have heq : w.posted.length + 1 = w.driver.log.length + xhciRingItems := hlength.symm.trans heq
    rw [heq, Nat.add_mod_right]
  · exact h.log.trans (congrArg (List.map Posted.etrb) htake.symm)
  · intro r
    have hseen := h.seen r
    rw [← htake] at hseen
    exact hseen

theorem EventsInv.read_iff (h : EventsInv s enq pcs posted) :
    (s.evts.ring s.evts.nidx).control &&& trbC = cycleBit s.evts.cs ↔
      s.log.length < posted.length := by
  rw [matches_iff, h.nidx, h.cs]
  exact h.slots.flag_iff (by decide) h.le (Nat.le_of_lt h.room)

theorem EventsInv.none_iff (h : EventsInv s enq pcs posted) :
    processEvent s = none ↔ s.log.length = posted.length := by
  have hread := h.read_iff
  unfold processEvent
  dsimp only
  by_cases hlt : s.log.length < posted.length
  · rw [if_neg (not_not.mpr (hread.mpr hlt))]
    exact iff_of_false nofun (Nat.ne_of_lt hlt)
  · rw [if_pos (mt hread.mp hlt)]
    exact iff_of_true rfl (Nat.le_antisymm h.le (Nat.le_of_not_lt hlt))

/-- The ring that a turn of the loop writes the event to. -/
def noteEvent (s : Driver) (etrb : Trb) : Nat → XhciRing :=
  if trbType etrb.control = erTransfer ∨ trbType etrb.control = erCommandComplete then
    let ring := alignDown etrb.ptrLow.toNat xhciRingSize
    Function.update s.rings ring { s.rings ring with
      evt := etrb, eidx := (etrb.ptrLow.toNat - ring) / sizeofTrb + 1 }
  else s.rings

theorem RingAddr.trbAddr_eq (r : RingAddr) (index : Nat) :
    (BitVec.ofNat 32 (r.trbAddr index)).toNat = r.trbAddr index ∧
      alignDown (r.trbAddr index) xhciRingSize = r.addr ∧
      (r.trbAddr index - r.addr) / sizeofTrb = index % 15 := by
  obtain ⟨c, hc⟩ := r.aligned
  have hbound := r.bound
  have hlt := Nat.mod_lt index (show 0 < 15 by decide)
  unfold RingAddr.trbAddr alignDown xhciRingSize xhciRingItems sizeofTrb at *
  rw [BitVec.toNat_ofNat]
  omega

theorem noteEvent_completion (s : Driver) {r : RingAddr} {index : Nat} {etrb : Trb}
    (h : (Posted.completion r index etrb).WellFormed) (cs : Bool) :
    noteEvent s (withCycle etrb cs) = Function.update s.rings r.addr
      { s.rings r.addr with evt := withCycle etrb cs, eidx := index % 15 + 1 } := by
  obtain ⟨-, hptr, htype⟩ := h
  obtain ⟨hnat, hring, hindex⟩ := r.trbAddr_eq index
  have hptr : (withCycle etrb cs).ptrLow.toNat = r.trbAddr index := by
    rw [← hnat, ← hptr]
    rfl
  unfold noteEvent
  rw [trbType_withCycle, if_pos htype, hptr]
  dsimp only
  rw [hring, hindex]

theorem noteEvent_notice (s : Driver) {etrb : Trb} (h : (Posted.notice etrb).WellFormed)
    (cs : Bool) : noteEvent s (withCycle etrb cs) = s.rings := by
  unfold noteEvent
  rw [trbType_withCycle, if_neg h.2]

theorem noteEvent_same (s : Driver) (etrb : Trb) (addr : Nat) :
    (noteEvent s etrb addr).ring = (s.rings addr).ring ∧
      (noteEvent s etrb addr).nidx = (s.rings addr).nidx ∧
      (noteEvent s etrb addr).cs = (s.rings addr).cs := by
  unfold noteEvent
  split
  · by_cases heq : addr = alignDown etrb.ptrLow.toNat xhciRingSize
    · subst heq
      dsimp only
      rw [Function.update_self]
      exact ⟨rfl, rfl, rfl⟩
    · dsimp only
      rw [Function.update_of_ne heq]
      exact ⟨rfl, rfl, rfl⟩
  · exact ⟨rfl, rfl, rfl⟩

theorem seen_noteEvent {event : Posted} (hevent : event.WellFormed) (r : RingAddr) (cs : Bool)
    (h : Seen (s.rings r.addr) (completionsOf r posted).getLast?) :
    Seen (noteEvent s (withCycle event.etrb cs) r.addr)
      (completionsOf r (posted ++ [event])).getLast? := by
  cases event with
  | completion r' index etrb =>
    rw [completionsOf_concat, Posted.etrb, noteEvent_completion s hevent]
    by_cases heq : r = r'
    · subst heq
      rw [completionsOf_self, List.getLast?_concat, Function.update_self]
      exact ⟨rfl, rfl⟩
    · rw [completionsOf_other heq, List.append_nil, Function.update_of_ne (addr_ne heq)]
      exact h
  | notice etrb =>
    rw [completionsOf_concat, completionsOf_notice, List.append_nil, Posted.etrb,
      noteEvent_notice s hevent]
    exact h

theorem EventsInv.process (h : EventsInv s enq pcs posted) (hlt : s.log.length < posted.length) :
    ∃ s', processEvent s = some s' ∧ EventsInv s' enq pcs posted ∧ SameRequests s s' ∧
      s'.log.length = s.log.length + 1 := by
  obtain ⟨event, hget⟩ : ∃ event, posted[s.log.length]? = some event :=
    ⟨_, List.getElem?_eq_getElem hlt⟩
  have hevent := h.wellFormed event (List.mem_of_getElem? hget)
  have hetrb : s.evts.ring s.evts.nidx = withCycle event.etrb s.evts.cs := by
    rw [h.nidx, h.slots.last _ hlt (Nat.le_of_lt h.room), eventEntry_get hget, h.cs]
  have hprocess : processEvent s = some
      { rings := noteEvent s (withCycle event.etrb s.evts.cs)
        evts := if s.evts.nidx + 1 = xhciRingItems then
          { s.evts with nidx := 0, cs := !s.evts.cs } else { s.evts with nidx := s.evts.nidx + 1 }
        erdp := (if s.evts.nidx + 1 = xhciRingItems then
          { s.evts with nidx := 0, cs := !s.evts.cs }
          else { s.evts with nidx := s.evts.nidx + 1 }).nidx
        log := s.log ++ [withCycle event.etrb s.evts.cs] } := by
    unfold processEvent
    dsimp only
    rw [if_neg (not_not.mpr (h.read_iff.mpr hlt)), hetrb]
    rfl
  have hlength : (s.log ++ [withCycle event.etrb s.evts.cs]).length = s.log.length + 1 :=
    List.length_append
  have htake : posted.take (s.log.length + 1) = posted.take s.log.length ++ [event] := by
    rw [List.take_add_one, hget]
    rfl
  have hevts : (if s.evts.nidx + 1 = xhciRingItems then
      { s.evts with nidx := 0, cs := !s.evts.cs } else { s.evts with nidx := s.evts.nidx + 1 }) =
        { s.evts with
          nidx := (s.log.length + 1) % xhciRingItems
          cs := phase xhciRingItems (s.log.length + 1) } := by
    rw [mod_succ (by decide), phase_succ (by decide), ← h.nidx, ← h.cs]
    split <;> rfl
  rw [hevts] at hprocess
  refine ⟨_, hprocess, ⟨h.wellFormed, h.slots, h.enq, h.pcs, ?_, ?_, ?_, ?_, ?_, ?_, ?_⟩,
    noteEvent_same s _, hlength⟩
  · rw [hlength]
  · rw [hlength]
  · rw [hlength]
  · exact hlength.le.trans hlt
  · refine Nat.lt_of_lt_of_le h.room ?_
    rw [hlength]
    omega
  · dsimp only
    rw [hlength, htake, List.map_append, List.map_append, h.log, List.map_singleton,
      withoutCycle_withCycle hevent.unset]
    rfl
  · intro r
    dsimp only
    rw [hlength, htake]
    exact seen_noteEvent hevent r s.evts.cs (h.seen r)

theorem EventsInv.processAll (h : EventsInv s enq pcs posted) (fuel : Nat)
    (hfuel : posted.length < s.log.length + fuel) :
    ∃ s', xhciProcessEvents fuel s = some s' ∧ EventsInv s' enq pcs posted ∧
      SameRequests s s' ∧ s'.log.length = posted.length := by
  induction fuel generalizing s with
  | zero => exact absurd hfuel (Nat.not_lt.mpr h.le)
  | succ fuel ih =>
    rw [xhciProcessEvents]
    by_cases hlt : s.log.length < posted.length
    · obtain ⟨s₁, hprocess, hinv, hsame, hlength⟩ := h.process hlt
      obtain ⟨s', hall, hinv', hsame', hlength'⟩ := ih hinv (by omega)
      rw [hprocess]
      refine ⟨s', hall, hinv', fun addr => ?_, hlength'⟩
      obtain ⟨hring, hnidx, hcs⟩ := hsame addr
      obtain ⟨hring', hnidx', hcs'⟩ := hsame' addr
      exact ⟨hring'.trans hring, hnidx'.trans hnidx, hcs'.trans hcs⟩
    · have heq := Nat.le_antisymm h.le (Nat.le_of_not_lt hlt)
      rw [h.none_iff.mpr heq]
      exact ⟨s, rfl, h, fun _ => ⟨rfl, rfl, rfl⟩, heq⟩

end

end ItxLlama.Seabios.Xhci
