import ItxLlama.Seabios.XhciSteps

/-!
# Runs of XHCI's rings

Over all runs the controller consumes what was queued and the driver reads what
was posted, each once and in order, and waiting returns the code of the last TRB
queued.
-/

namespace ItxLlama.Seabios.Xhci

open Lib.Word Lib.CycleRing

structure Inv (w : World) : Prop where
  rings : ∀ r, RingInv w r
  events : EventsInv w.driver w.enq w.pcs w.posted

theorem start_inv : Inv start where
  rings r := by
    refine ⟨requests_empty r, 0, Nat.zero_le _, ?_, rfl, rfl, Nat.le_refl 0, rfl,
      Nat.zero_lt_succ 14⟩
    exact (Nat.add_zero r.addr).symm
  events := by
    refine ⟨nofun, (written_zero fun _ _ => (unset_iff ⟨0, 0, 0, 0⟩).mp rfl), rfl, rfl, rfl, rfl,
      rfl, Nat.le_refl 0, by decide, rfl, fun _ => rfl⟩

section

variable {w : World}

theorem Seen.congr {ring ring' : XhciRing} {last : Option (Nat × Trb)} (h : Seen ring last)
    (heidx : ring'.eidx = ring.eidx) (hevt : ring'.evt = ring.evt) : Seen ring' last := by
  cases last with
  | none => exact heidx.trans h
  | some last => exact ⟨heidx.trans h.1, hevt ▸ h.2⟩

theorem xhciTrbQueue_kept (addr : Nat) (ring : XhciRing) (trb : Trb) :
    (xhciTrbQueue addr ring trb).eidx = ring.eidx ∧
      (xhciTrbQueue addr ring trb).evt = ring.evt := by
  rw [xhciTrbQueue_eq]
  split <;> exact ⟨rfl, rfl⟩

theorem Inv.queue (h : Inv w) {r : RingAddr} {trb : Trb}
    (hallowed : (Event.queue r trb).Allowed w) : Inv ((Event.queue r trb).step w) where
  rings r' := (h.rings r').queue hallowed
  events := by
    refine { h.events with seen := fun r' => ?_ }
    have hseen := h.events.seen r'
    by_cases heq : r' = r
    · subst heq
      have hring : ((Event.queue r' trb).step w).driver.rings r'.addr =
          xhciTrbQueue r'.addr (w.driver.rings r'.addr) trb := Function.update_self ..
      obtain ⟨heidx, hevt⟩ := xhciTrbQueue_kept r'.addr (w.driver.rings r'.addr) trb
      rw [hring]
      exact hseen.congr heidx hevt
    · have hring : ((Event.queue r trb).step w).driver.rings r'.addr = w.driver.rings r'.addr :=
        Function.update_of_ne (addr_ne heq) ..
      rw [hring]
      exact hseen

theorem Inv.driver (h : Inv w) {s : Driver} (hsame : SameRequests w.driver s)
    (hevents : EventsInv s w.enq w.pcs w.posted) : Inv { w with driver := s } :=
  ⟨fun r => (h.rings r).driver hsame, hevents⟩

theorem Inv.process (h : Inv w) : Inv (Event.process.step w) := by
  unfold Event.step
  dsimp only
  rcases Nat.lt_or_eq_of_le h.events.le with hlt | heq
  · obtain ⟨s, hprocess, hevents, hsame, -⟩ := h.events.process hlt
    rw [hprocess]
    exact h.driver hsame hevents
  · rw [h.events.none_iff.mpr heq]
    exact h

theorem Inv.round (h : Inv w) (r : RingAddr) :
    ∃ s, eventWaitRound xhciRingItems r.addr w.driver =
        some (if xhciRingBusy (s.rings r.addr) then none
          else some (completionCode (s.rings r.addr).evt), s) ∧
      Inv { w with driver := s } ∧ s.log.length = w.posted.length := by
  obtain ⟨s, hall, hevents, hsame, hlength⟩ := h.events.processAll xhciRingItems h.events.room
  refine ⟨s, ?_, h.driver hsame hevents, hlength⟩
  unfold eventWaitRound
  rw [hall]
  rfl

theorem Inv.wait (h : Inv w) (r : RingAddr) : Inv ((Event.wait r).step w) := by
  obtain ⟨s, hround, hinv, -⟩ := h.round r
  unfold Event.step
  dsimp only
  rw [hround]
  exact hinv

theorem Inv.consume (h : Inv w) (r : RingAddr) : Inv ((Event.consume r).step w) where
  rings r' := (h.rings r').consume r
  events := by
    obtain ⟨hdriver, -, hposted, henq, hpcs⟩ := consume_driver w r
    have hevents := h.events
    rw [← hdriver, ← hposted, ← henq, ← hpcs] at hevents
    exact hevents

theorem Inv.complete (h : Inv w) {r : RingAddr} {skip : Nat} {ptrHigh status control : BitVec 32}
    (hallowed : (Event.complete r skip ptrHigh status control).Allowed w) :
    Inv ((Event.complete r skip ptrHigh status control).step w) where
  rings r' := (h.rings r').complete r skip ptrHigh status control
  events := by
    obtain ⟨hunset, htype⟩ := hallowed
    change EventsInv (w.complete r skip ptrHigh status control).driver
      (w.complete r skip ptrHigh status control).enq
      (w.complete r skip ptrHigh status control).pcs
      (w.complete r skip ptrHigh status control).posted
    cases hget : (w.inflight r)[skip]? with
    | none =>
      unfold World.complete
      rw [hget]
      exact h.events
    | some addr =>
      by_cases hfull : w.full
      · unfold World.complete
        rw [hget]
        dsimp only
        rw [if_pos hfull]
        exact h.events
      · obtain ⟨-, p, hfollows⟩ := h.rings r
        obtain ⟨-, haddr⟩ := hfollows.inflight_get hget
        rw [complete_eq hget hfull]
        exact h.events.post hfull ⟨hunset, haddr ▸ rfl, htype⟩

theorem Inv.notice (h : Inv w) {etrb : Trb} (hallowed : (Event.notice etrb).Allowed w) :
    Inv ((Event.notice etrb).step w) where
  rings r := (h.rings r).notice etrb
  events := by
    obtain ⟨hunset, htransfer, hcommand⟩ := hallowed
    unfold Event.step
    dsimp only
    by_cases hfull : w.full
    · rw [if_pos hfull]
      exact h.events
    · rw [if_neg hfull]
      exact h.events.post hfull ⟨hunset, not_or.mpr ⟨htransfer, hcommand⟩⟩

theorem Reachable.inv (h : Reachable w) : Inv w := by
  induction h with
  | start => exact start_inv
  | next h e hallowed ih =>
    cases e with
    | queue r trb => exact ih.queue hallowed
    | process => exact ih.process
    | wait r => exact ih.wait r
    | consume r => exact ih.consume r
    | complete r skip ptrHigh status control => exact ih.complete hallowed
    | notice etrb => exact ih.notice hallowed

-- ---------------------------------------------------------------------------
-- What holds in every state
-- ---------------------------------------------------------------------------

/-- The last TRB queued on a ring is done with this event. -/
def LastCompleted (w : World) (r : RingAddr) (etrb : Trb) : Prop :=
  (completionsOf r w.posted).getLast? = some ((w.queued r).length - 1, etrb)

/-- The controller consumes the TRBs queued, the driver reads the events posted,
each once and in order, and stops only when there are no more. Waiting ends its
round, with a completion code if and only if the last TRB queued is done, and then
with that TRB's. -/
structure Matched (w : World) (r : RingAddr) : Prop where
  consumed : w.consumed r <+: w.queued r
  consumedAll : w.fetch r = none → w.consumed r = w.queued r
  read : w.driver.log.map withoutCycle <+: w.posted.map Posted.etrb
  readAll : processEvent w.driver = none →
    w.driver.log.map withoutCycle = w.posted.map Posted.etrb
  round : ∃ code s, eventWaitRound xhciRingItems r.addr w.driver = some (code, s)
  code : w.queued r ≠ [] → ∀ code,
    (∃ s, eventWaitRound xhciRingItems r.addr w.driver = some (some code, s)) ↔
      ∃ etrb, LastCompleted w r etrb ∧ code = completionCode etrb

theorem Inv.consumed_prefix (h : Inv w) (r : RingAddr) : w.consumed r <+: w.queued r := by
  obtain ⟨-, p, hfollows⟩ := h.rings r
  rw [hfollows.consumed]
  exact List.take_prefix _ _

theorem Inv.consumed_all (h : Inv w) {r : RingAddr} (hfetch : w.fetch r = none) :
    w.consumed r = w.queued r := by
  obtain ⟨hring, p, hfollows⟩ := h.rings r
  have hend : ¬ p < written (w.queued r).length := by
    intro hlt
    rw [hfollows.fetch hring, if_pos hlt] at hfetch
    exact Option.some_ne_none _ hfetch
  have heq : p = written (w.queued r).length :=
    Nat.le_antisymm hfollows.le (Nat.le_of_not_lt hend)
  rw [hfollows.consumed, List.take_of_length_le]
  rw [heq]
  unfold written xhciRingItems
  omega

theorem written_mod (hpos : 0 < n) : written n % xhciRingItems = (n - 1) % 15 + 1 := by
  unfold written xhciRingItems
  omega

/-- A ring is busy until the last TRB queued is done. -/
theorem Inv.busy_iff (h : Inv w) {r : RingAddr} (hread : w.driver.log.length = w.posted.length)
    (hqueued : w.queued r ≠ []) :
    xhciRingBusy (w.driver.rings r.addr) = false ↔ ∃ etrb, LastCompleted w r etrb := by
  obtain ⟨hring, p, hfollows⟩ := h.rings r
  have hseen := h.events.seen r
  have hpos := List.length_pos_iff.mpr hqueued
  have hnidx := hring.all.nidx
  have hroom := hfollows.room
  have hle := hfollows.completed_le
  have hle' := hfollows.le
  rw [hread, List.take_length] at hseen
  unfold LastCompleted xhciRingBusy
  unfold completed at hroom hle
  cases hlast : (completionsOf r w.posted).getLast? with
  | none =>
    rw [hlast] at hseen hroom
    have hne : (w.driver.rings r.addr).eidx ≠ (w.driver.rings r.addr).nidx := by
      rw [hnidx, written_mod hpos, show (w.driver.rings r.addr).eidx = 0 from hseen]
      exact (Nat.succ_ne_zero _).symm
    exact iff_of_false (by simpa using hne) nofun
  | some last =>
    obtain ⟨index, etrb⟩ := last
    rw [hlast] at hseen hroom hle
    have hlt : index < (w.queued r).length := by
      dsimp only at hle
      unfold written xhciRingItems at *
      omega
    have hiff : (w.driver.rings r.addr).eidx = (w.driver.rings r.addr).nidx ↔
        index = (w.queued r).length - 1 := by
      rw [hnidx, hseen.1, written_mod hpos]
      dsimp only at hroom
      omega
    simp [hiff]

theorem Inv.last_code (h : Inv w) {r : RingAddr} {etrb : Trb}
    (hread : w.driver.log.length = w.posted.length) (hlast : LastCompleted w r etrb) :
    completionCode (w.driver.rings r.addr).evt = completionCode etrb := by
  have hseen := h.events.seen r
  rw [hread, List.take_length, hlast] at hseen
  unfold completionCode
  rw [hseen.2]

theorem matched (h : Reachable w) (r : RingAddr) : Matched w r := by
  have hinv := h.inv
  obtain ⟨s, hround, hinv', hread⟩ := hinv.round r
  refine ⟨hinv.consumed_prefix r, hinv.consumed_all, ?_, fun hnone => ?_, ⟨_, _, hround⟩,
    fun hqueued code => ?_⟩
  · rw [hinv.events.log, List.map_take]
    exact List.take_prefix _ _
  · rw [hinv.events.log, hinv.events.none_iff.mp hnone, List.take_length]
  · have hbusy := hinv'.busy_iff hread hqueued
    constructor
    · rintro ⟨s', hcode⟩
      rw [hround] at hcode
      cases hb : xhciRingBusy (s.rings r.addr) with
      | true => simp [hb] at hcode
      | false =>
        obtain ⟨etrb, hlast⟩ := hbusy.mp hb
        have hcode : completionCode (s.rings r.addr).evt = code := by
          simpa [hb] using congrArg (Option.map Prod.fst) hcode
        exact ⟨etrb, hlast, hcode.symm.trans (hinv'.last_code hread hlast)⟩
    · rintro ⟨etrb, hlast, rfl⟩
      have hb := hbusy.mpr ⟨etrb, hlast⟩
      refine ⟨s, hround.trans ?_⟩
      rw [hb, if_neg Bool.false_ne_true, hinv'.last_code hread hlast]

end

instance (w : World) : (e : Event) → Decidable (e.Allowed w)
  | .queue _ _ => inferInstanceAs (Decidable (_ ∧ _ ∧ _))
  | .process => inferInstanceAs (Decidable True)
  | .wait _ => inferInstanceAs (Decidable True)
  | .consume _ => inferInstanceAs (Decidable True)
  | .complete _ _ _ _ _ => inferInstanceAs (Decidable (_ ∧ (_ ∨ _)))
  | .notice _ => inferInstanceAs (Decidable (_ ∧ _ ∧ _))

/-- A run whose events are all allowed. -/
def runAllowed (w : World) : List Event → Option World
  | [] => some w
  | e :: es => if e.Allowed w then runAllowed (e.step w) es else none

theorem Reachable.run (h : Reachable w) (hrun : runAllowed w es = some t) : Reachable t := by
  induction es generalizing w with
  | nil => exact Option.some.inj hrun ▸ h
  | cons e es ih =>
    rw [runAllowed] at hrun
    split at hrun
    case isTrue hallowed => exact ih (h.next e hallowed) hrun
    case isFalse => cases hrun

def cmds : RingAddr := ⟨0x1000, by decide, by decide⟩

def enableSlot : Trb := ⟨0, 0, 0, 0x2400⟩

def command : List Event :=
  [.queue cmds enableSlot, .consume cmds, .complete cmds 0 0 0x01000000 0x8400, .wait cmds]

/-- Fifteen commands, one that nobody waits for any more when it is completed with the next, and
so a lap of both rings. -/
def lap : List Event :=
  (List.replicate 15 command).flatten ++
    [.queue cmds enableSlot, .consume cmds, .consume cmds, .wait cmds,
      .queue cmds enableSlot, .consume cmds, .complete cmds 1 0 0x01000000 0x8400, .wait cmds]

theorem matched_lap : ∃ w, runAllowed start lap = some w ∧
    (w.driver.rings cmds.addr).cs = false ∧ w.driver.evts.cs = false ∧
    w.posted.length < (w.queued cmds).length ∧ Matched w cmds := by
  have hrun : (runAllowed start lap).map (fun w => ((w.driver.rings cmds.addr).cs,
      w.driver.evts.cs, w.posted.length, (w.queued cmds).length)) =
        some (false, false, 16, 17) := by
    decide +kernel
  obtain ⟨w, hw, hlap⟩ := Option.map_eq_some_iff.mp hrun
  simp only [Prod.mk.injEq] at hlap
  obtain ⟨hcs, hevts, hposted, hqueued⟩ := hlap
  refine ⟨w, hw, hcs, hevts, ?_, matched (Reachable.start.run hw) cmds⟩
  rw [hposted, hqueued]
  decide

/-- The driver gets the code of success. -/
example : ((runAllowed start (command.take 3)).bind fun w =>
    (eventWaitRound xhciRingItems cmds.addr w.driver).map Prod.fst) = some (some 1) := by
  decide

end ItxLlama.Seabios.Xhci
