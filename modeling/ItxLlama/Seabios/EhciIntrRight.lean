import ItxLlama.Seabios.EhciIntrLaws
import Mathlib.Data.List.Forall2

/-!
# The runs of EHCI's ring of reports

Whatever the transfers and the polls are, the ring is a queue, if and only if no
buffer crosses a page.
-/

namespace ItxLlama.Seabios.EhciIntr

open Lib.Word Lib.Ring Lib.Table Lib.FlaggedRing
open Ehci

section

variable {pipe : EhciPipe} {s : State} {head tail : Nat} {q : List (List Byte)}

theorem slot_length (pipe : EhciPipe) (mem : Nat → Byte) (i : Nat) :
    (pipe.slot mem i).length = pipe.maxpacket := by
  unfold EhciPipe.slot
  rw [List.length_map, List.length_range]

theorem Rep.step (h : Rep pipe s head tail q) (hp : pipe.Allocated) (e : Event pipe.maxpacket)
    (hpages : e.InPages pipe) :
    Delivers pipe.maxpacket (e.step pipe s).2 (e.call.step pipe.count q).2 ∧
      ∃ head' tail', Rep pipe (e.step pipe s).1 head' tail' (e.call.step pipe.count q).1 := by
  cases e with
  | complete report hlen status =>
    unfold Event.step Event.call Call.step
    dsimp only
    by_cases hroom : q.length < pipe.count
    · rw [if_neg (h.armed_iff.mpr hroom), if_pos hroom]
      exact ⟨.stored, _, _, h.complete hp hroom hlen (hpages tail h.ring.tail_lt) status⟩
    · rw [if_pos (not_not.mp (mt h.armed_iff.mp hroom)), if_neg hroom]
      exact ⟨.refused, _, _, h⟩
  | poll =>
    unfold Event.step Event.call Call.step
    cases q with
    | nil =>
      rw [h.poll_nil]
      exact ⟨.nothing, _, _, h⟩
    | cons report q =>
      rw [h.poll_cons hp]
      exact ⟨.taken (slot_length pipe s.mem head) h.ring.head_slot.2.2, _, _, h.reenable hp⟩

theorem Rep.run (h : Rep pipe s head tail q) (hp : pipe.Allocated)
    (es : List (Event pipe.maxpacket)) (hpages : ∀ e ∈ es, e.InPages pipe) :
    List.Forall₂ (Delivers pipe.maxpacket) (run pipe s es).2
        (runCalls pipe.count q (es.map Event.call)).2 ∧
      ∃ head' tail', Rep pipe (run pipe s es).1 head' tail'
        (runCalls pipe.count q (es.map Event.call)).1 := by
  induction es generalizing s head tail q with
  | nil => exact ⟨.nil, _, _, h⟩
  | cons e es ih =>
    obtain ⟨he, hes⟩ := List.forall_mem_cons.mp hpages
    obtain ⟨hanswer, _, _, hstep⟩ := h.step hp e he
    obtain ⟨hanswers, hrun⟩ := ih hstep hes
    exact ⟨.cons hanswer hanswers, hrun⟩

-- ---------------------------------------------------------------------------
-- What is written
-- ---------------------------------------------------------------------------

theorem Rep.step_inside (h : Rep pipe s head tail q) (e : Event pipe.maxpacket)
    (hpages : e.InPages pipe)
    (ha : a < pipe.data ∨ pipe.data + pipe.maxpacket * pipe.count ≤ a) :
    (e.step pipe s).1.mem a = s.mem a := by
  cases e with
  | complete report hlen status =>
    unfold Event.step
    dsimp only
    by_cases hroom : q.length < pipe.count
    · rw [if_neg (h.armed_iff.mpr hroom)]
      have hlinked := (h.ring.tail_slot hroom).1
      have hle := pipe.buffer_le h.ring.tail_lt
      rw [← h.qhQtdNext] at hlinked
      refine storeReport_outside pipe hlinked (hpages tail h.ring.tail_lt) ?_ s.mem
      unfold EhciPipe.buffer at *
      omega
    · rw [if_pos (not_not.mp (mt h.armed_iff.mp hroom))]
  | poll =>
    unfold Event.step ehciPollIntr
    dsimp only
    split <;> rename_i heq <;> split at heq <;> cases heq <;> rfl

theorem Rep.run_inside (h : Rep pipe s head tail q) (hp : pipe.Allocated)
    (es : List (Event pipe.maxpacket)) (hpages : ∀ e ∈ es, e.InPages pipe)
    (ha : a < pipe.data ∨ pipe.data + pipe.maxpacket * pipe.count ≤ a) :
    (EhciIntr.run pipe s es).1.mem a = s.mem a := by
  induction es generalizing s head tail q with
  | nil => rfl
  | cons e es ih =>
    obtain ⟨he, hes⟩ := List.forall_mem_cons.mp hpages
    obtain ⟨-, _, _, hstep⟩ := h.step hp e he
    exact (ih hstep hes).trans (h.step_inside e he ha)

end

-- ---------------------------------------------------------------------------
-- Setting up
-- ---------------------------------------------------------------------------

theorem tdCount_pos (frameexp : Nat) : 0 < tdCount frameexp := by
  have hticks : 0 < Clock.ticksToMs 2 := by decide
  have hms : 0 < 1 <<< (if frameexp > 10 then 10 else frameexp) := by
    rw [Nat.one_shiftLeft]
    exact Nat.two_pow_pos _
  exact Nat.div_pos (by omega) hms

section

variable {frameexp wMaxPacketSize tds data : Nat} {td : Nat → Qtd} {mem : Nat → Byte}

theorem ehciAllocIntrPipe_rep
    (h : (ehciAllocIntrPipe frameexp wMaxPacketSize tds data td mem).1.Allocated) :
    Rep (ehciAllocIntrPipe frameexp wMaxPacketSize tds data td mem).1
      (ehciAllocIntrPipe frameexp wMaxPacketSize tds data td mem).2 0 0 [] := by
  refine ⟨rfl, rfl, holds_nil (tdCount_pos frameexp) fun i hi => ?_⟩
  have hi : i < tdCount frameexp := hi
  have hat : ((ehciAllocIntrPipe frameexp wMaxPacketSize tds data td mem).2.td
      (tds + sizeofQtd * i)) =
        { qtdNext := .ofNat 32 (if i = tdCount frameexp - 1 then tds else tds + sizeofQtd * (i + 1))
          altNext := ehciPtrTerm
          token := intrToken wMaxPacketSize
          buf := [u32 (data + wMaxPacketSize * i), 0, 0, 0, 0] } := by
    refine fill_at (fun i => tds + sizeofQtd * i) hi fun j hlt _ => ?_
    unfold sizeofQtd
    omega
  have hbuffer := h.u32_buffer hi
  refine ⟨⟨?_, ?_⟩, ?_⟩
  · refine (congrArg Qtd.qtdNext hat).trans (congrArg (BitVec.ofNat 32) ?_)
    unfold EhciPipe.tdAddr next
    change (if i = tdCount frameexp - 1 then tds else tds + sizeofQtd * (i + 1)) =
      tds + sizeofQtd * (if i + 1 < tdCount frameexp then i + 1 else 0)
    by_cases hlast : i = tdCount frameexp - 1
    · rw [if_pos hlast, if_neg (by omega), Nat.mul_zero, Nat.add_zero]
    · rw [if_neg hlast, if_pos (by omega)]
  · refine (congrArg Qtd.buf hat).trans ?_
    exact congrArg (fun b => [b, 0, 0, 0, 0]) hbuffer
  · intro hidle
    have htoken := congrArg (fun td : Qtd => td.token &&& qtdStsActive) hat
    exact intrToken_active wMaxPacketSize (htoken.symm.trans hidle)

end

-- ---------------------------------------------------------------------------
-- Buffers in their pages
-- ---------------------------------------------------------------------------

theorem Event.inPages {pipe : EhciPipe} (hpages : pipe.InPages) (e : Event pipe.maxpacket) :
    e.InPages pipe := by
  cases e with
  | complete report hlen status =>
    intro i hi
    have hpage := hpages i hi
    omega
  | poll => trivial

theorem fifo_of_inPages {pipe : EhciPipe} {s : State} (h : Rep pipe s 0 0 [])
    (hp : pipe.Allocated) (hpages : pipe.InPages) (es : List (Event pipe.maxpacket)) :
    Fifo pipe s es :=
  have hevents : ∀ e ∈ es, e.InPages pipe := fun e _ => e.inPages hpages
  ⟨(h.run hp es hevents).1, fun _ ha => h.run_inside hp es hevents ha⟩

-- ---------------------------------------------------------------------------
-- A buffer that crosses a page
-- ---------------------------------------------------------------------------

section

variable {pipe : EhciPipe} {s : State}

theorem run_append (s : State) (es es' : List (Event pipe.maxpacket)) :
    run pipe s (es ++ es') =
      ((run pipe (run pipe s es).1 es').1,
        (run pipe s es).2 ++ (run pipe (run pipe s es).1 es').2) := by
  induction es generalizing s with
  | nil => rfl
  | cons e es ih => simp only [run, List.cons_append, ih]

theorem runCalls_append {α : Type} (cap : Nat) (q : List α) (cs cs' : List (Call α)) :
    runCalls cap q (cs ++ cs') =
      ((runCalls cap (runCalls cap q cs).1 cs').1,
        (runCalls cap q cs).2 ++ (runCalls cap (runCalls cap q cs).1 cs').2) := by
  induction cs generalizing q with
  | nil => rfl
  | cons c cs ih => simp only [runCalls, List.cons_append, ih]

/-- Every descriptor is reached with an empty queue: packets without any byte
take the ones in front. -/
theorem Rep.reach (h : Rep pipe s 0 0 []) (hp : pipe.Allocated) {i : Nat} (hi : i < pipe.count) :
    ∃ es, (queue pipe es).1 = [] ∧ Rep pipe (EhciIntr.run pipe s es).1 i i [] := by
  induction i with
  | zero => exact ⟨[], rfl, h⟩
  | succ i ih =>
    obtain ⟨es, hempty, hrep⟩ := ih (Nat.lt_of_succ_lt hi)
    have hpos := Nat.zero_lt_of_lt hi
    have hpage : pipe.buffer i % 0x1000 + ([] : List Byte).length ≤ 0x1000 :=
      Nat.le_of_lt (Nat.mod_lt _ (by decide))
    have hstored := hrep.complete hp hpos (Nat.zero_le _) hpage 0
    have hpolled := hstored.reenable hp
    have hnext : next pipe.count i = i + 1 := if_pos hi
    rw [hnext] at hpolled
    refine ⟨es ++ [.complete [] (Nat.zero_le _) 0, .poll], ?_, ?_⟩
    · unfold queue
      rw [List.map_append, runCalls_append]
      dsimp only
      rw [show (runCalls pipe.count [] (es.map Event.call)).1 = [] from hempty]
      simp [runCalls, Event.call, Call.step, hpos]
    · rw [run_append]
      simp only [EhciIntr.run, Event.step, if_neg (hrep.armed_iff.mpr hpos),
        hstored.poll_cons hp]
      exact hpolled

theorem storeReport_cross {td : Qtd} (htd : Linked pipe td i) (report : List Byte)
    (mem : Nat → Byte) :
    storeReport td report mem (pipe.buffer i + (0x1000 - pipe.buffer i % 0x1000)) =
      mem (pipe.buffer i + (0x1000 - pipe.buffer i % 0x1000)) := by
  refine fill_other fun k _ => ?_
  by_cases hk : pipe.buffer i % 0x1000 + k < 0x1000
  · rw [byteAddr_page pipe htd hk]
    omega
  · rw [byteAddr_cross htd (Nat.le_of_not_lt hk)]
    have hlt := Nat.mod_lt (pipe.buffer i % 0x1000 + k) (show 0 < 0x1000 by decide)
    omega

theorem answers_rest (hfifo : ∀ es, Fifo pipe s es) (es es' : List (Event pipe.maxpacket)) :
    List.Forall₂ (Delivers pipe.maxpacket) (EhciIntr.run pipe (EhciIntr.run pipe s es).1 es').2
      (runCalls pipe.count (queue pipe es).1 (es'.map Event.call)).2 := by
  have hall := (hfifo (es ++ es')).answers
  have hlength := (hfifo es).answers.length_eq
  unfold queue at *
  rw [run_append, List.map_append, runCalls_append] at hall
  have hrest := List.forall₂_drop_append _ _ _ hall
  rwa [← hlength, List.drop_left] at hrest

/-- Polling after a transfer into an empty ring, wherever the report went. -/
theorem Rep.complete_poll (h : Rep pipe s i i []) (hp : pipe.Allocated) (report : List Byte)
    (status : BitVec 32) :
    ehciPollIntr pipe (completeTd report status s) =
      (some (pipe.slot (storeReport (s.td (pipe.tdAddr i)) report s.mem) i),
        EhciIntr.reenable pipe (completeTd report status s) i) := by
  have hlinked := (h.ring.tail_slot (Nat.zero_lt_of_lt h.ring.head_lt)).1
  have htd : (completeTd report status s).td (pipe.tdAddr i) =
      { s.td (pipe.tdAddr i) with token := status &&& ~~~qtdStsActive } := by
    unfold completeTd
    dsimp only
    rw [h.qhQtdNext, Function.update_self]
  have hmem : (completeTd report status s).mem =
      storeReport (s.td (pipe.tdAddr i)) report s.mem := by
    rw [← h.qhQtdNext]
    rfl
  rw [← hmem]
  refine poll_inactive hp h.nextTd h.ring.head_lt ?_ ?_
  · rw [htd]
    exact ⟨hlinked.qtdNext, hlinked.buf⟩
  · rw [htd]
    exact completed_inactive status

theorem inPages_of_fifo (h : Rep pipe s 0 0 []) (hp : pipe.Allocated)
    (hfifo : ∀ es, Fifo pipe s es) : pipe.InPages := by
  intro i hi
  by_contra hcross
  have hoff := Nat.mod_lt (pipe.buffer i) (show 0 < 0x1000 by decide)
  obtain ⟨k, hk⟩ : ∃ k, k = 0x1000 - pipe.buffer i % 0x1000 := ⟨_, rfl⟩
  have hkmax : k < pipe.maxpacket := by omega
  obtain ⟨es, hempty, hrep⟩ := h.reach hp hi
  have hpos := Nat.zero_lt_of_lt hi
  have hlinked := (hrep.ring.tail_slot hpos).1
  -- a report with another byte behind the page than there is
  obtain ⟨b, hb⟩ : ∃ b, b ≠ (EhciIntr.run pipe s es).1.mem (pipe.buffer i + k) :=
    ⟨(EhciIntr.run pipe s es).1.mem (pipe.buffer i + k) + 1, by bv_omega⟩
  have hlen : (List.replicate pipe.maxpacket b).length ≤ pipe.maxpacket := by
    rw [List.length_replicate]
  have hrest := answers_rest hfifo es [.complete _ hlen 0, .poll]
  rw [hempty] at hrest
  simp only [EhciIntr.run, Event.step, if_neg (hrep.armed_iff.mpr hpos), hrep.complete_poll hp,
    List.map_cons, List.map_nil, runCalls, Event.call, Call.step, List.length_nil, if_pos hpos,
    List.nil_append] at hrest
  cases hrest with
  | cons _ hrest =>
    cases hrest with
    | cons htaken _ =>
      cases htaken with
      | taken _ hprefix =>
        have hget := hprefix.getElem (by rwa [List.length_replicate])
        unfold EhciPipe.slot at hget
        rw [List.getElem_replicate, List.getElem_map, List.getElem_range, hk,
          storeReport_cross hlinked, ← hk] at hget
        exact hb hget

end

variable {frameexp wMaxPacketSize tds data : Nat} {td : Nat → Qtd} {mem : Nat → Byte}

/-- The ring is a queue for all runs, if and only if no buffer crosses a page. -/
theorem ehciPollIntr_fifo_iff
    (h : (ehciAllocIntrPipe frameexp wMaxPacketSize tds data td mem).1.Allocated) :
    (∀ es, Fifo (ehciAllocIntrPipe frameexp wMaxPacketSize tds data td mem).1
      (ehciAllocIntrPipe frameexp wMaxPacketSize tds data td mem).2 es) ↔
      (ehciAllocIntrPipe frameexp wMaxPacketSize tds data td mem).1.InPages := by
  have hrep := ehciAllocIntrPipe_rep h
  exact ⟨inPages_of_fifo hrep h, fifo_of_inPages hrep h⟩

theorem ehciPollIntr_fifo_eight :
    (ehciAllocIntrPipe 3 8 0xe1000 0xe1ff0 (fun _ => clearedQtd) (fun _ => 0)).1.InPages ∧
      ∀ es, Fifo (ehciAllocIntrPipe 3 8 0xe1000 0xe1ff0 (fun _ => clearedQtd) (fun _ => 0)).1
        (ehciAllocIntrPipe 3 8 0xe1000 0xe1ff0 (fun _ => clearedQtd) (fun _ => 0)).2 es :=
  ⟨by decide, (ehciPollIntr_fifo_iff ⟨by decide, by decide, by decide⟩).mpr (by decide)⟩

/-- The third buffer of six bytes ends behind the page: bytes go to address 0. -/
theorem ehciAllocIntrPipe_crosses :
    ¬ Fifo (ehciAllocIntrPipe 5 6 0xe1000 0xe1ff0 (fun _ => clearedQtd) (fun _ => 0)).1
      (ehciAllocIntrPipe 5 6 0xe1000 0xe1ff0 (fun _ => clearedQtd) (fun _ => 0)).2
      [.complete [1, 2, 3, 4, 5, 6] (by decide) 0, .complete [1, 2, 3, 4, 5, 6] (by decide) 0,
        .complete [1, 2, 3, 4, 5, 6] (by decide) 0] := by
  intro hfifo
  have hinside := hfifo.inside 0 (.inl (by decide))
  revert hinside
  decide

end ItxLlama.Seabios.EhciIntr
