import ItxLlama.Seabios.EhciIntr

/-!
# EHCI's ring of reports is a queue where no buffer crosses a page

Every event keeps the ring as long as the reports stay in the pages of their
buffers. A report that crosses into another page is written to page 0.
-/

namespace ItxLlama.Seabios.EhciIntr

open Lib.Word Lib.Ring Lib.Table Lib.FlaggedRing
open Ehci

-- ---------------------------------------------------------------------------
-- The ring
-- ---------------------------------------------------------------------------

def EhciPipe.tdAddr (pipe : EhciPipe) (i : Nat) : Nat := pipe.tds + sizeofQtd * i

/-- What is in buffer `i`. -/
def EhciPipe.slot (pipe : EhciPipe) (mem : Nat → Byte) (i : Nat) : List Byte :=
  (List.range pipe.maxpacket).map fun k => mem (pipe.buffer i + k)

/-- What stays of descriptor `i`: the next one and the buffer. -/
structure Linked (pipe : EhciPipe) (td : Qtd) (i : Nat) : Prop where
  qtdNext : td.qtdNext = .ofNat 32 (pipe.tdAddr (next pipe.count i))
  buf : td.buf = [pipe.buffer i, 0, 0, 0, 0]

/-- A report lies in the buffer, or the descriptor is active. -/
def Reports (td : Qtd) (data : List Byte) : Option (List Byte) → Prop
  | none => td.token &&& qtdStsActive ≠ 0
  | some report => td.token &&& qtdStsActive = 0 ∧ report <+: data

def Slot (pipe : EhciPipe) (s : State) (i : Nat) (report : Option (List Byte)) : Prop :=
  Linked pipe (s.td (pipe.tdAddr i)) i ∧
    Reports (s.td (pipe.tdAddr i)) (pipe.slot s.mem i) report

structure Rep (pipe : EhciPipe) (s : State) (head tail : Nat) (q : List (List Byte)) : Prop where
  nextTd : s.nextTd = pipe.tdAddr head
  qhQtdNext : s.qhQtdNext = pipe.tdAddr tail
  ring : Lib.FlaggedRing.Holds pipe.count (Slot pipe s) head tail q

/-- The report stays in the page of its buffer, whichever it gets. -/
def Event.InPages (pipe : EhciPipe) : Event pipe.maxpacket → Prop
  | complete report _ _ => ∀ i < pipe.count, pipe.buffer i % 0x1000 + report.length ≤ 0x1000
  | poll => True

section

variable {pipe : EhciPipe} {s : State} {head tail i j : Nat} {q : List (List Byte)}

theorem EhciPipe.tdAddr_inj : pipe.tdAddr i = pipe.tdAddr j ↔ i = j := by
  unfold tdAddr sizeofQtd
  omega

theorem EhciPipe.index_tdAddr (pipe : EhciPipe) (i : Nat) :
    (pipe.tdAddr i - pipe.tds) / sizeofQtd = i := by
  unfold tdAddr sizeofQtd
  omega

theorem EhciPipe.buffer_mono (pipe : EhciPipe) (hlt : i < j) :
    pipe.buffer i + pipe.maxpacket ≤ pipe.buffer j := by
  have hmul := Nat.mul_le_mul_left pipe.maxpacket hlt
  rw [Nat.mul_succ] at hmul
  unfold buffer
  omega

theorem EhciPipe.buffer_le (pipe : EhciPipe) (hi : i < pipe.count) :
    pipe.buffer i + pipe.maxpacket ≤ pipe.data + pipe.maxpacket * pipe.count :=
  pipe.buffer_mono hi

theorem EhciPipe.Allocated.u32_buffer (h : pipe.Allocated) (hi : i < pipe.count) :
    u32 (pipe.buffer i) = pipe.buffer i := by
  have hle := pipe.buffer_le hi
  have hdata := h.data
  exact u32_eq (by omega)

theorem EhciPipe.Allocated.link (h : pipe.Allocated) (hi : i < pipe.count) :
    (BitVec.ofNat 32 (pipe.tdAddr i) &&& ~~~ehciPtrBits).toNat = pipe.tdAddr i := by
  obtain ⟨c, hc⟩ := h.aligned
  have htds := h.tds
  have hlt : pipe.tdAddr i < 2 ^ 32 := by
    unfold EhciPipe.tdAddr sizeofQtd at *
    omega
  have hmask : ehciPtrBits = BitVec.ofNat 32 (2 ^ 5) - 1 := by decide
  rw [hmask]
  refine (alignDown32_eq hlt (by decide)).trans ?_
  unfold EhciPipe.tdAddr alignDown
  rw [hc, sizeofQtd]
  omega

theorem intrToken_active (maxpacket : Nat) : intrToken maxpacket &&& qtdStsActive ≠ 0 := by
  have hbits : (qtdStsActive ||| (qtdPidIn ||| ehciMaxerr 3)) &&& qtdStsActive = qtdStsActive := by
    decide
  have htoken : intrToken maxpacket &&& qtdStsActive = qtdStsActive := by
    unfold intrToken
    rw [BitVec.or_assoc, BitVec.or_assoc, BitVec.and_comm, BitVec.and_or_distrib_left,
      BitVec.and_comm qtdStsActive (_ ||| _), hbits]
    apply BitVec.eq_of_getLsbD_eq
    intro i hi
    rw [BitVec.getLsbD_or, BitVec.getLsbD_and]
    cases qtdStsActive.getLsbD i <;> simp
  rw [htoken]
  decide

theorem completed_inactive (status : BitVec 32) :
    status &&& ~~~qtdStsActive &&& qtdStsActive = 0 := by
  rw [BitVec.and_assoc, BitVec.not_and_self]
  exact BitVec.and_zero

theorem Rep.armed_iff (h : Rep pipe s head tail q) :
    (s.td s.qhQtdNext).token &&& qtdStsActive ≠ 0 ↔ q.length < pipe.count := by
  rw [h.qhQtdNext]
  constructor
  · intro hactive
    by_contra hfull
    have hfull : q.length = pipe.count := Nat.le_antisymm h.ring.room (Nat.le_of_not_lt hfull)
    have hslot := h.ring.head_slot
    rw [← h.ring.full hfull] at hslot
    cases q with
    | nil => exact absurd h.ring.head_lt (hfull ▸ Nat.not_lt_zero head)
    | cons report q => exact hactive hslot.2.1
  · intro hroom
    exact (h.ring.tail_slot hroom).2

-- ---------------------------------------------------------------------------
-- A transfer
-- ---------------------------------------------------------------------------

theorem byteAddr_page (pipe : EhciPipe) {td : Qtd} (htd : Linked pipe td i)
    (hk : pipe.buffer i % 0x1000 + k < 0x1000) : td.byteAddr k = pipe.buffer i + k := by
  unfold Qtd.byteAddr
  rw [htd.buf, List.getD_cons_zero]
  dsimp only
  rw [Nat.div_eq_of_lt hk, Nat.mod_eq_of_lt hk, List.getD_cons_zero]
  omega

/-- Behind the end of the buffer's page, bytes go to page 0. -/
theorem byteAddr_cross {td : Qtd} (htd : Linked pipe td i)
    (hk : 0x1000 ≤ pipe.buffer i % 0x1000 + k) :
    td.byteAddr k = (pipe.buffer i % 0x1000 + k) % 0x1000 := by
  unfold Qtd.byteAddr
  rw [htd.buf, List.getD_cons_zero]
  obtain ⟨page, hpage⟩ : ∃ page, (pipe.buffer i % 0x1000 + k) / 0x1000 = page + 1 :=
    Nat.exists_eq_add_one_of_ne_zero (Nat.ne_of_gt (Nat.div_pos hk (by decide)))
  have hzero : [0, 0, 0, 0].getD page 0 = 0 := by
    rcases page with _ | _ | _ | _ | page <;> rfl
  dsimp only
  rw [hpage, List.getD_cons_succ, hzero, Nat.zero_div, Nat.zero_mul, Nat.zero_add]

theorem storeReport_outside (pipe : EhciPipe) {td : Qtd} (htd : Linked pipe td i)
    {report : List Byte} (hpage : pipe.buffer i % 0x1000 + report.length ≤ 0x1000)
    (ha : a < pipe.buffer i ∨ pipe.buffer i + report.length ≤ a) (mem : Nat → Byte) :
    storeReport td report mem a = mem a := by
  refine fill_other fun k hk => ?_
  rw [byteAddr_page pipe htd (by omega)]
  omega

theorem storeReport_at (pipe : EhciPipe) {td : Qtd} (htd : Linked pipe td i)
    {report : List Byte} (hpage : pipe.buffer i % 0x1000 + report.length ≤ 0x1000)
    (hk : k < report.length) (mem : Nat → Byte) :
    storeReport td report mem (pipe.buffer i + k) = report.getD k 0 := by
  rw [← byteAddr_page pipe htd (by omega)]
  refine fill_at td.byteAddr hk fun j hj hlt => ?_
  rw [byteAddr_page pipe htd (by omega), byteAddr_page pipe htd (by omega)]
  omega

theorem prefix_slot (pipe : EhciPipe) {td : Qtd} (htd : Linked pipe td i)
    {report : List Byte} (hpage : pipe.buffer i % 0x1000 + report.length ≤ 0x1000)
    (hlen : report.length ≤ pipe.maxpacket) (mem : Nat → Byte) :
    report <+: pipe.slot (storeReport td report mem) i := by
  rw [List.prefix_iff_eq_take]
  unfold EhciPipe.slot
  rw [← List.map_take, List.take_range, Nat.min_eq_left hlen]
  refine List.ext_getElem (by rw [List.length_map, List.length_range]) fun k hk _ => ?_
  rw [List.getElem_map, List.getElem_range, storeReport_at pipe htd hpage hk,
    List.getD_eq_getElem _ _ hk]

theorem slot_outside (pipe : EhciPipe) {td : Qtd} (htd : Linked pipe td i)
    {report : List Byte} (hpage : pipe.buffer i % 0x1000 + report.length ≤ 0x1000)
    (hlen : report.length ≤ pipe.maxpacket) (hne : j ≠ i) (mem : Nat → Byte) :
    pipe.slot (storeReport td report mem) j = pipe.slot mem j := by
  refine List.map_congr_left fun k hk => storeReport_outside pipe htd hpage ?_ mem
  have hk := List.mem_range.mp hk
  rcases Nat.lt_or_gt_of_ne hne with hlt | hlt
  · have hle := pipe.buffer_mono hlt
    omega
  · have hle := pipe.buffer_mono hlt
    omega

theorem Rep.complete (h : Rep pipe s head tail q) (hp : pipe.Allocated)
    (hroom : q.length < pipe.count) {report : List Byte} (hlen : report.length ≤ pipe.maxpacket)
    (hpage : pipe.buffer tail % 0x1000 + report.length ≤ 0x1000) (status : BitVec 32) :
    Rep pipe (completeTd report status s) head (next pipe.count tail) (q ++ [report]) := by
  have hlinked := (h.ring.tail_slot hroom).1
  have hlt := h.ring.tail_lt
  refine ⟨h.nextTd, ?_, h.ring.push hroom (fun i _ hne o hslot => ?_) ?_⟩
  · unfold completeTd
    dsimp only
    rw [h.qhQtdNext, hlinked.qtdNext]
    exact hp.link (next_lt hlt)
  · have hne' : pipe.tdAddr i ≠ s.qhQtdNext := by
      rw [h.qhQtdNext]
      exact mt EhciPipe.tdAddr_inj.mp hne
    unfold Slot completeTd at *
    dsimp only
    rw [Function.update_of_ne hne', h.qhQtdNext, slot_outside pipe hlinked hpage hlen hne]
    exact hslot
  · unfold Slot completeTd
    dsimp only
    rw [h.qhQtdNext, Function.update_self]
    exact ⟨⟨hlinked.qtdNext, hlinked.buf⟩, completed_inactive status,
      prefix_slot pipe hlinked hpage hlen s.mem⟩

-- ---------------------------------------------------------------------------
-- Polling
-- ---------------------------------------------------------------------------

theorem Rep.poll_nil (h : Rep pipe s head tail []) : ehciPollIntr pipe s = (none, s) := by
  have hactive := h.ring.head_slot.2
  rw [← h.nextTd] at hactive
  exact if_pos hactive

/-- The descriptor of the head is made active. -/
def reenable (pipe : EhciPipe) (s : State) (head : Nat) : State :=
  { s with
    nextTd := pipe.tdAddr (next pipe.count head)
    td := Function.update s.td (pipe.tdAddr head)
      { s.td (pipe.tdAddr head) with
        buf := [u32 (pipe.buffer head), 0, 0, 0, 0]
        token := intrToken pipe.maxpacket } }

theorem poll_inactive (hp : pipe.Allocated) (hnext : s.nextTd = pipe.tdAddr head)
    (hlt : head < pipe.count) (hlinked : Linked pipe (s.td (pipe.tdAddr head)) head)
    (hidle : (s.td (pipe.tdAddr head)).token &&& qtdStsActive = 0) :
    ehciPollIntr pipe s = (some (pipe.slot s.mem head), reenable pipe s head) := by
  have hlink : ((s.td (pipe.tdAddr head)).qtdNext &&& ~~~ehciPtrBits).toNat =
      pipe.tdAddr (next pipe.count head) := by
    rw [hlinked.qtdNext]
    exact hp.link (next_lt hlt)
  unfold ehciPollIntr
  dsimp only
  rw [hnext, pipe.index_tdAddr, if_neg (not_not.mpr hidle), hlink]
  unfold reenable
  rw [hlinked.buf]
  rfl

theorem Rep.reenable {report : List Byte} (h : Rep pipe s head tail (report :: q))
    (hp : pipe.Allocated) : Rep pipe (reenable pipe s head) (next pipe.count head) tail q := by
  refine ⟨rfl, h.qhQtdNext, h.ring.pop (fun i _ hne o hslot => ?_) ?_⟩
  · unfold Slot EhciIntr.reenable at *
    dsimp only
    rw [Function.update_of_ne (mt EhciPipe.tdAddr_inj.mp hne)]
    exact hslot
  · unfold Slot EhciIntr.reenable
    dsimp only
    rw [Function.update_self, hp.u32_buffer h.ring.head_lt]
    exact ⟨⟨h.ring.head_slot.1.qtdNext, rfl⟩, intrToken_active _⟩

theorem Rep.poll_cons {report : List Byte} (h : Rep pipe s head tail (report :: q))
    (hp : pipe.Allocated) :
    ehciPollIntr pipe s = (some (pipe.slot s.mem head), EhciIntr.reenable pipe s head) :=
  poll_inactive hp h.nextTd h.ring.head_lt h.ring.head_slot.1 h.ring.head_slot.2.1

end

end ItxLlama.Seabios.EhciIntr
