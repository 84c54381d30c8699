import ItxLlama.Seabios.MallocLeak

/-!
# The option ROM area

`malloc.c` between 0xc0000 and 0xf0000, with `CONFIG_MALLOC_UPPERMEMORY`.
Option ROMs grow upwards from 0xc0000 and the low zone is cut from the top;
what separates them is the data start of the zone's last record, which
`rom_reserve` moves.
-/

namespace ItxLlama.Seabios

open Lib.Word Lib.Hlist Lib.Carve

def buildRomStart : Nat := 0xc0000

def opromHeaderReserve : Nat := 16

def optionRomAlign : Nat := 2048

/-- `ALIGN`, whose sum can wrap. -/
def align32 (x a : Nat) : Nat := alignDown (u32 (x + (a - 1))) a

/-- The allocator with the ROM area's `RomEnd` and `RomBase`. -/
structure RomState extends AllocState where
  romEnd : Nat
  romBase : Nat

def romGetMax (s : RomState) : Nat :=
  alignDown (u32 (s.mem (s.romBase + 16) + 2 ^ 32 - opromHeaderReserve)) optionRomAlign

/-- `rom_reserve`, in a build whose linker has put `zonelow_base` there. -/
def romReserve (zonelowBase : Nat) (s : RomState) (size : Nat) : Nat × Mem :=
  let newend := align32 (u32 (s.romEnd + size)) optionRomAlign
  if newend > romGetMax s then (0, s.mem)
  else
    let newend := if newend < zonelowBase then zonelowBase else newend
    let data := u32 (newend + opromHeaderReserve)
    (s.romEnd, store (store s.mem (s.romBase + 12) data) (s.romBase + 8) data)

/-- The BIOS's use of the allocator, or a call for an option ROM. -/
inductive RomOp where
  | alloc (op : AllocOp)
  | reserve (size : Nat)
  | confirm (size : Nat)

/-- The low zone's region starts where its last record says. -/
def moveLow (start : Nat) (regions : List (Zone × Nat × Nat)) : List (Zone × Nat × Nat) :=
  regions.map fun r => if r.1 = .low then (.low, start, r.2.2) else r

/-- What a call of `rom_reserve` leaves. -/
def RomState.reserved (zonelowBase : Nat) (s : RomState) (size : Nat) : RomState :=
  let m := (romReserve zonelowBase s size).2
  { s with mem := m, regions := moveLow (m (s.romBase + 8)) s.regions }

@[simp] theorem reserved_romEnd (zonelowBase : Nat) (s : RomState) (size : Nat) :
    (s.reserved zonelowBase size).romEnd = s.romEnd := by
  rw [RomState.reserved]

def romConfirm (zonelowBase : Nat) (s : RomState) (size : Nat) : Int × RomState :=
  let new := (romReserve zonelowBase s size).1
  let s' := s.reserved zonelowBase size
  if new = 0 then (-1, s')
  else (0, { s' with romEnd := align32 (u32 (s.romEnd + size)) optionRomAlign })

def RomOp.run (zonelowBase : Nat) (s : RomState) : RomOp → Option RomState
  | .alloc op => (op.run s.toAllocState).map fun a => { s with toAllocState := a }
  | .reserve size => some (s.reserved zonelowBase size)
  | .confirm size => some (romConfirm zonelowBase s size).2

/-- Requests and writes as the allocator's callers make them. -/
def RomOp.Ok (s : RomState) : RomOp → Prop
  | .alloc op => op.Ok s.toAllocState ∧ op.AddsNone
  | _ => True

/-- A request that wraps, of the allocator or for an option ROM. -/
def RomOp.Overflows (s : RomState) : RomOp → Prop
  | .alloc op => op.Wraps s.toAllocState
  | .reserve size | .confirm size => 2 ^ 32 ≤ s.romEnd + size + (optionRomAlign - 1)

/-- The end of `malloc_init`: the low zone has the region from `zonelow_base`
on, and no option ROM is there yet. -/
structure RomStart (zonelowBase : Nat) (s : RomState) : Prop where
  reach : AllocReach (fun s op => op.Ok s ∧ ¬ op.Wraps s) s.toAllocState
  low : ∃ fin, s.regions.filter (fun r => r.1 = .low) =
    [(.low, zonelowBase + opromHeaderReserve, fin)]
  base : s.romBase = findLast s.mem .low
  romEnd : s.romEnd = buildRomStart

/-- The states of runs whose steps all satisfy `P`. -/
inductive RomReach (zonelowBase : Nat) (P : RomState → RomOp → Prop) : RomState → Prop
  | start (h : RomStart zonelowBase s) : RomReach zonelowBase P s
  | step (h : RomReach zonelowBase P s) (hp : P s op) (hrun : op.run zonelowBase s = some s') :
      RomReach zonelowBase P s'

/-- Option ROMs and low allocations do not meet. -/
structure RomSafe (s : RomState) : Prop where
  disjoint : ∀ b ∈ s.live, b.zone = .low → s.romEnd ≤ b.ptr
  max : s.romEnd ≤ romGetMax s
  data : s.mem (s.romBase + 8) ≤ s.mem (s.romBase + 12)
  dataend : s.mem (s.romBase + 12) ≤ s.mem (s.romBase + 16)

-- ---------------------------------------------------------------------------
-- A region that starts elsewhere
-- ---------------------------------------------------------------------------

def Region.from (r : Region) (start : Nat) : Region := { r with start := start }

section Base

variable {m : Mem} {gs₁ gs₂ : List Region} {r : Region}

theorem zoneInfos_base (gs₁ gs₂ : List Region) (r : Region) (start : Nat) :
    zoneInfos r.zone (gs₁ ++ r.from start :: gs₂) =
      (zoneInfos r.zone gs₁ ++ preInfos r.fin r.chunks) ++
        ⟨r.addr, start, start, topAfter Chunk.data r.fin r.chunks⟩ :: zoneInfos r.zone gs₂ := by
  have hcs : r.chunks = r.chunks ++ [] := (List.append_nil _).symm
  exact zoneInfos_region (z := r.zone) (r := r.from start) rfl hcs gs₁ gs₂

theorem Rep.base_at (h : Rep m (gs₁ ++ r :: gs₂)) :
    AllocInfo.At ⟨r.addr, r.start, r.start, topAfter Chunk.data r.fin r.chunks⟩ m := by
  refine (h r.zone).infos _ ?_
  have := zoneInfos_base gs₁ gs₂ r r.start
  rw [show r.from r.start = r from rfl] at this
  rw [this]
  simp

theorem Rep.rebase (h : Rep m (gs₁ ++ r :: gs₂)) (hb : Books (gs₁ ++ r :: gs₂) [] [])
    (start : Nat) :
    Rep (store (store m (r.addr + 12) start) (r.addr + 8) start) (gs₁ ++ r.from start :: gs₂) := by
  have hold := zoneInfos_base gs₁ gs₂ r r.start
  rw [show r.from r.start = r from rfl] at hold
  have hl := h r.zone
  have hsep := hb.separate r.zone
  have hap := fun z (hz : z ≠ r.zone) => hb.zones_apart hz
  rw [hold] at hl hsep
  have hat := hl.infos ⟨r.addr, r.start, r.start, topAfter Chunk.data r.fin r.chunks⟩ (by simp)
  have hnew : AllocInfo.At ⟨r.addr, start, start, topAfter Chunk.data r.fin r.chunks⟩
      (store (store m (r.addr + 12) start) (r.addr + 8) start) := by
    refine ⟨store_same .., ?_, ?_⟩
    · exact (store_ne _ _ (by simp)).trans (store_same ..)
    · exact (store_ne _ _ (by simp)).trans ((store_ne _ _ (by simp)).trans hat.allocend)
  have hkeep : ∀ k, (k < r.addr + 8 ∨ r.addr + infoSize ≤ k) →
      store (store m (r.addr + 12) start) (r.addr + 8) start k = m k := by
    intro k hk
    simp only [infoSize] at hk
    exact (store_ne _ _ (by omega)).trans (store_ne _ _ (by omega))
  refine h.update (z := r.zone) (T := [r.addr]) ?_ (fun k hk => ?_) (fun z hz => ?_)
    fun z hz a ha t ht => ?_
  · rw [zoneInfos_base]
    exact hl.setRecord hsep rfl hnew hkeep
  · have := hk r.addr (by simp)
    simp only [infoSize] at this hkeep
    exact hkeep k (by omega)
  · exact zoneInfos_swap gs₁ gs₂ (Ne.symm hz) (Ne.symm hz)
  · obtain rfl := List.mem_singleton.mp ht
    have hsame : zoneInfos z (gs₁ ++ r.from start :: gs₂) = zoneInfos z (gs₁ ++ r :: gs₂) :=
      zoneInfos_swap gs₁ gs₂ (Ne.symm hz) (Ne.symm hz)
    rw [hsame] at ha
    have hr : r.addr ∈ addrs (zoneInfos r.zone (gs₁ ++ r :: gs₂)) := by
      rw [hold]
      simp
    exact hap z hz a ha r.addr (List.mem_cons_of_mem _ hr)

theorem Books.rebase (hb : Books (gs₁ ++ r :: gs₂) [] []) (hpos : 0 < start)
    (hle : start ≤ topAfter Chunk.data r.fin r.chunks)
    (hoff : ∀ q ∈ gs₁ ++ gs₂, q.fin ≤ start ∨ r.fin ≤ q.start) :
    Books (gs₁ ++ r.from start :: gs₂) [] [] := by
  have hr := hb.ok r (by simp)
  have hpw := hb.off
  rw [List.pairwise_append, List.pairwise_cons] at hpw
  obtain ⟨h1, ⟨h2, h3⟩, h4⟩ := hpw
  refine ⟨fun q hq => ?_, ?_, ?_, .inl rfl⟩
  · rcases List.mem_append.mp hq with hq | hq
    · exact hb.ok q (by simp [hq])
    · rcases List.mem_cons.mp hq with rfl | hq
      · exact ⟨hpos, hr.word, hr.carved.rebase hle, hr.chunks⟩
      · exact hb.ok q (by simp [hq])
  · rw [List.pairwise_append, List.pairwise_cons]
    refine ⟨h1, ⟨fun q hq => ?_, h3⟩, fun p hp q hq => ?_⟩
    · exact (hoff q (by simp [hq])).symm
    · rcases List.mem_cons.mp hq with rfl | hq
      · exact hoff p (by simp [hp])
      · exact h4 p hp q (by simp [hq])
  · have := hb.balance
    simpa [owners, details, blocks, Region.from] using this

theorem Holds.only_region {a : AllocState} {gs : List Region} (h : Holds a gs)
    (hf : a.regions.filter (fun r => r.1 = z) = [(z, lo, hi)]) :
    ∃ gs₁ r gs₂, gs = gs₁ ++ r :: gs₂ ∧ r.zone = z ∧ r.start = lo ∧ r.fin = hi ∧
      (∀ q ∈ gs₁ ++ gs₂, q.zone ≠ z) ∧ r.addr = findLast a.mem z := by
  have hperm := h.regions.filter fun r => r.1 = z
  rw [hf, List.filter_map] at hperm
  obtain ⟨r, hr, hspan⟩ := List.map_eq_singleton_iff.mp (List.perm_singleton.mp hperm)
  obtain ⟨gs₁, gs₂, rfl, hno₁, hz, hno₂⟩ := List.filter_eq_cons_iff.mp hr
  have hzone : r.zone = z := of_decide_eq_true hz
  subst hzone
  have hno : ∀ q ∈ gs₁ ++ gs₂, q.zone ≠ r.zone := by
    intro q hq
    rcases List.mem_append.mp hq with hq | hq
    · exact fun hz => hno₁ q hq (decide_eq_true hz)
    · have := List.filter_eq_nil_iff.mp hno₂ q hq
      exact fun hz => this (decide_eq_true hz)
  have hnil : zoneInfos r.zone gs₂ = [] := by
    rw [zoneInfos, List.filter_eq_nil_iff.mpr fun q hq => by simpa using hno q (by simp [hq])]
    rfl
  have hspan := (Prod.mk.inj (Prod.mk.inj hspan).2)
  refine ⟨gs₁, r, gs₂, rfl, rfl, hspan.1, hspan.2, hno, ?_⟩
  have := zoneInfos_base gs₁ gs₂ r r.start
  rw [show r.from r.start = r from rfl, hnil] at this
  rw [findLast, listRecords_zone h.rep h.books, this]
  simp [addrs]

end Base

-- ---------------------------------------------------------------------------
-- The invariant
-- ---------------------------------------------------------------------------

/-- `r` is the low zone's region; it starts above the option ROMs. -/
structure RomHolds (zonelowBase : Nat) (s : RomState) (gs₁ : List Region) (r : Region)
    (gs₂ : List Region) : Prop where
  alloc : Holds s.toAllocState (gs₁ ++ r :: gs₂)
  zone : r.zone = .low
  only : ∀ q ∈ gs₁ ++ gs₂, q.zone ≠ .low
  off : ∀ q ∈ gs₁ ++ gs₂, q.fin ≤ zonelowBase + opromHeaderReserve ∨ r.fin ≤ q.start
  base : r.addr = s.romBase
  lower : zonelowBase + opromHeaderReserve ≤ r.start
  rom : s.romEnd + opromHeaderReserve ≤ r.start
  aligned : optionRomAlign ∣ s.romEnd

section Step

variable {zonelowBase : Nat} {s s' : RomState} {gs gs₁ gs₂ : List Region} {r : Region}
  {op : RomOp}

theorem mem_ends {q r : Region} (h : q ∈ gs₁ ++ r :: gs₂) : q = r ∨ q ∈ gs₁ ++ gs₂ := by
  simp only [List.mem_append, List.mem_cons] at h ⊢
  tauto

theorem romHolds_start (h : RomStart zonelowBase s) (hge : buildRomStart ≤ zonelowBase) :
    ∃ gs₁ r gs₂, RomHolds zonelowBase s gs₁ r gs₂ := by
  obtain ⟨gs, hgs⟩ := holds_of_reach h.reach
  obtain ⟨fin, hlow⟩ := h.low
  obtain ⟨gs₁, r, gs₂, rfl, hzone, hstart, -, hno, hlast⟩ := hgs.only_region hlow
  refine ⟨gs₁, r, gs₂, hgs, hzone, hno, fun q hq => ?_, hlast.trans h.base.symm, ?_, ?_, ?_⟩
  · have : Std.Symm Region.Off := ⟨fun _ _ h => h.symm⟩
    have hne : r ≠ q := by
      rintro rfl
      exact hno r hq hzone
    have hmem : q ∈ gs₁ ++ r :: gs₂ := by
      simp only [List.mem_append, List.mem_cons] at hq ⊢
      tauto
    have := hgs.books.off.forall (by simp) hmem hne
    simp only [Region.Off, hstart] at this
    exact this.symm
  · rw [hstart]
  · rw [h.romEnd, hstart]
    exact Nat.add_le_add_right hge _
  · rw [h.romEnd]
    decide

theorem RomHolds.base_le (h : RomHolds zonelowBase s gs₁ r gs₂) :
    r.start ≤ topAfter Chunk.data r.fin r.chunks ∧ topAfter Chunk.data r.fin r.chunks < 2 ^ 32 := by
  have hr := h.alloc.books.ok r (by simp)
  have hc := hr.carved
  rw [← List.append_nil r.chunks, carved_append] at hc
  exact ⟨hc.2.le, Nat.lt_of_le_of_lt hc.1.le hr.word⟩

theorem RomHolds.getMax (h : RomHolds zonelowBase s gs₁ r gs₂) :
    romGetMax s = alignDown (topAfter Chunk.data r.fin r.chunks - opromHeaderReserve)
      optionRomAlign := by
  obtain ⟨hle, hlt⟩ := h.base_le
  have hat := h.alloc.rep.base_at.allocend
  simp only [h.base] at hat
  have hrom := h.rom
  have hsub : u32 (topAfter Chunk.data r.fin r.chunks + 2 ^ 32 - opromHeaderReserve) =
      topAfter Chunk.data r.fin r.chunks - opromHeaderReserve := by
    simp only [u32, opromHeaderReserve] at hrom ⊢
    omega
  rw [romGetMax, hat, hsub]

theorem RomHolds.safe (h : RomHolds zonelowBase s gs₁ r gs₂) : RomSafe s := by
  obtain ⟨hle, hlt⟩ := h.base_le
  have hat := h.alloc.rep.base_at
  have hrom := h.rom
  refine ⟨fun b hb hz => ?_, ?_, ?_, ?_⟩
  · obtain ⟨t, ht, htz, hlo, -⟩ := h.alloc.safe.inside b hb
    obtain ⟨q, hq, rfl⟩ := List.mem_map.mp (h.alloc.regions.mem_iff.mpr ht)
    rcases mem_ends hq with rfl | hq
    · simp only [Region.span] at hlo
      omega
    · exact absurd (htz.trans hz) (h.only q hq)
  · rw [h.getMax]
    obtain ⟨k, hk⟩ := h.aligned
    have hlt := lt_alignDown_add (topAfter Chunk.data r.fin r.chunks - opromHeaderReserve)
      (show 0 < optionRomAlign by decide)
    obtain ⟨j, hj⟩ := dvd_alignDown (topAfter Chunk.data r.fin r.chunks - opromHeaderReserve)
      optionRomAlign
    rw [hj] at hlt ⊢
    rw [hk] at hrom ⊢
    simp only [optionRomAlign, opromHeaderReserve] at *
    omega
  · rw [← h.base, hat.data, hat.dataend]
  · rw [← h.base, hat.dataend, hat.allocend]
    exact hle

theorem RomHolds.alloc_step {op : AllocOp} (h : RomHolds zonelowBase s gs₁ r gs₂)
    (hok : op.Ok s.toAllocState ∧ op.AddsNone) (hw : ¬ op.Wraps s.toAllocState) :
    ∃ a g₁ q g₂, op.run s.toAllocState = some a ∧
      RomHolds zonelowBase { s with toAllocState := a } g₁ q g₂ := by
  obtain ⟨a, gs', heq, h', hbare⟩ := h.alloc.step_bare hok hw
  rw [List.map_append, List.map_cons] at hbare
  obtain ⟨g₁, g', rfl, hg₁, hg'⟩ := List.map_eq_append_iff.mp hbare
  obtain ⟨q, g₂, rfl, hq, hg₂⟩ := List.map_eq_cons_iff.mp hg'
  have hsame : ∀ p p' : Region, p.bare = p'.bare →
      p.zone = p'.zone ∧ p.start = p'.start ∧ p.fin = p'.fin ∧ p.addr = p'.addr := by
    rintro ⟨_, _, _, _, _⟩ ⟨_, _, _, _, _⟩ hbare
    cases hbare
    exact ⟨rfl, rfl, rfl, rfl⟩
  have hfrom : ∀ p ∈ g₁ ++ g₂, ∃ p' ∈ gs₁ ++ gs₂, p.bare = p'.bare := by
    intro p hp
    have : p.bare ∈ (gs₁ ++ gs₂).map Region.bare := by
      rw [List.map_append, ← hg₁, ← hg₂, ← List.map_append]
      exact List.mem_map_of_mem hp
    obtain ⟨p', hp', heq⟩ := List.mem_map.mp this
    exact ⟨p', hp', heq.symm⟩
  obtain ⟨hzone, hstart, hfin, haddr⟩ := hsame q r hq
  refine ⟨a, g₁, q, g₂, heq, h', hzone.trans h.zone, fun p hp => ?_, fun p hp => ?_,
    haddr.trans h.base, hstart ▸ h.lower, hstart ▸ h.rom, h.aligned⟩
  · obtain ⟨p', hp', heq⟩ := hfrom p hp
    exact fun hz => h.only p' hp' ((hsame p p' heq).1.symm.trans hz)
  · obtain ⟨p', hp', heq⟩ := hfrom p hp
    obtain ⟨-, hps, hpf, -⟩ := hsame p p' heq
    rw [hpf, hps, hfin]
    exact h.off p' hp'

theorem RomHolds.moveLow_span (h : RomHolds zonelowBase s gs₁ r gs₂) (start : Nat) :
    ((gs₁ ++ r.from start :: gs₂).map Region.span).Perm (moveLow start s.regions) := by
  have hother : ∀ gs : List Region, (∀ q ∈ gs, q ∈ gs₁ ++ gs₂) →
      moveLow start (gs.map Region.span) = gs.map Region.span := by
    intro gs hgs
    rw [moveLow, List.map_map]
    refine List.map_congr_left fun q hq => ?_
    exact if_neg (h.only q (hgs q hq))
  have hall : moveLow start ((gs₁ ++ r :: gs₂).map Region.span) =
      (gs₁ ++ r.from start :: gs₂).map Region.span := by
    rw [List.map_append, List.map_append, List.map_cons, List.map_cons, moveLow, List.map_append,
      List.map_cons]
    have h₁ := hother gs₁ fun q hq => List.mem_append_left _ hq
    have h₂ := hother gs₂ fun q hq => List.mem_append_right _ hq
    rw [moveLow] at h₁ h₂
    rw [h₁, h₂, if_pos (show r.span.1 = .low from h.zone)]
    simp only [Region.span, Region.from, h.zone]
  rw [← hall]
  exact h.alloc.regions.map _

/-- The low zone starts elsewhere, above `zonelow_base` and the option ROMs. -/
theorem RomHolds.moved (h : RomHolds zonelowBase s gs₁ r gs₂)
    (hm : Rep m (gs₁ ++ r.from start :: gs₂)) (hle : start ≤ topAfter Chunk.data r.fin r.chunks)
    (hlow : zonelowBase + opromHeaderReserve ≤ start) (hrom : s.romEnd + opromHeaderReserve ≤ start) :
    RomHolds zonelowBase
      { s with mem := m, regions := moveLow (m (s.romBase + 8)) s.regions } gs₁ (r.from start) gs₂ := by
  have hstart : m (s.romBase + 8) = start := by
    rw [← h.base]
    exact hm.base_at.data
  rw [hstart]
  have hoff : ∀ q ∈ gs₁ ++ gs₂, q.fin ≤ start ∨ r.fin ≤ q.start := fun q hq =>
    (h.off q hq).imp_left fun hq => Nat.le_trans hq hlow
  have hpos : 0 < start := Nat.lt_of_lt_of_le (Nat.succ_pos _) hlow
  refine ⟨⟨hm, h.alloc.books.rebase hpos hle hoff, h.moveLow_span start, ?_⟩, h.zone, h.only, h.off,
    h.base, hlow, hrom, h.aligned⟩
  have := h.alloc.live
  simpa [users, blocks, Region.from] using this

theorem RomHolds.grown (h : RomHolds zonelowBase s gs₁ r gs₂) (hdvd : optionRomAlign ∣ newend)
    (hle : newend + opromHeaderReserve ≤ r.start) :
    RomHolds zonelowBase { s with romEnd := newend } gs₁ r gs₂ :=
  ⟨h.alloc, h.zone, h.only, h.off, h.base, h.lower, hle, hdvd⟩

theorem RomHolds.reserve (h : RomHolds zonelowBase s gs₁ r gs₂) (size : Nat)
    (hfit : s.romEnd + size + (optionRomAlign - 1) < 2 ^ 32) :
    ∃ q, RomHolds zonelowBase (s.reserved zonelowBase size) gs₁ q gs₂ ∧
      ((romReserve zonelowBase s size).1 = 0 ∨
        align32 (u32 (s.romEnd + size)) optionRomAlign + opromHeaderReserve ≤ q.start) ∧
      s.romEnd ≤ align32 (u32 (s.romEnd + size)) optionRomAlign := by
  have hend : align32 (u32 (s.romEnd + size)) optionRomAlign =
      alignUp (s.romEnd + size) optionRomAlign := by
    rw [align32, u32_eq (n := s.romEnd + size) (by omega), u32_eq hfit]
    rfl
  have hle : s.romEnd ≤ align32 (u32 (s.romEnd + size)) optionRomAlign := by
    rw [hend]
    exact Nat.le_trans (Nat.le_add_right _ _) (le_alignUp _ (by decide))
  obtain ⟨hbase, hword⟩ := h.base_le
  have hmax := h.getMax
  have hdown := alignDown_le (topAfter Chunk.data r.fin r.chunks - opromHeaderReserve) optionRomAlign
  have hlower := h.lower
  have hrom := h.rom
  by_cases hno : align32 (u32 (s.romEnd + size)) optionRomAlign > romGetMax s
  · have hres : romReserve zonelowBase s size = (0, s.mem) := by
      simp only [romReserve, if_pos hno]
    refine ⟨r.from r.start, ?_, .inl (by rw [hres]), hle⟩
    rw [RomState.reserved, hres]
    exact h.moved h.alloc.rep hbase hlower hrom
  · generalize hnew : align32 (u32 (s.romEnd + size)) optionRomAlign = newend at *
    have hdata : u32 ((if newend < zonelowBase then zonelowBase else newend) + opromHeaderReserve) =
        (if newend < zonelowBase then zonelowBase else newend) + opromHeaderReserve := by
      refine u32_eq ?_
      simp only [opromHeaderReserve] at *
      split <;> omega
    have hres : romReserve zonelowBase s size = (s.romEnd,
        store (store s.mem (s.romBase + 12)
          ((if newend < zonelowBase then zonelowBase else newend) + opromHeaderReserve))
          (s.romBase + 8)
          ((if newend < zonelowBase then zonelowBase else newend) + opromHeaderReserve)) := by
      simp only [romReserve, hnew, if_neg hno, hdata]
    generalize hst : (if newend < zonelowBase then zonelowBase else newend) + opromHeaderReserve =
      start at *
    refine ⟨r.from start, ?_, .inr ?_, hle⟩
    · rw [RomState.reserved, hres, ← h.base]
      have hmoved := h.moved (h.alloc.rep.rebase h.alloc.books start) ?_ ?_ ?_
      · rw [← h.base] at hmoved
        exact hmoved
      all_goals
        simp only [opromHeaderReserve] at *
        split at hst <;> omega
    · show newend + opromHeaderReserve ≤ start
      split at hst <;> omega

theorem RomHolds.step (h : RomHolds zonelowBase s gs₁ r gs₂) (hok : op.Ok s)
    (hfit : ¬ op.Overflows s) :
    ∃ s' g₁ q g₂, op.run zonelowBase s = some s' ∧ RomHolds zonelowBase s' g₁ q g₂ ∧
      s.romEnd ≤ s'.romEnd := by
  cases op with
  | alloc op =>
    obtain ⟨a, g₁, q, g₂, heq, h'⟩ := h.alloc_step hok hfit
    exact ⟨_, g₁, q, g₂, by simp [RomOp.run, heq], h', Nat.le_refl _⟩
  | reserve size =>
    simp only [RomOp.Overflows, Nat.not_le] at hfit
    obtain ⟨q, h', -⟩ := h.reserve size hfit
    exact ⟨s.reserved zonelowBase size, gs₁, q, gs₂, by simp only [RomOp.run], h', by simp⟩
  | confirm size =>
    simp only [RomOp.Overflows, Nat.not_le] at hfit
    obtain ⟨q, h', hroom, hle⟩ := h.reserve size hfit
    by_cases h0 : (romReserve zonelowBase s size).1 = 0
    · exact ⟨s.reserved zonelowBase size, gs₁, q, gs₂,
        by simp only [RomOp.run, romConfirm, if_pos h0], h', by simp⟩
    · refine ⟨_, gs₁, q, gs₂, by simp only [RomOp.run, romConfirm, if_neg h0],
        h'.grown ?_ (hroom.resolve_left h0), hle⟩
      rw [align32]
      exact dvd_alignDown _ _

theorem romHolds_of_reach (hge : buildRomStart ≤ zonelowBase)
    (h : RomReach zonelowBase (fun s op => op.Ok s ∧ ¬ op.Overflows s) s) :
    ∃ gs₁ r gs₂, RomHolds zonelowBase s gs₁ r gs₂ := by
  induction h with
  | start h => exact romHolds_start h hge
  | step _ hp hrun ih =>
    obtain ⟨gs₁, r, gs₂, hs⟩ := ih
    obtain ⟨s', g₁, q, g₂, heq, h', -⟩ := hs.step hp.1 hp.2
    rw [hrun] at heq
    exact ⟨g₁, q, g₂, Option.some.inj heq ▸ h'⟩

/-- In every run without a request that overflows, option ROMs and low
allocations stay apart, and the option ROMs only grow. -/
theorem rom_area_safe (zonelowBase : Nat) (hge : buildRomStart ≤ zonelowBase) (s : RomState)
    (h : RomReach zonelowBase (fun s op => op.Ok s ∧ ¬ op.Overflows s) s) :
    RomSafe s ∧ ∀ op : RomOp, op.Ok s → ¬ op.Overflows s →
      ∃ s', op.run zonelowBase s = some s' ∧ s.romEnd ≤ s'.romEnd := by
  obtain ⟨gs₁, r, gs₂, hs⟩ := romHolds_of_reach hge h
  refine ⟨hs.safe, fun op hok hfit => ?_⟩
  obtain ⟨s', -, -, -, heq, -, hle⟩ := hs.step hok hfit
  exact ⟨s', heq, hle⟩

end Step

/-- `Ok`, for calls that do not wrap in the allocator. -/
def RomOp.okTest (s : RomState) : RomOp → Bool
  | .alloc op => callTest s.toAllocState op
  | _ => true

/-- `okTest` for calls that do not overflow at all. -/
def RomOp.fitTest (s : RomState) (op : RomOp) : Bool :=
  op.okTest s && match op with
    | .alloc _ => true
    | .reserve size | .confirm size => s.romEnd + size + (optionRomAlign - 1) < 2 ^ 32

theorem RomOp.okTest_ok (s : RomState) (op : RomOp) (h : op.okTest s = true) : op.Ok s := by
  cases op with
  | alloc op => exact (callTest_ok _ op h).1
  | _ => trivial

theorem RomOp.fitTest_ok (s : RomState) (op : RomOp) (h : op.fitTest s = true) :
    op.Ok s ∧ ¬ op.Overflows s := by
  simp only [RomOp.fitTest, Bool.and_eq_true] at h
  refine ⟨RomOp.okTest_ok s op h.1, ?_⟩
  cases op with
  | alloc op => exact (callTest_ok _ op h.1).2
  | reserve size => exact Nat.not_le.mpr (of_decide_eq_true h.2)
  | confirm size => exact Nat.not_le.mpr (of_decide_eq_true h.2)

/-- Runs of given calls, each of which passes the test `t`. -/
def runRom (zonelowBase : Nat) (t : RomState → RomOp → Bool) (s : RomState) :
    List RomOp → Option RomState
  | [] => some s
  | op :: ops =>
    if t s op then (op.run zonelowBase s).bind fun s' => runRom zonelowBase t s' ops else none

theorem RomReach.of_runRom (ht : ∀ s op, t s op = true → P s op) (h : RomReach zonelowBase P s)
    (hrun : runRom zonelowBase t s ops = some s') : RomReach zonelowBase P s' := by
  induction ops generalizing s with
  | nil =>
    cases hrun
    exact h
  | cons op ops ih =>
    simp only [runRom] at hrun
    split at hrun
    · rename_i hop
      obtain ⟨s₁, heq, hrun⟩ := Option.bind_eq_some_iff.mp hrun
      exact ih (h.step (ht s op hop) heq) hrun
    · exact absurd hrun (by simp)

/-- A temporary high region, and the low zone up to 0xef000. -/
def romSetup : Option RomState :=
  (runOps roomTest emptyZones [.add .tmpHigh 0x100000 0x200000, .add .low 0xe0010 0xef000]).map
    fun a => ⟨a, buildRomStart, findLast a.mem .low⟩

theorem romStart_setup (h : romSetup = some s) : RomStart 0xe0000 s := by
  obtain ⟨a, ha, rfl⟩ := Option.map_eq_some_iff.mp h
  have hregions : (runOps roomTest emptyZones
      [.add .tmpHigh 0x100000 0x200000, .add .low 0xe0010 0xef000]).map
        (fun a => a.regions.filter fun r => r.1 = .low) = some [(.low, 0xe0010, 0xef000)] := by
    decide +kernel
  rw [ha, Option.map_some] at hregions
  exact ⟨⟨_, fun _ => rfl, .of_runOps roomTest_ok ha⟩, ⟨_, Option.some.inj hregions⟩, rfl, rfl⟩

theorem rom_area_safe_two : ∃ s : RomState, s.romEnd = 0xe8000 ∧
    s.live = [⟨.low, 0xee000, 0x1000, 16⟩] ∧ RomSafe s := by
  have hrun : (romSetup.bind fun s => runRom 0xe0000 RomOp.fitTest s [.confirm 0x20000,
      .alloc (.malloc .low 0x1000 16), .confirm 0x8000, .alloc (.malloc .low 0x6000 16)]).map
        (fun s => (s.romEnd, s.live)) = some (0xe8000, [⟨.low, 0xee000, 0x1000, 16⟩]) := by
    decide +kernel
  obtain ⟨s', hs', heq⟩ := Option.map_eq_some_iff.mp hrun
  obtain ⟨s, hs, hrun⟩ := Option.bind_eq_some_iff.mp hs'
  obtain ⟨hend, hlive⟩ := Prod.mk.inj heq
  exact ⟨s', hend, hlive, (rom_area_safe 0xe0000 (by decide) s'
    (.of_runRom RomOp.fitTest_ok (.start (romStart_setup hs)) hrun)).1⟩

/-- After a request for nearly 4 GiB the low zone starts below the option ROMs. -/
theorem rom_reserve_wraps : ¬ ∀ zonelowBase, buildRomStart ≤ zonelowBase → ∀ s : RomState,
    RomReach zonelowBase (fun s op => op.Ok s) s → RomSafe s := by
  have hrun : (romSetup.bind fun s => runRom 0xe0000 RomOp.okTest s [.confirm 0x20000,
      .confirm 0x8000, .reserve 0xfff20000, .alloc (.malloc .low 0xe000 16)]).map
        (fun s => (s.romEnd, s.live)) = some (0xe8000, [⟨.low, 0xe1000, 0xe000, 16⟩]) := by
    decide +kernel
  obtain ⟨s', hs', heq⟩ := Option.map_eq_some_iff.mp hrun
  obtain ⟨s, hs, hrun⟩ := Option.bind_eq_some_iff.mp hs'
  obtain ⟨hend, hlive⟩ := Prod.mk.inj heq
  intro hall
  have hsafe := hall 0xe0000 (by decide) s'
    (.of_runRom RomOp.okTest_ok (.start (romStart_setup hs)) hrun)
  have := hsafe.disjoint ⟨.low, 0xe1000, 0xe000, 16⟩ (by simp [hlive]) rfl
  rw [hend] at this
  exact absurd this (by decide)

end ItxLlama.Seabios
