import ItxLlama.Libpayload.HeapBlocks
import Mathlib.Data.List.Nodup
import Mathlib.Data.List.Perm.Basic

/-!
# The objects in libpayload's heap

Who holds what: a block in use is an object from `malloc`, or keeps the record
or the space of a region of `memalign`, and the objects of a region are runs of
its elements. `Inv` is what every call keeps of that.
-/

namespace ItxLlama.Libpayload

open Lib.Bytes
open Lib.FirstFit
open Lib.Signed
open Lib.Word

/-- What a caller has from `malloc` or `realloc`. -/
structure Obj where
  addr : Nat
  len : Nat
  deriving DecidableEq

/-- What a caller has from `memalign`. -/
structure AObj where
  addr : Nat
  len : Nat
  align : Nat
  deriving DecidableEq

/-- How many elements of its region it takes. -/
def AObj.count (o : AObj) : Nat := target o.align o.len

/-- All of a region but the number of its free elements. -/
def Region.geometry (r : Region) : Region := { r with free := 0 }

/-- How many elements there are. -/
def Region.num (r : Region) : Nat := r.size / r.alignment

/-- The blocks that a region has; the first record of the list has no space. -/
def Region.blocks (r : Region) : List Nat := if r.alignment = 0 then [r.addr] else [r.addr, r.start]

/-- A region with space is in a block in use, its bytes before its elements. -/
structure Region.Cut (bs : List Block) (r : Region) : Prop where
  pow : ∃ k, r.alignment = 2 ^ k
  dvd : r.alignment ∣ r.startData
  size_eq : r.size = r.num * r.alignment
  bytes : r.start + r.num ≤ r.startData
  block : ∃ b ∈ used bs, b.addr + hdrSize = r.start ∧ r.startData + r.size ≤ b.fin hdrSize

def Region.Placed (bs : List Block) (r : Region) : Prop :=
  r.alignment = 0 ∧ r.size = 0 ∨ r.Cut bs

/-- The object is the elements from `i` on, and their bytes say so. -/
structure InRegion (m : Mem) (r : Region) (o : AObj) (i : Nat) : Prop where
  align_eq : r.alignment = o.align
  addr_eq : o.addr = r.startData + r.alignment * i
  pos : 0 < o.count
  large : o.len ≤ o.align * o.count
  fits : i + o.count ≤ r.num
  run : ∀ j < o.count - 1, m (r.start + i + j) = 2
  last : m (r.start + i + (o.count - 1)) = 1

def AObj.Apart (o o' : AObj) : Prop :=
  o.addr + o.align * o.count ≤ o'.addr ∨ o'.addr + o'.align * o'.count ≤ o.addr

variable {heap : Heap} {m m' : Mem} {regs regs' : List Region} {objs : List Obj} {als : List AObj}
  {bs bs' : List Block} {b c : Block} {r : Region} {o : Obj} {a : AObj} {len ptr x i : Nat}

structure Inv (heap : Heap) (m : Mem) (regs : List Region) (objs : List Obj) (als : List AObj)
    (bs : List Block) : Prop where
  holds : Holds heap (ready heap m) bs
  owned : ((used bs).map fun b => b.addr + hdrSize).Perm
    (objs.map Obj.addr ++ regs.flatMap Region.blocks)
  large : ∀ o ∈ objs, ∃ b ∈ used bs, b.addr + hdrSize = o.addr ∧ o.len ≤ b.size
  placed : ∀ r ∈ regs, r.Placed bs
  inRegion : ∀ a ∈ als, ∃ r ∈ regs, ∃ i, InRegion m r a i
  apart : als.Pairwise AObj.Apart

/-- The contents of the blocks in use are the same. -/
def Kept (bs : List Block) (m m' : Mem) : Prop :=
  ∀ b ∈ used bs, ∀ x, b.addr + hdrSize ≤ x → x < b.fin hdrSize → m' x = m x

-- ---------------------------------------------------------------------------
-- Blocks and owners
-- ---------------------------------------------------------------------------

theorem Holds.started (h : Holds heap (ready heap m) bs) (hb : b ∈ used bs) : ready heap m = m := by
  cases hmagic : hasMagic (le64 m heap.hstart) with
  | true => exact if_pos hmagic
  | false =>
    rw [h.unique (holds_whole hmagic)] at hb
    simp [used, whole] at hb

theorem Holds.nodup (h : Holds heap m bs) : ((used bs).map fun b => b.addr + hdrSize).Nodup := by
  have hpair := (Lib.Tiling.Tiles.pairwise h.wf.cut).sublist (List.filter_sublist (p := fun b => !b.free))
  refine List.Pairwise.map _ (fun b c hbc => ?_) hpair
  simp only [Block.fin, hdrSize] at hbc ⊢
  omega

theorem Inv.nodup (h : Inv heap m regs objs als bs) :
    (objs.map Obj.addr ++ regs.flatMap Region.blocks).Nodup :=
  h.owned.nodup_iff.mp h.holds.nodup

theorem Inv.obj_ne_region (h : Inv heap m regs objs als bs) (ho : o ∈ objs) (hr : r ∈ regs)
    (hx : x ∈ r.blocks) : o.addr ≠ x := by
  have hdisj := (List.nodup_append.mp h.nodup).2.2
  exact hdisj _ (List.mem_map_of_mem ho) _ (List.mem_flatMap_of_mem hr hx)

-- ---------------------------------------------------------------------------
-- Regions and memory
-- ---------------------------------------------------------------------------

theorem InRegion.cut (h : InRegion m r a i) (hp : r.Placed bs) : r.Cut bs := by
  rcases hp with ⟨halign, hsize⟩ | hcut
  · have hfits := h.fits
    have hpos := h.pos
    rw [Region.num, halign, Nat.div_zero] at hfits
    omega
  · exact hcut

theorem InRegion.frame (h : InRegion m r a i)
    (hbytes : ∀ x, r.start ≤ x → x < r.start + r.num → m' x = m x) : InRegion m' r a i := by
  have hfits := h.fits
  have hpos := h.pos
  refine { h with run := fun j hj => ?_, last := ?_ }
  · rw [hbytes _ (by omega) (by omega)]
    exact h.run j hj
  · rw [hbytes _ (by omega) (by omega)]
    exact h.last

theorem Region.Cut.kept (hr : r.Cut bs) (hk : Kept bs m m') (hlo : r.start ≤ x)
    (hhi : x < r.start + r.num) : m' x = m x := by
  obtain ⟨b, hb, hstart, hfin⟩ := hr.block
  have := hr.bytes
  exact hk b hb x (by omega) (by omega)

theorem Region.Placed.mono (hr : r.Placed bs)
    (hsub : ∀ b ∈ used bs, r.alignment ≠ 0 → b.addr + hdrSize = r.start → b ∈ used bs') :
    r.Placed bs' := by
  rcases hr with hdummy | hcut
  · exact .inl hdummy
  · obtain ⟨b, hb, hstart, hfin⟩ := hcut.block
    obtain ⟨k, hk⟩ := hcut.pow
    have hne : r.alignment ≠ 0 := by
      rw [hk]
      exact Nat.ne_of_gt (Nat.two_pow_pos k)
    exact .inr { hcut with block := ⟨b, hsub b hb hne hstart, hstart, hfin⟩ }

theorem Inv.frame (h : Inv heap m regs objs als bs) (hholds : Holds heap (ready heap m') bs)
    (hbytes : ∀ r ∈ regs, r.Cut bs → ∀ x, r.start ≤ x → x < r.start + r.num → m' x = m x) :
    Inv heap m' regs objs als bs :=
  { h with
    holds := hholds
    inRegion := fun a ha => by
      obtain ⟨r, hr, i, hin⟩ := h.inRegion a ha
      exact ⟨r, hr, i, hin.frame (hbytes r hr (hin.cut (h.placed r hr)))⟩ }

theorem kept_ready (h : Holds heap (ready heap m) bs) : Kept bs m (ready heap m) := by
  intro b hb x hlo _
  have := (h.bounds (mem_used.mp hb).1).1
  exact ready_other (.inr (by omega))

theorem kept_refl : Kept bs m m := fun _ _ _ _ _ => rfl

-- ---------------------------------------------------------------------------
-- malloc
-- ---------------------------------------------------------------------------

theorem Inv.alloc_none (h : Inv heap m regs objs als bs) (ha : alloc heap m len = some (m', none)) :
    Inv heap m' regs objs als bs ∧ Kept bs m m' := by
  rcases Libpayload.alloc_none h.holds ha with rfl | rfl
  · exact ⟨h, kept_refl⟩
  · have hk := kept_ready h.holds
    exact ⟨h.frame (by rw [h.holds.ready_eq]; exact h.holds) fun r _ hr x => hr.kept hk, hk⟩

theorem Inv.alloc_some (h : Inv heap m regs objs als bs) (hlen : len < 2 ^ 32)
    (ha : alloc heap m len = some (m', some ptr)) :
    ∃ bs', Inv heap m' regs (⟨ptr, len⟩ :: objs) als bs' ∧ Holds heap m' bs' ∧ Kept bs m m' ∧
      ∀ b ∈ used bs, b ∈ used bs' := by
  obtain ⟨b, bs', hserved, hf, rfl, rfl⟩ := Libpayload.alloc_some h.holds ha
  obtain ⟨pre, post, hbs, -, hfree, hle, -⟩ := firstFit_some hf
  have hb : b ∈ bs := hbs ▸ List.mem_append_right _ List.mem_cons_self
  have hholds := h.holds.take hserved.1 hf
  have hperm := used_firstFit hf
  have hsub : ∀ c ∈ used bs, c ∈ used bs' := fun c hc =>
    hperm.mem_iff.mpr (List.mem_cons_of_mem _ hc)
  have hkept : Kept bs m (take (ready heap m) (alignLen len) b) := by
    intro c hc x hlo hhi
    have hne : c ≠ b := by
      rintro rfl
      exact absurd ((mem_used.mp hc).2.symm.trans hfree) (by decide)
    have hapart := cut_apart h.holds.wf.cut (mem_used.mp hc).1 hb hne
    rw [take_other hle (by omega)]
    exact kept_ready h.holds c hc x hlo hhi
  refine ⟨bs', ?_, hholds, hkept, hsub⟩
  constructor
  case holds => rwa [hholds.ready_eq]
  case owned => exact (hperm.map _).trans (h.owned.cons _)
  case large =>
    refine List.forall_mem_cons.mpr ⟨⟨_, hperm.mem_iff.mpr List.mem_cons_self, rfl, ?_⟩, fun o ho => ?_⟩
    · have := le_alignLen hlen (Nat.ne_of_gt hserved.1)
      simp only [taken]
      split <;> omega
    · obtain ⟨c, hc, haddr, hlarge⟩ := h.large o ho
      exact ⟨c, hsub c hc, haddr, hlarge⟩
  case placed => exact fun r hr => (h.placed r hr).mono fun c hc _ _ => hsub c hc
  case inRegion =>
    intro a ha
    obtain ⟨r, hr, i, hin⟩ := h.inRegion a ha
    exact ⟨r, hr, i, hin.frame fun x => (hin.cut (h.placed r hr)).kept hkept⟩
  case apart => exact h.apart

-- ---------------------------------------------------------------------------
-- free
-- ---------------------------------------------------------------------------

theorem freeAligned_false
    (h : ∀ r ∈ regs, ¬(r.startData ≤ ptr ∧ ptr < u32 (r.startData + r.size))) :
    freeAligned m ptr regs = some (m, regs, false) := by
  induction regs with
  | nil => rfl
  | cons r regs ih =>
    obtain ⟨hr, hregs⟩ := List.forall_mem_cons.mp h
    rw [freeAligned, if_neg hr, ih hregs]
    rfl

theorem Inv.region_end (h : Inv heap m regs objs als bs) (hr : r.Cut bs) :
    u32 (r.startData + r.size) = r.startData + r.size := by
  obtain ⟨b, hb, -, hfin⟩ := hr.block
  have hin := h.holds.bounds (mem_used.mp hb).1
  have hend := heap.hend_lt
  exact u32_eq (by omega)

theorem Inv.outside (h : Inv heap m regs objs als bs) (hb : b ∈ used bs) (hr : r ∈ regs)
    (hne : r.alignment ≠ 0 → b.addr + hdrSize ≠ r.start) (hlo : b.addr + hdrSize ≤ x)
    (hhi : x < b.fin hdrSize) : ¬(r.startData ≤ x ∧ x < u32 (r.startData + r.size)) ∧
      (r.Cut bs → ¬(r.start ≤ x ∧ x < r.startData + r.size)) := by
  have hcutout (hcut : r.Cut bs) : ¬(r.start ≤ x ∧ x < r.startData + r.size) := by
    obtain ⟨c, hc, hstart, hfin⟩ := hcut.block
    obtain ⟨k, hk⟩ := hcut.pow
    have halign : r.alignment ≠ 0 := by
      rw [hk]
      exact Nat.ne_of_gt (Nat.two_pow_pos k)
    have hbc : b ≠ c := by
      rintro rfl
      exact hne halign hstart
    have hapart := cut_apart h.holds.wf.cut (mem_used.mp hb).1 (mem_used.mp hc).1 hbc
    simp only [hdrSize] at *
    omega
  refine ⟨?_, hcutout⟩
  rcases h.placed r hr with ⟨-, hsize⟩ | hcut
  · rw [hsize, Nat.add_zero]
    have : u32 r.startData ≤ r.startData := Nat.mod_le _ _
    omega
  · rw [h.region_end hcut]
    have hbytes := hcut.bytes
    have := hcutout hcut
    omega

theorem Inv.not_aligned (h : Inv heap m regs objs als bs) (ho : o ∈ objs) :
    freeAligned m o.addr regs = some (m, regs, false) := by
  obtain ⟨b, hb, haddr, -⟩ := h.large o ho
  have hpos := h.holds.wf.pos b (mem_used.mp hb).1
  refine freeAligned_false fun r hr => (h.outside hb hr (fun halign => ?_) (by omega) ?_).1
  · rw [haddr]
    exact h.obj_ne_region ho hr (by simp [Region.blocks, halign])
  · simp only [Block.fin]
    omega

/-- The block of an object is given back: what is left of the list, and what is
written on the way. -/
theorem Inv.free_block (h : Inv heap m regs objs als bs) (ho : o ∈ objs) :
    ∃ b ∈ used bs, b.addr + hdrSize = o.addr ∧ o.len ≤ b.size ∧ ∃ m',
      free heap ⟨m, regs⟩ o.addr = some ⟨m', regs⟩ ∧
      Holds heap m' (coalesce hdrSize none (release b.addr bs)) ∧
      ∀ x, ¬FreeHeader (release b.addr bs) x → m' x = m x := by
  obtain ⟨b, hb, haddr, hlarge⟩ := h.large o ho
  have hstarted := h.holds.started hb
  have hholds := h.holds
  rw [hstarted] at hholds
  refine ⟨b, hb, haddr, hlarge, ?_⟩
  rw [← haddr]
  exact free_eq hholds hb (haddr ▸ h.not_aligned ho)

theorem kept_free (h : Holds heap m bs)
    (hframe : ∀ x, ¬FreeHeader (release b.addr bs) x → m' x = m x) :
    Kept bs m m' := by
  intro c hc x hlo hhi
  refine hframe x ?_
  rintro ⟨d, hd, -, hdlo, hdhi⟩
  obtain ⟨e, he, haddr, -, -⟩ := mem_release hd
  have hc' := (mem_used.mp hc).1
  by_cases heq : c = e
  · subst heq
    omega
  · have hapart := cut_apart h.wf.cut hc' he heq
    simp only [Block.fin, hdrSize] at *
    omega

theorem Inv.free (h : Inv heap m regs objs als bs) (ho : o ∈ objs) (hb : b ∈ used bs)
    (haddr : b.addr + hdrSize = o.addr)
    (hholds : Holds heap m' (coalesce hdrSize none (release b.addr bs))) (hkept : Kept bs m m') :
    Inv heap m' regs (objs.erase o) als (coalesce hdrSize none (release b.addr bs)) := by
  have hused : used (coalesce hdrSize none (release b.addr bs)) = (used bs).erase b := by
    rw [used_give_back, List.Nodup.erase_eq_filter (List.Nodup.of_map _ h.holds.nodup)]
    refine List.filter_congr fun c hc => ?_
    have hiff : c.addr ≠ b.addr ↔ c ≠ b :=
      not_congr ⟨h.holds.addr_inj (mem_used.mp hc).1 (mem_used.mp hb).1, congrArg Block.addr⟩
    rw [Bool.eq_iff_iff, decide_eq_true_iff, bne_iff_ne]
    exact hiff
  have hkeep (c : Block) (hc : c ∈ used bs) (hne : c.addr + hdrSize ≠ o.addr) :
      c ∈ used (coalesce hdrSize none (release b.addr bs)) := by
    rw [hused]
    refine (List.mem_erase_of_ne ?_).mpr hc
    rintro rfl
    exact hne haddr
  constructor
  case holds => rwa [hholds.ready_eq]
  case owned =>
    rw [hused]
    have hobjs : (objs.map Obj.addr ++ regs.flatMap Region.blocks).Perm
        (o.addr :: ((objs.erase o).map Obj.addr ++ regs.flatMap Region.blocks)) :=
      ((List.perm_cons_erase ho).map Obj.addr).append_right _
    have hblocks := (List.perm_cons_erase hb).map fun c => c.addr + hdrSize
    rw [List.map_cons, haddr] at hblocks
    exact (hblocks.symm.trans (h.owned.trans hobjs)).cons_inv
  case large =>
    intro o' ho'
    obtain ⟨c, hc, haddr', hlarge⟩ := h.large o' (List.mem_of_mem_erase ho')
    refine ⟨c, hkeep c hc ?_, haddr', hlarge⟩
    have hnodup : (objs.map Obj.addr).Nodup := (List.nodup_append.mp h.nodup).1
    have herase := ((List.perm_cons_erase ho).map Obj.addr).nodup_iff.mp hnodup
    rw [haddr']
    intro heq
    exact (List.nodup_cons.mp herase).1 (heq ▸ List.mem_map_of_mem ho')
  case placed =>
    intro r hr
    refine (h.placed r hr).mono fun c hc halign hstart => hkeep c hc ?_
    rw [hstart]
    exact (h.obj_ne_region ho hr (by simp [Region.blocks, halign])).symm
  case inRegion =>
    intro a ha
    obtain ⟨r, hr, i, hin⟩ := h.inRegion a ha
    exact ⟨r, hr, i, hin.frame fun x => (hin.cut (h.placed r hr)).kept hkept⟩
  case apart => exact h.apart

end ItxLlama.Libpayload
