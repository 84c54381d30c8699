import ItxLlama.Libpayload.HeapRegions

/-!
# Runs of libpayload's heap

Callers that free and resize what they have and write within it. Every state of
such a run has the invariant, as long as no call of `memalign` asks for a region
whose size wraps.
-/

namespace ItxLlama.Libpayload

open Lib.Bytes
open Lib.FirstFit
open Lib.Signed
open Lib.Word

/-- The heap with what its callers have. -/
structure World where
  state : State
  objs : List Obj
  als : List AObj

/-- A `size_t` has 32 bits. -/
inductive Op where
  | malloc (size : BitVec 32)
  | memalign (align size : BitVec 32)
  | free (o : Obj)
  | freeAligned (a : AObj)
  | realloc (o : Obj) (size : BitVec 32)
  | write (x : Nat) (v : Byte)

def Obj.Owns (o : Obj) (x : Nat) : Prop := o.addr ≤ x ∧ x < o.addr + o.len
def AObj.Owns (a : AObj) (x : Nat) : Prop := a.addr ≤ x ∧ x < a.addr + a.len

instance (o : Obj) (x : Nat) : Decidable (o.Owns x) := inferInstanceAs (Decidable (_ ∧ _))
instance (a : AObj) (x : Nat) : Decidable (a.Owns x) := inferInstanceAs (Decidable (_ ∧ _))

/-- A call on what a caller has. `fuel` is a bound on the regions that one call of
`memalign` adds. -/
def step (heap : Heap) (fuel : Nat) (w : World) : Op → Option World
  | .malloc size => do
    let (m, p) ← malloc heap w.state.mem size.toNat
    some { w with
      state := { w.state with mem := m }
      objs := p.elim w.objs fun p => ⟨p, size.toNat⟩ :: w.objs }
  | .memalign align size => do
    let (s, p) ← memalign heap fuel w.state align.toNat size.toNat
    some { w with state := s, als := withObject align.toNat size.toNat p w.als }
  | .free o => do
    guard (o ∈ w.objs)
    let s ← free heap w.state o.addr
    some { w with state := s, objs := w.objs.erase o }
  | .freeAligned a => do
    guard (a ∈ w.als)
    let s ← free heap w.state a.addr
    some { w with state := s, als := w.als.erase a }
  | .realloc o size => do
    guard (o ∈ w.objs)
    let (s, p) ← realloc heap w.state o.addr size.toNat
    some { w with
      state := s
      objs := p.elim (w.objs.erase o) fun p => ⟨p, size.toNat⟩ :: w.objs.erase o }
  | .write x v => do
    guard ((∃ o ∈ w.objs, o.Owns x) ∨ ∃ a ∈ w.als, a.Owns x)
    some { w with state := { w.state with mem := Function.update w.state.mem x v } }

/-- The alignment is a power of two and the size of the region does not wrap. -/
def Op.Fits : Op → Prop
  | .memalign align size =>
    (∃ k, align.toNat = 2 ^ k) ∧ regionBytes align.toNat size.toNat < 2 ^ 32
  | _ => True

/-- The linker script leaves zeros in the heap. -/
def initial (m : Mem) : World := ⟨⟨m, []⟩, [], []⟩

inductive Reachable (heap : Heap) : World → Prop
  | initial (m : Mem) (h : hasMagic (le64 m heap.hstart) = false) : Reachable heap (initial m)
  | step {w w' : World} {op : Op} {fuel : Nat} (h : Reachable heap w) (hop : op.Fits)
      (hs : step heap fuel w op = some w') : Reachable heap w'

def run (heap : Heap) (fuel : Nat) (w : World) (ops : List Op) : Option World :=
  ops.foldlM (step heap fuel) w

def World.Inv (heap : Heap) (w : World) (bs : List Block) : Prop :=
  Libpayload.Inv heap w.state.mem w.state.regions w.objs w.als bs

variable {heap : Heap} {m m' : Mem} {regs : List Region} {objs : List Obj} {als : List AObj}
  {bs : List Block} {b : Block} {o : Obj} {a : AObj} {w w' : World} {op : Op}
  {dst src n k x fuel size : Nat}

-- ---------------------------------------------------------------------------
-- Writes
-- ---------------------------------------------------------------------------

theorem memcpy_other (h : x < dst ∨ dst + n ≤ x) : memcpy m dst src n x = m x := by
  induction n with
  | zero => rfl
  | succ n ih =>
    rw [memcpy, Function.update_of_ne (by omega)]
    exact ih (by omega)

/-- A copy that does not start above its source reads what was there. -/
theorem memcpy_get (h : dst ≤ src ∨ src + n ≤ dst) (hk : k < n) :
    memcpy m dst src n (dst + k) = m (src + k) := by
  induction n with
  | zero => omega
  | succ n ih =>
    rw [memcpy, Function.update_apply]
    split
    · obtain rfl : k = n := by omega
      exact memcpy_other (by omega)
    · exact ih (by omega) (by omega)

theorem Inv.write (h : Inv heap m regs objs als bs) (ho : o ∈ objs)
    (hout : ∀ x, ¬o.Owns x → m' x = m x) : Inv heap m' regs objs als bs := by
  obtain ⟨b, hb, haddr, hlen⟩ := h.large o ho
  have hfin : b.fin hdrSize = b.addr + hdrSize + b.size := rfl
  refine h.frame (h.holds.inside hb fun x hx => hout x ?_) fun r hr hcut x hlo hhi => hout x ?_
  · unfold Obj.Owns
    omega
  · rintro ⟨hlo', hhi'⟩
    have hne : r.alignment ≠ 0 → b.addr + hdrSize ≠ r.start := by
      intro halign
      rw [haddr]
      exact h.obj_ne_region ho hr (by simp [Region.blocks, halign])
    have hapart := (h.outside hb hr hne (by omega) (by omega : x < b.fin hdrSize)).2 hcut
    have hbytes := hcut.bytes
    omega

theorem Inv.write_aligned (h : Inv heap m regs objs als bs) (ha : a ∈ als)
    (hout : ∀ x, ¬a.Owns x → m' x = m x) : Inv heap m' regs objs als bs := by
  obtain ⟨r, hr, i, hin⟩ := h.inRegion a ha
  have hcut := hin.cut (h.placed r hr)
  obtain ⟨hlo, hhi⟩ := hin.range hcut
  have hlarge := hin.large
  have hbytes := hcut.bytes
  obtain ⟨b, hb, hstart, hfin⟩ := hcut.block
  refine h.frame (h.holds.inside hb fun x hx => hout x ?_) fun r' hr' hcut' x hlo' hhi' => hout x ?_
  · unfold AObj.Owns
    omega
  · rintro ⟨hxlo, hxhi⟩
    have hbytes' := hcut'.bytes
    by_cases heq : r' = r
    · subst heq
      omega
    · have hapart := h.region_apart hr' hr hcut' hcut heq
      omega

-- ---------------------------------------------------------------------------
-- realloc
-- ---------------------------------------------------------------------------

theorem Inv.realloc_eq (h : Inv heap m regs objs als bs) (ho : o ∈ objs) (size : Nat) :
    ∃ b ∈ used bs, b.addr + hdrSize = o.addr ∧ o.len ≤ b.size ∧ ∃ m₁,
      Holds heap m₁ (coalesce hdrSize none (release b.addr bs)) ∧
      (∀ x, ¬FreeHeader (release b.addr bs) x → m₁ x = m x) ∧
      Inv heap m₁ regs (objs.erase o) als (coalesce hdrSize none (release b.addr bs)) ∧
      realloc heap ⟨m, regs⟩ o.addr size = (alloc heap m₁ size).map fun (m₂, ret) =>
        match ret with
        | none => (⟨m₂, regs⟩, none)
        | some ret => (⟨if ret = o.addr then m₂ else memcpy m₂ ret o.addr (min b.size size), regs⟩,
          some ret) := by
  obtain ⟨b, hb, haddr, hlen, m₁, hfree, hholds, hframe⟩ := h.free_block ho
  have hstarted := h.holds.started hb
  have hm := h.holds
  rw [hstarted] at hm
  have hmem := (mem_used.mp hb).1
  have hsize := hm.size_lt hmem
  have hend := heap.hend_lt
  have hin := hm.bounds hmem
  have hfin : b.fin hdrSize = b.addr + hdrSize + b.size := rfl
  refine ⟨b, hb, haddr, hlen, m₁, hholds, hframe, h.free ho hb haddr hholds (kept_free hm hframe),
    ?_⟩
  have hptr : uint32 (o.addr - hdrSize : Int) = b.addr := by
    rw [← haddr, show ((b.addr + hdrSize : Nat) - hdrSize : Int) = b.addr by omega]
    exact uint32_eq (by omega)
  have hcount : (if b.size > size then size else b.size) = min b.size size := by
    split <;> omega
  have hu : u32 b.size = b.size := u32_eq (by omega)
  simp only [realloc, hptr, hm.headers b hmem, hasMagic_header hsize, sizeOf_header hsize, hu,
    hcount,
    not_true_eq_false, if_false, Option.bind_eq_bind]
  rw [hfree, Option.bind_some]
  cases alloc heap m₁ size with
  | none => rfl
  | some r =>
    obtain ⟨m₂, ret⟩ := r
    cases ret with
    | none => rfl
    | some ret =>
      simp only [Option.bind_some, Option.map_some]
      split <;> rfl

/-- The objects after a call of `realloc`. -/
def resized (objs : List Obj) (o : Obj) (size : Nat) (res : Option Nat) : List Obj :=
  res.elim (objs.erase o) fun p => ⟨p, size⟩ :: objs.erase o

theorem Inv.realloc (h : Inv heap m regs objs als bs) (ho : o ∈ objs) (hsize : size < 2 ^ 32)
    {s' : State} {res : Option Nat}
    (hr : Libpayload.realloc heap ⟨m, regs⟩ o.addr size = some (s', res)) :
    ∃ bs', Inv heap s'.mem s'.regions (resized objs o size res) als bs' := by
  obtain ⟨b, hb, haddr, hlen, m₁, hholds, hframe, h₁, heq⟩ := h.realloc_eq ho size
  rw [heq] at hr
  obtain ⟨⟨m₂, ret⟩, halloc, hres⟩ := Option.map_eq_some_iff.mp hr
  cases ret with
  | none =>
    cases hres
    exact ⟨_, (h₁.alloc_none halloc).1⟩
  | some ret =>
    cases hres
    obtain ⟨bs', h₂, -⟩ := h₁.alloc_some hsize halloc
    refine ⟨bs', ?_⟩
    dsimp only
    split
    · exact h₂
    · refine h₂.write List.mem_cons_self fun x hx => memcpy_other ?_
      simp only [Obj.Owns] at hx
      omega

-- ---------------------------------------------------------------------------
-- Runs
-- ---------------------------------------------------------------------------

theorem inv_initial (hmagic : hasMagic (le64 m heap.hstart) = false) :
    (initial m).Inv heap [whole heap] where
  holds := holds_whole hmagic
  owned := .refl _
  large := List.forall_mem_nil _
  placed := List.forall_mem_nil _
  inRegion := List.forall_mem_nil _
  apart := .nil

theorem guard_some {p : Prop} [Decidable p] {u : Unit} (h : guard p = some u) : p := by
  by_contra hp
  rw [guard, if_neg hp] at h
  cases h

theorem inv_step (h : w.Inv heap bs) (hop : op.Fits) (hs : step heap fuel w op = some w') :
    ∃ bs', w'.Inv heap bs' := by
  cases op with
  | malloc size =>
    rw [step, Option.bind_eq_bind, Option.bind_eq_some_iff] at hs
    obtain ⟨⟨m, p⟩, halloc, heq⟩ := hs
    cases heq
    cases p with
    | none => exact ⟨bs, (h.alloc_none halloc).1⟩
    | some p =>
      obtain ⟨bs', h', -⟩ := h.alloc_some size.isLt halloc
      exact ⟨bs', h'⟩
  | memalign align size =>
    obtain ⟨hpow, hwrap⟩ := hop
    rw [step, Option.bind_eq_bind, Option.bind_eq_some_iff] at hs
    obtain ⟨⟨s, p⟩, hm, heq⟩ := hs
    cases heq
    exact Inv.memalign h hpow hwrap hm
  | free o =>
    obtain ⟨_, hg, hs⟩ := Option.bind_eq_some_iff.mp hs
    obtain ⟨s, hfree, heq⟩ := Option.bind_eq_some_iff.mp hs
    cases heq
    have ho := guard_some hg
    obtain ⟨b, hb, haddr, -, m', hfree', hholds, hframe⟩ := Inv.free_block h ho
    rw [hfree'] at hfree
    cases hfree
    have hm := h.holds
    rw [hm.started hb] at hm
    exact ⟨_, Inv.free h ho hb haddr hholds (kept_free hm hframe)⟩
  | freeAligned a =>
    obtain ⟨_, hg, hs⟩ := Option.bind_eq_some_iff.mp hs
    obtain ⟨s, hfree, heq⟩ := Option.bind_eq_some_iff.mp hs
    cases heq
    obtain ⟨m', regs', hfree', h', -⟩ := Inv.free_aligned h (guard_some hg)
    rw [hfree'] at hfree
    cases hfree
    exact ⟨bs, h'⟩
  | realloc o size =>
    obtain ⟨_, hg, hs⟩ := Option.bind_eq_some_iff.mp hs
    obtain ⟨⟨s, p⟩, hr, heq⟩ := Option.bind_eq_some_iff.mp hs
    cases heq
    exact Inv.realloc h (guard_some hg) size.isLt hr
  | write x v =>
    obtain ⟨_, hg, heq⟩ := Option.bind_eq_some_iff.mp hs
    cases heq
    refine ⟨bs, ?_⟩
    rcases guard_some hg with ⟨o, ho, hown⟩ | ⟨a, ha, hown⟩
    · refine Inv.write h ho fun y hy => Function.update_of_ne ?_ _ _
      rintro rfl
      exact hy hown
    · refine Inv.write_aligned h ha fun y hy => Function.update_of_ne ?_ _ _
      rintro rfl
      exact hy hown

theorem Reachable.inv (h : Reachable heap w) : ∃ bs, w.Inv heap bs := by
  induction h with
  | initial m hmagic => exact ⟨_, inv_initial hmagic⟩
  | step _ hop hs ih =>
    obtain ⟨bs, hinv⟩ := ih
    exact inv_step hinv hop hs

theorem Reachable.run (h : Reachable heap w) {ops : List Op} (hops : ∀ op ∈ ops, op.Fits)
    (hr : run heap fuel w ops = some w') : Reachable heap w' := by
  induction ops generalizing w with
  | nil =>
    cases hr
    exact h
  | cons op ops ih =>
    obtain ⟨hop, hops⟩ := List.forall_mem_cons.mp hops
    rw [Libpayload.run, List.foldlM_cons, Option.bind_eq_bind, Option.bind_eq_some_iff] at hr
    obtain ⟨w₁, hs, hr⟩ := hr
    exact ih (h.step hop hs) hops hr

-- ---------------------------------------------------------------------------
-- The heap in every state
-- ---------------------------------------------------------------------------

/-- The ranges of all objects, with the lengths that were asked for. -/
def World.ranges (w : World) : List (Nat × Nat) :=
  w.objs.map (fun o => (o.addr, o.len)) ++ w.als.map fun a => (a.addr, a.len)

def RangesApart (r s : Nat × Nat) : Prop := r.1 + r.2 ≤ s.1 ∨ s.1 + s.2 ≤ r.1

/-- The headers cut up the heap, objects lie in it and apart, and the blocks in use
are objects from `malloc` or belong to regions. Where neither is left, neither is
any block but one free one. -/
structure Sound (heap : Heap) (w : World) (bs : List Block) : Prop where
  cut : Cut hdrSize heap.hstart bs heap.hend
  headers : Headers (ready heap w.state.mem) bs
  settled : Settled bs
  inside : ∀ r ∈ w.ranges, heap.hstart ≤ r.1 ∧ r.1 + r.2 ≤ heap.hend
  apart : w.ranges.Pairwise RangesApart
  aligned : ∀ a ∈ w.als, a.align ∣ a.addr
  regions : w.objs = [] → ∀ b ∈ used bs, ∃ r ∈ w.state.regions, b.addr + hdrSize ∈ r.blocks
  whole : w.objs = [] → w.state.regions = [] → bs = [whole heap]

theorem Inv.owns (h : Inv heap m regs objs als bs) (ho : o ∈ objs) :
    ∃ b ∈ used bs, b.addr + hdrSize = o.addr ∧ o.addr + o.len ≤ b.fin hdrSize := by
  obtain ⟨b, hb, haddr, hlen⟩ := h.large o ho
  refine ⟨b, hb, haddr, ?_⟩
  simp only [Block.fin]
  omega

theorem Inv.owns_aligned (h : Inv heap m regs objs als bs) (ha : a ∈ als) :
    ∃ b ∈ used bs, b.addr + hdrSize ≤ a.addr ∧ a.addr + a.len ≤ b.fin hdrSize ∧
      a.align ∣ a.addr ∧ ∀ o ∈ objs, b.addr + hdrSize ≠ o.addr := by
  obtain ⟨r, hr, i, hin⟩ := h.inRegion a ha
  have hcut := hin.cut (h.placed r hr)
  obtain ⟨hlo, hhi⟩ := hin.range hcut
  have hlarge := hin.large
  have hbytes := hcut.bytes
  obtain ⟨b, hb, hstart, hfin⟩ := hcut.block
  refine ⟨b, hb, by omega, by omega, ?_, fun o ho heq => ?_⟩
  · rw [hin.addr_eq, ← hin.align_eq]
    exact (Nat.dvd_add_right hcut.dvd).mpr (Nat.dvd_mul_right _ _)
  · refine h.obj_ne_region ho hr ?_ (heq.symm.trans hstart)
    simp [Region.blocks, Nat.ne_of_gt hcut.align_pos]

theorem World.Inv.ranges_apart (h : w.Inv heap bs) : w.ranges.Pairwise RangesApart := by
  have hcut := h.holds.wf.cut
  -- ranges in different blocks
  have hblocks {b c : Block} (hb : b ∈ used bs) (hc : c ∈ used bs) (hne : b ≠ c) {r s : Nat × Nat}
      (hr : b.addr + hdrSize ≤ r.1 ∧ r.1 + r.2 ≤ b.fin hdrSize)
      (hs : c.addr + hdrSize ≤ s.1 ∧ s.1 + s.2 ≤ c.fin hdrSize) : RangesApart r s := by
    have hapart := cut_apart hcut (mem_used.mp hb).1 (mem_used.mp hc).1 hne
    unfold RangesApart
    omega
  refine List.pairwise_append.mpr ⟨?_, ?_, ?_⟩
  · have hnodup : (w.objs.map Obj.addr).Nodup := (List.nodup_append.mp h.nodup).1
    refine List.pairwise_map.mpr ((List.pairwise_map.mp hnodup).imp_of_mem fun ho ho' hne => ?_)
    obtain ⟨b, hb, haddr, hfin⟩ := Inv.owns h ho
    obtain ⟨c, hc, haddr', hfin'⟩ := Inv.owns h ho'
    refine hblocks hb hc ?_ ⟨Nat.le_of_eq haddr, hfin⟩ ⟨Nat.le_of_eq haddr', hfin'⟩
    rintro rfl
    exact hne (haddr.symm.trans haddr')
  · refine List.pairwise_map.mpr (h.apart.imp_of_mem fun {a a'} ha ha' hapart => ?_)
    obtain ⟨r, hr, i, hin⟩ := h.inRegion a ha
    obtain ⟨r', hr', j, hin'⟩ := h.inRegion a' ha'
    have hlarge := hin.large
    have hlarge' := hin'.large
    unfold AObj.Apart at hapart
    simp only [RangesApart]
    omega
  · intro r hr s hs
    obtain ⟨o, ho, rfl⟩ := List.mem_map.mp hr
    obtain ⟨a, ha, rfl⟩ := List.mem_map.mp hs
    obtain ⟨b, hb, haddr, hfin⟩ := Inv.owns h ho
    obtain ⟨c, hc, hlo, hhi, -, hne⟩ := Inv.owns_aligned h ha
    refine hblocks hb hc ?_ ⟨Nat.le_of_eq haddr, hfin⟩ ⟨hlo, hhi⟩
    rintro rfl
    exact hne o ho haddr

/-- A settled list without a block in use is one free block. -/
theorem Holds.eq_whole (h : Holds heap m bs) (hused : used bs = []) : bs = [whole heap] := by
  have hfree : ∀ b ∈ bs, b.free = true := fun b hb => by
    by_contra hne
    have hmem : b ∈ used bs := mem_used.mpr ⟨hb, by simpa using hne⟩
    rw [hused] at hmem
    cases hmem
  match bs, h.ne_nil with
  | [b], _ =>
    obtain ⟨haddr, -, hfin⟩ := h.wf.cut
    have hb := hfree b List.mem_cons_self
    have hsize : b.size = heap.hend - heap.hstart - hdrSize := by
      simp only [Block.fin, Lib.Tiling.tiles_nil] at hfin
      omega
    rw [Libpayload.whole, ← hsize, ← haddr, ← hb]
  | b :: c :: bs, _ =>
    have hc := (List.isChain_cons_cons.mp h.wf.settled).1 (hfree b (by simp))
    rw [hfree c (by simp)] at hc
    cases hc

theorem heap_sound (h : Reachable heap w) : ∃ bs, Sound heap w bs := by
  obtain ⟨bs, hinv⟩ := h.inv
  refine ⟨bs, ?_⟩
  have hblock {b : Block} (hb : b ∈ used bs) : heap.hstart ≤ b.addr ∧ b.fin hdrSize ≤ heap.hend :=
    hinv.holds.bounds (mem_used.mp hb).1
  constructor
  case cut => exact hinv.holds.wf.cut
  case headers => exact hinv.holds.headers
  case settled => exact hinv.holds.wf.settled
  case inside =>
    intro r hr
    rcases List.mem_append.mp hr with hr | hr
    · obtain ⟨o, ho, rfl⟩ := List.mem_map.mp hr
      obtain ⟨b, hb, haddr, hfin⟩ := Inv.owns hinv ho
      have := hblock hb
      simp only
      omega
    · obtain ⟨a, ha, rfl⟩ := List.mem_map.mp hr
      obtain ⟨b, hb, hlo, hhi, -⟩ := Inv.owns_aligned hinv ha
      have := hblock hb
      simp only
      omega
  case apart => exact hinv.ranges_apart
  case aligned =>
    intro a ha
    obtain ⟨-, -, -, -, hdvd, -⟩ := Inv.owns_aligned hinv ha
    exact hdvd
  case regions =>
    intro hnil b hb
    have hmem := hinv.owned.mem_iff.mp (List.mem_map_of_mem hb)
    rw [hnil, List.map_nil, List.nil_append] at hmem
    exact List.mem_flatMap.mp hmem
  case whole =>
    intro hnil hregs
    have howned := hinv.owned
    rw [hnil, hregs, List.map_nil, List.flatMap_nil, List.append_nil] at howned
    exact hinv.holds.eq_whole (List.map_eq_nil_iff.mp howned.eq_nil)

def smallHeap : Heap := ⟨0x1000, 0x2000, by decide, by decide, by decide⟩

/-- A region behind a block that is freed. -/
def dividedOps : List Op := [.malloc 16, .memalign 16 16, .free ⟨0x1008, 16⟩]

theorem divided_isSome :
    (run smallHeap 1 (initial fun _ => 0) dividedOps).isSome := by decide +kernel

def divided : World := (run smallHeap 1 (initial fun _ => 0) dividedOps).get divided_isSome

theorem divided_reachable : Reachable smallHeap divided := by
  have hrun : run smallHeap 1 (initial fun _ => 0) dividedOps = some divided :=
    (Option.some_get divided_isSome).symm
  have hfits : (Op.memalign 16 16).Fits := ⟨⟨4, rfl⟩, by decide⟩
  refine (Reachable.initial _ (by decide)).run ?_ hrun
  exact List.forall_mem_cons.mpr ⟨trivial, List.forall_mem_cons.mpr ⟨hfits,
    List.forall_mem_singleton.mpr trivial⟩⟩

theorem heap_sound_divided : ∃ bs, Sound smallHeap divided bs := heap_sound divided_reachable

/-- What is free is not one block, though nothing from `malloc` is left. -/
theorem divided_free : divided.objs = [] ∧ ∃ bs, Holds smallHeap divided.state.mem bs ∧
    bs.filter Block.free = [⟨0x1000, 16, true⟩, ⟨0x14b0, 2888, true⟩] := by
  refine ⟨by decide +kernel, [⟨0x1000, 16, true⟩, ⟨0x1018, 24, false⟩, ⟨0x1038, 24, false⟩,
    ⟨0x1058, 1104, false⟩, ⟨0x14b0, 2888, true⟩], ⟨⟨?_, by decide, ?_⟩, ?_⟩, by decide⟩
  · simp [Cut, Block.fin, hdrSize, smallHeap]
  · simp [Settled]
  · unfold Headers
    decide +kernel

end ItxLlama.Libpayload
