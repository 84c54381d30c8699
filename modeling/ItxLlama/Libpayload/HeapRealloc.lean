import ItxLlama.Libpayload.HeapRuns

/-!
# What realloc keeps

`realloc` frees first, and copies from memory that is free by then. A block that
cannot be had is lost with the old one, and where the old block is joined to a
free one before it, the header of what is left over can land in the old data.
-/

namespace ItxLlama.Libpayload

open Lib.Bytes
open Lib.FirstFit
open Lib.Word

/-- The size of the block that an object has. -/
def oldSize (w : World) (o : Obj) : Nat := sizeOf (le64 w.state.mem (o.addr - hdrSize))

/-- A block at `p` that is in use. -/
def LiveBlock (heap : Heap) (m : Mem) (p n : Nat) : Prop :=
  ∃ bs, Holds heap m bs ∧ ∃ c ∈ used bs, c.addr + hdrSize = p ∧ n ≤ c.size

/-- The contents of every object but `o` are what they were. -/
def OthersKept (w : World) (o : Obj) (m : Mem) : Prop :=
  (∀ o' ∈ w.objs.erase o, ∀ x, o'.Owns x → m x = w.state.mem x) ∧
    ∀ a ∈ w.als, ∀ x, a.Owns x → m x = w.state.mem x

/-- A live block of the new size with the old data, or none and the old block still live. -/
def KeepsData (heap : Heap) (w : World) (o : Obj) (n : Nat) : Prop :=
  ∃ s res, realloc heap w.state o.addr n = some (s, res) ∧ OthersKept w o s.mem ∧
    match res with
    | some p => LiveBlock heap s.mem p n ∧
      ∀ i < min (oldSize w o) n, s.mem (p + i) = w.state.mem (o.addr + i)
    | none => LiveBlock heap s.mem o.addr (oldSize w o) ∧
      ∀ i < oldSize w o, s.mem (o.addr + i) = w.state.mem (o.addr + i)

/-- What is left of `c` behind a block of `len` bytes. -/
def remainder (len : Nat) (c : Block) : Block :=
  ⟨c.addr + (hdrSize + len), c.size - (hdrSize + len), true⟩

/-- The `k` bytes at `o` get no header of a remainder, or one that they spell out already. -/
def Spares (m : Mem) (len : Nat) (c : Block) (o k : Nat) : Prop :=
  let r := remainder len c
  c.size ≤ hdrSize + len ∨ r.addr + hdrSize ≤ o ∨ o + k ≤ r.addr ∨
    ∀ j < hdrSize, o ≤ r.addr + j → r.addr + j < o + k →
      m (r.addr + j) = BitVec.ofNat 8 (header r >>> (8 * j))

/-- First fit finds a block once the old one is joined to its free neighbours, and the
header behind the new block stays clear of the data to be copied. -/
def ReallocFits (heap : Heap) (w : World) (o : Obj) (n : Nat) : Prop :=
  ∃ bs, Holds heap w.state.mem bs ∧ Served n ∧ ∃ c bs', firstFit hdrSize (alignLen n)
    (coalesce hdrSize none (release (o.addr - hdrSize) bs)) = some (c, bs') ∧
    Spares w.state.mem (alignLen n) c o.addr (min (oldSize w o) n)

variable {heap : Heap} {m m' : Mem} {regs : List Region} {objs : List Obj} {als : List AObj}
  {bs bs' : List Block} {b c : Block} {o : Obj} {w : World} {a k len n x : Nat}

theorem take_congr (h : m x = m' x) : take m len b x = take m' len b x := by
  have hset {m m' : Mem} {a v : Nat} (h : m x = m' x) : setHdr m a v x = setHdr m' a v x := by
    unfold setHdr Lib.Stores.Store.run
    split
    · rfl
    · exact h
  unfold take
  split
  · exact hset (hset h)
  · exact hset h

theorem take_spares_iff (hapart : c.addr + hdrSize ≤ a ∨ a + k ≤ c.addr) :
    (∀ i < k, take m len c (a + i) = m (a + i)) ↔ Spares m len c a k := by
  have hown (i : Nat) (hi : i < k) (v : Nat) : setHdr m c.addr v (a + i) = m (a + i) :=
    setHdr_other (by omega)
  have haddr : (remainder len c).addr = c.addr + (hdrSize + len) := rfl
  unfold take
  split
  case isFalse hfull => exact iff_of_true (fun i hi => hown i hi _) (.inl (Nat.le_of_not_lt hfull))
  case isTrue hroom =>
  constructor
  · intro h
    refine .inr (.inr (.inr fun j hj hlo hhi => ?_))
    have hbyte := h ((remainder len c).addr + j - a) (by omega)
    rw [Nat.add_sub_cancel' hlo] at hbyte
    rw [← hbyte, haddr]
    refine (if_pos ⟨Nat.le_add_right _ j, Nat.add_lt_add_left hj _⟩).trans ?_
    rw [Nat.add_sub_cancel_left]
    rfl
  · intro h i hi
    by_cases hin : (remainder len c).addr ≤ a + i ∧ a + i < (remainder len c).addr + hdrSize
    case neg => exact (setHdr_other (by omega)).trans (hown i hi _)
    case pos =>
    obtain ⟨hlo, hhi⟩ := hin
    rcases h with h | h | h | h
    · omega
    · omega
    · omega
    · have hbyte := h (a + i - (remainder len c).addr) (by omega) (by omega) (by omega)
      rw [Nat.add_sub_cancel' hlo] at hbyte
      exact (if_pos ⟨hlo, hhi⟩).trans hbyte.symm

/-- What changes at most the contents of the block of `o` keeps the others. -/
theorem World.Inv.others {w : World} (h : w.Inv heap bs) (ho : o ∈ w.objs)
    (hkept : ∀ b ∈ used bs, b.addr + hdrSize ≠ o.addr → ∀ x, b.addr + hdrSize ≤ x →
      x < b.fin hdrSize → m' x = w.state.mem x) : OthersKept w o m' := by
  constructor
  · intro o' ho' x ⟨hlo, hhi⟩
    obtain ⟨b, hb, haddr, hlen⟩ := h.large o' (List.mem_of_mem_erase ho')
    have hfin : b.fin hdrSize = b.addr + hdrSize + b.size := rfl
    refine hkept b hb ?_ x (by omega) (by omega)
    have hnodup : (w.objs.map Obj.addr).Nodup := (List.nodup_append.mp h.nodup).1
    have herase := ((List.perm_cons_erase ho).map Obj.addr).nodup_iff.mp hnodup
    intro heq
    refine (List.nodup_cons.mp herase).1 ?_
    rw [← heq, haddr]
    exact List.mem_map_of_mem ho'
  · intro a ha x hx
    obtain ⟨b, hb, hlo, hhi, -, hne⟩ := Inv.owns_aligned h ha
    obtain ⟨hxlo, hxhi⟩ := hx
    exact hkept b hb (hne o ho) x (by omega) (by omega)

theorem Inv.live (h : Inv heap m regs objs als bs) (ho : o ∈ objs) :
    LiveBlock heap m o.addr o.len := by
  obtain ⟨b, hb, haddr, hlen⟩ := h.large o ho
  have hholds := h.holds
  rw [hholds.started hb] at hholds
  exact ⟨bs, hholds, b, hb, haddr, hlen⟩

theorem mem_give_back (hc : c ∈ used bs) (hne : c.addr ≠ b.addr) :
    c ∈ used (coalesce hdrSize none (release b.addr bs)) := by
  rw [used_give_back]
  exact List.mem_filter.mpr ⟨hc, by simpa using hne⟩

theorem not_live (h : Holds heap m (coalesce hdrSize none (release b.addr bs)))
    (haddr : b.addr + hdrSize = o.addr) : ¬LiveBlock heap m o.addr len := by
  rintro ⟨bs', h', c, hc, hcaddr, -⟩
  rw [h'.unique h, used_give_back] at hc
  have hne : c.addr ≠ b.addr := by simpa using (List.mem_filter.mp hc).2
  omega

/-- Free space starts no higher than the old data, or behind it. -/
theorem fit_below_or_behind (hm : Holds heap m bs) (hb : b ∈ bs)
    (hj : Holds heap m' (coalesce hdrSize none (release b.addr bs)))
    (hc : c ∈ coalesce hdrSize none (release b.addr bs)) :
    c.addr ≤ b.addr ∨ b.fin hdrSize ≤ c.addr := by
  have hcut : Cut hdrSize heap.hstart ((none : Option Block).toList ++ release b.addr bs) heap.hend :=
    release_cut.mpr hm.wf.cut
  obtain ⟨d, hd, hlo, hhi, -⟩ := coalesce_covers (by simp) hcut (release_mem hb rfl)
  by_cases heq : c = d
  · exact .inl (heq ▸ hlo)
  · rcases cut_apart hj.wf.cut hc hd heq with h | h
    · have hfin : c.fin hdrSize = c.addr + hdrSize + c.size := rfl
      simp only at hlo
      omega
    · simp only [Block.fin] at hhi h ⊢
      omega

theorem World.Inv.oldSize_eq (h : w.Inv heap bs) (hb : b ∈ used bs)
    (haddr : b.addr + hdrSize = o.addr) : oldSize w o = b.size := by
  have hm := h.holds
  rw [hm.started hb] at hm
  have hmem := (mem_used.mp hb).1
  have hbaddr : o.addr - hdrSize = b.addr := by omega
  rw [oldSize, hbaddr, hm.headers b hmem, sizeOf_header (hm.size_lt hmem)]

/-- What `realloc` leaves where first fit finds `c`: the bytes are those that the old data has
once the headers of `c` are written. -/
structure Moved (heap : Heap) (w : World) (o : Obj) (n : Nat) (c : Block) (m : Mem) : Prop where
  result : realloc heap w.state o.addr n = some (⟨m, w.state.regions⟩, some (c.addr + hdrSize))
  others : OthersKept w o m
  live : LiveBlock heap m (c.addr + hdrSize) n
  copied : ∀ i < min (oldSize w o) n,
    m (c.addr + hdrSize + i) = take w.state.mem (alignLen n) c (o.addr + i)
  apart : c.addr + hdrSize ≤ o.addr ∨ o.addr + min (oldSize w o) n ≤ c.addr

/-- Where there is no block, the old one is lost. -/
theorem World.Inv.lost (h : w.Inv heap bs) (ho : o ∈ w.objs)
    (hnone : Served n → firstFit hdrSize (alignLen n)
      (coalesce hdrSize none (release (o.addr - hdrSize) bs)) = none) : ¬KeepsData heap w o n := by
  obtain ⟨b, -, haddr, -, m₁, hj, -, -, heq⟩ := Inv.realloc_eq h ho n
  have hbaddr : o.addr - hdrSize = b.addr := by omega
  have halloc := alloc_eq (hj.ready_eq.symm ▸ hj) n
  rw [hj.ready_eq] at halloc
  have hlost : alloc heap m₁ n = some (m₁, none) := by
    rw [halloc]
    split
    case isTrue hserved =>
      rw [← hbaddr, hnone hserved]
      rfl
    case isFalse => rfl
  rintro ⟨s, res, hres, -, hkeeps⟩
  rw [show w.state = ⟨w.state.mem, w.state.regions⟩ from rfl, heq, hlost] at hres
  cases hres
  exact not_live hj haddr hkeeps.1

theorem World.Inv.moved (h : w.Inv heap bs) (ho : o ∈ w.objs) (hn : n < 2 ^ 32) (hs : Served n)
    (hfirst : firstFit hdrSize (alignLen n)
      (coalesce hdrSize none (release (o.addr - hdrSize) bs)) = some (c, bs')) :
    ∃ m, Moved heap w o n c m := by
  obtain ⟨b, hb, haddr, -, m₁, hj, hframe, h₁, heq⟩ := Inv.realloc_eq h ho n
  have hbaddr : o.addr - hdrSize = b.addr := by omega
  rw [hbaddr] at hfirst
  have hm := h.holds
  rw [hm.started hb] at hm
  have hmem := (mem_used.mp hb).1
  have hfin : b.fin hdrSize = b.addr + hdrSize + b.size := rfl
  have hkept := kept_free hm hframe
  have halloc := alloc_eq (hj.ready_eq.symm ▸ hj) n
  rw [hj.ready_eq, if_pos hs, hfirst, Option.elim_some] at halloc
  obtain ⟨bs₂, h₂, -, hkept₂, -⟩ := h₁.alloc_some hn halloc
  let p := c.addr + hdrSize
  let m₂ := take m₁ (alignLen n) c
  let m := if p = o.addr then m₂ else memcpy m₂ p o.addr (min b.size n)
  have hmf (x : Nat) (hx : x < p ∨ p + n ≤ x) : m x = m₂ x := by
    simp only [m]
    split
    · rfl
    · exact memcpy_other (by omega)
  obtain ⟨pre, post, hlist, -, hcfree, -⟩ := firstFit_some hfirst
  have hcmem : c ∈ coalesce hdrSize none (release b.addr bs) :=
    hlist ▸ List.mem_append_right _ List.mem_cons_self
  have hplace := fit_below_or_behind hm hmem hj hcmem
  have hold := h.oldSize_eq hb haddr
  refine ⟨m, ?_⟩
  constructor
  case result =>
    rw [show w.state = ⟨w.state.mem, w.state.regions⟩ from rfl, heq, halloc]
    rfl
  case others =>
    refine h.others ho fun b' hb' hne x hlo hhi => ?_
    have hb'mem : b' ∈ used (coalesce hdrSize none (release b.addr bs)) :=
      mem_give_back hb' (by omega)
    have hbc : b' ≠ c := by
      rintro rfl
      exact absurd ((mem_used.mp hb'mem).2.symm.trans hcfree) (by decide)
    have hapart := cut_apart hj.wf.cut (mem_used.mp hb'mem).1 hcmem hbc
    have hcfin : c.fin hdrSize = c.addr + hdrSize + c.size := rfl
    obtain ⟨-, -, -, -, -, hcsize, -⟩ := firstFit_some hfirst
    have hlen := le_alignLen hn (Nat.ne_of_gt hs.1)
    have hnew := hmf x (by simp only [p]; omega)
    exact hnew.trans ((hkept₂ b' hb'mem x hlo hhi).trans (hkept b' hb' x hlo hhi))
  case live =>
    have hfinal : Libpayload.Inv heap m w.state.regions (⟨p, n⟩ :: w.objs.erase o) w.als bs₂ := by
      refine h₂.write List.mem_cons_self fun x hx => hmf x ?_
      simp only [Obj.Owns] at hx
      omega
    exact hfinal.live List.mem_cons_self
  case copied =>
    intro i hi
    rw [hold] at hi
    have hcopy : m (p + i) = m₂ (o.addr + i) := by
      simp only [m]
      split
      case isTrue hin => rw [hin]
      case isFalse => exact memcpy_get (by simp only [p]; omega) hi
    exact hcopy.trans (take_congr (hkept b hb _ (by omega) (by omega)))
  case apart =>
    rw [hold]
    omega

theorem realloc_keeps_iff (h : Reachable heap w) (ho : o ∈ w.objs) (n : BitVec 32) :
    KeepsData heap w o n.toNat ↔ ReallocFits heap w o n.toNat := by
  obtain ⟨bs, hinv⟩ := h.inv
  obtain ⟨b, hb, -⟩ := Inv.realloc_eq hinv ho n.toNat
  have hm := hinv.holds
  rw [hm.started hb] at hm
  have hunique (bs' : List Block) (h' : Holds heap w.state.mem bs') : bs' = bs := h'.unique hm
  by_cases hserved : Served n.toNat
  case neg =>
    refine iff_of_false (hinv.lost ho fun hs => absurd hs hserved) ?_
    rintro ⟨-, -, hs, -⟩
    exact hserved hs
  case pos =>
    cases hfirst : firstFit hdrSize (alignLen n.toNat)
        (coalesce hdrSize none (release (o.addr - hdrSize) bs)) with
    | none =>
      refine iff_of_false (hinv.lost ho fun _ => hfirst) ?_
      rintro ⟨bs', hbs', -, c, bs'', hsome, -⟩
      rw [hunique bs' hbs', hfirst] at hsome
      cases hsome
    | some r =>
      obtain ⟨c, bs₂⟩ := r
      obtain ⟨m', hmoved⟩ := hinv.moved ho n.isLt hserved hfirst
      have hspares : (∀ i < min (oldSize w o) n.toNat,
          take w.state.mem (alignLen n.toNat) c (o.addr + i) = w.state.mem (o.addr + i)) ↔
            Spares w.state.mem (alignLen n.toNat) c o.addr (min (oldSize w o) n.toNat) :=
        take_spares_iff hmoved.apart
      constructor
      · rintro ⟨s, res, hres, -, hkeeps⟩
        rw [hmoved.result] at hres
        cases hres
        refine ⟨bs, hm, hserved, c, bs₂, hfirst, hspares.mp fun i hi => ?_⟩
        exact (hmoved.copied i hi).symm.trans (hkeeps.2 i hi)
      · rintro ⟨bs', hbs', -, c', bs'', hsome, hdata⟩
        rw [hunique bs' hbs', hfirst] at hsome
        cases hsome
        refine ⟨_, _, hmoved.result, hmoved.others, hmoved.live, fun i hi => ?_⟩
        exact (hmoved.copied i hi).trans (hspares.mpr hdata i hi)

-- ---------------------------------------------------------------------------
-- A block joined to the one before it
-- ---------------------------------------------------------------------------

/-- Two objects, and the first one freed. -/
def joinedOps : List Op := [.malloc 16, .malloc 64, .free ⟨0x1008, 16⟩]

/-- The new block starts in the freed one, and its last bytes are the header behind it. -/
theorem joined_run : ∃ w ∈ run smallHeap 1 (initial fun _ => 0) joinedOps,
    ⟨0x1020, 64⟩ ∈ w.objs ∧ 23 < min (oldSize w ⟨0x1020, 64⟩) 40 ∧
      w.state.mem (0x1020 + 23) = 0 ∧
      (realloc smallHeap w.state 0x1020 40).map (fun r => (r.2, r.1.mem (0x1008 + 23))) =
        some (some 0x1008, 0xaa) := by decide +kernel

theorem realloc_joined : ∃ w, Reachable smallHeap w ∧ ⟨0x1020, 64⟩ ∈ w.objs ∧
    ¬KeepsData smallHeap w ⟨0x1020, 64⟩ 40 := by
  obtain ⟨w, hrun, hmem, hsize, hold, hbyte⟩ := joined_run
  refine ⟨w, (Reachable.initial _ (by decide)).run (by simp [joinedOps, Op.Fits]) hrun, hmem, ?_⟩
  rintro ⟨s, res, hres, -, hkeeps⟩
  rw [hres, Option.map_some, Option.some.injEq, Prod.mk.injEq] at hbyte
  obtain ⟨rfl, hbyte⟩ := hbyte
  have hdata := hkeeps.2 23 hsize
  rw [hold] at hdata
  rw [hdata] at hbyte
  revert hbyte
  decide

/-- Two objects, the second one with data, and the first one freed. -/
def spacedOps : List Op :=
  [.malloc 64, .malloc 16, .write 0x1050 0x5a, .write 0x105f 0xa5, .free ⟨0x1008, 64⟩]

theorem spaced_run : ∃ w ∈ run smallHeap 1 (initial fun _ => 0) spacedOps,
    ⟨0x1050, 16⟩ ∈ w.objs ∧
      Headers w.state.mem [⟨0x1000, 64, true⟩, ⟨0x1048, 16, false⟩, ⟨0x1060, 3992, true⟩] := by
  unfold Headers
  decide +kernel

/-- The header behind the new block at `0x1008` ends before the old data. -/
theorem realloc_keeps_iff_spaced : ∃ w, Reachable smallHeap w ∧ ⟨0x1050, 16⟩ ∈ w.objs ∧
    KeepsData smallHeap w ⟨0x1050, 16⟩ (24 : BitVec 32).toNat := by
  obtain ⟨w, hrun, hmem, hheaders⟩ := spaced_run
  have hreach : Reachable smallHeap w :=
    (Reachable.initial _ (by decide)).run (by simp [spacedOps, Op.Fits]) hrun
  have hholds : Holds smallHeap w.state.mem
      [⟨0x1000, 64, true⟩, ⟨0x1048, 16, false⟩, ⟨0x1060, 3992, true⟩] := by
    refine ⟨⟨?_, by decide, ?_⟩, hheaders⟩
    · simp [Cut, Block.fin, hdrSize, smallHeap]
    · simp [Settled]
  refine ⟨w, hreach, hmem, (realloc_keeps_iff hreach hmem 24).mpr ⟨_, hholds, by decide,
    ⟨0x1000, 0xff8, true⟩, _, rfl, .inr (.inl (by decide))⟩⟩

end ItxLlama.Libpayload
