import ItxLlama.Libpayload.HeapRuns

/-!
# When memalign succeeds

A new region has room for the object it was made for, so one is enough, but for
alignments above 1024: there a small object gets a region without elements, and
the search adds such regions until the heap is full.
-/

namespace ItxLlama.Libpayload

open Lib.Bytes
open Lib.Word

/-- Calls of `malloc` that succeed one after the other. -/
def Supplies (heap : Heap) : Mem → List Nat → Prop
  | _, [] => True
  | m, n :: ns => ∃ m' p, malloc heap m n = some (m', some p) ∧ Supplies heap m' ns

/-- A region as `memalign` makes them, with elements for one object at least. -/
def ableElements (align size : Nat) : Nat := max (1024 / align) ((size + align - 1) / align)

/-- What has to be had for it: the record of the empty list, its own, and its space. -/
def requests (w : World) (align size : Nat) : List Nat :=
  (if w.state.regions = [] then [sizeofRegion] else []) ++
    [sizeofRegion, u32 ((ableElements align size + 1) * align + ableElements align size)]

/-- How many regions have space. -/
def regionCount (regs : List Region) : Nat := regs.countP fun r => r.alignment ≠ 0

/-- The call ends, adds one region at most, and fails only where there is no space for one. -/
def MemalignRight (heap : Heap) (w : World) (align size : Nat) : Prop :=
  ∃ fuel s res, memalign heap fuel w.state align size = some (s, res) ∧
    regionCount s.regions ≤ regionCount w.state.regions + 1 ∧
    (res = none → ¬Supplies heap w.state.mem (requests w align size))

/-- Free elements in a row for the object. -/
def HasRoom (m : Mem) (align size : Nat) (r : Region) : Prop :=
  r.alignment = align ∧ 0 < target align size ∧ target align size ≤ r.free ∧
    ∃ i, i + target align size ≤ r.num ∧ ∀ j < target align size, m (r.start + (i + j)) = 0

/-- A region has room, or a new one would. -/
def MemalignFits (w : World) (align size : Nat) : Prop :=
  (∃ r ∈ w.state.regions, HasRoom w.state.mem align size r) ∨
    regionBytes align size < 2 ^ 32 ∧ (align ≤ 1024 ∨ 1024 ≤ size)

variable {heap : Heap} {m m' : Mem} {regs regs' : List Region} {objs : List Obj} {als : List AObj}
  {bs : List Lib.FirstFit.Block} {r : Region} {w : World} {s : State}
  {align size start t n i k count ptr : Nat}

-- ---------------------------------------------------------------------------
-- The search
-- ---------------------------------------------------------------------------

/-- A run of free elements that starts in the window is found, or one before it. -/
theorem scan_complete (hlt : count < t) (hk : i ≤ k + count) (hfits : k + t ≤ i + n)
    (hzero : ∀ j < t, m (start + (k + j)) = 0) : ∃ x, scan m start t n i count = some x := by
  induction n generalizing i count with
  | zero => omega
  | succ n ih =>
    unfold scan
    split
    · split
      · exact ⟨_, rfl⟩
      · exact ih (by omega) (by omega) (by omega)
    · rename_i hbyte
      refine ih (by omega) ?_ (by omega)
      by_contra hbefore
      have hin := hzero (i - k) (by omega)
      rw [Nat.add_sub_cancel' (by omega)] at hin
      exact hbyte hin

theorem takeElements_isSome (halign : r.alignment = align) (ht : 0 < target align size)
    (hfits : k + target align size ≤ r.num)
    (hzero : ∀ j < target align size, m (r.start + (k + j)) = 0) :
    ∃ q, takeElements m align size r = some q := by
  have hnum : r.size / align = r.num := by rw [Region.num, halign]
  obtain ⟨x, hscan⟩ := @scan_complete m r.start (target align size) r.num 0 k 0 ht (Nat.zero_le _)
    (by omega) hzero
  unfold takeElements
  rw [hnum]
  simp only [hscan, Option.bind_eq_bind, Option.bind_some]
  exact ⟨_, rfl⟩

theorem serve_isSome (hr : r ∈ regs) (hroom : HasRoom m align size r) :
    ∃ q, serve m align size regs = some q := by
  induction regs with
  | nil => cases hr
  | cons r' regs ih =>
    rw [serve]
    split
    · exact ⟨_, rfl⟩
    · rename_i hnone
      rcases List.mem_cons.mp hr with rfl | hr
      · obtain ⟨halign, ht, hfree, i, hfits, hzero⟩ := hroom
        obtain ⟨q, hq⟩ := takeElements_isSome halign ht hfits hzero
        rw [if_pos ⟨halign, hfree⟩, hq] at hnone
        cases hnone
      · obtain ⟨q, hq⟩ := ih hr
        rw [hq]
        exact ⟨_, rfl⟩

theorem regionCount_congr (h : regs'.map Region.geometry = regs.map Region.geometry) :
    regionCount regs' = regionCount regs := by
  have hcount (l : List Region) :
    regionCount l = (l.map Region.geometry).countP fun r => r.alignment ≠ 0 := by
    rw [List.countP_map]
    rfl
  rw [hcount, hcount, h]

theorem regionCount_cons (r : Region) (regs : List Region) :
    regionCount (r :: regs) ≤ regionCount regs + 1 := by
  unfold regionCount
  rw [List.countP_cons]
  split <;> omega

-- ---------------------------------------------------------------------------
-- New regions
-- ---------------------------------------------------------------------------

/-- A new region is refused only where `malloc` refuses its record or its space. -/
theorem allocateRegion_none (h : allocateRegion heap s align n = some (s', none)) :
    ¬Supplies heap s.mem [sizeofRegion, u32 ((n + 1) * align + n)] := by
  rintro ⟨m₁, addr, hrec, m₂, start, hspc, -⟩
  have hsome : ∃ s₂ reg, allocateRegion heap s align n = some (s₂, some reg) := by
    unfold allocateRegion
    rw [hrec, Option.bind_eq_bind, Option.bind_some]
    dsimp only
    rw [hspc, Option.bind_eq_bind, Option.bind_some]
    exact ⟨_, _, rfl⟩
  obtain ⟨s₂, reg, hsome⟩ := hsome
  rw [hsome] at h
  cases h

theorem numElements_eq (hpow : ∃ k, align = 2 ^ k) (hsize : 0 < size)
    (h : align ≤ 1024 ∨ 1024 ≤ size) : numElements align size = ableElements align size := by
  obtain ⟨k, rfl⟩ := hpow
  have halign : 0 < 2 ^ k := Nat.two_pow_pos k
  have hceil : (size + 2 ^ k - 1) / 2 ^ k = (size - 1) / 2 ^ k + 1 := by
    rw [show size + 2 ^ k - 1 = size - 1 + 2 ^ k by omega, Nat.add_div_right _ halign]
  unfold numElements ableElements
  rw [hceil]
  split
  · rename_i hsmall
    have hle : 2 ^ k ≤ 1024 := by omega
    have hk : k ≤ 10 := (Nat.pow_le_pow_iff_right (by decide : 1 < 2)).mp (by simpa using hle)
    have hdvd : 2 ^ k ∣ 1024 := Nat.pow_dvd_pow 2 hk
    have hlt : (size - 1) / 2 ^ k < 1024 / 2 ^ k := by
      rw [Nat.div_lt_iff_lt_mul halign, Nat.div_mul_cancel hdvd]
      omega
    omega
  · have hle : 1024 / 2 ^ k ≤ (size - 1) / 2 ^ k + 1 := by
      rw [← Nat.add_div_right _ halign]
      exact Nat.div_le_div_right (by omega)
    omega

theorem target_le_able (hwrap : size + align ≤ 2 ^ 32) :
    target align size ≤ ableElements align size := by
  rw [target_eq hwrap]
  exact Nat.le_max_right _ _

-- ---------------------------------------------------------------------------
-- memalign
-- ---------------------------------------------------------------------------

theorem serve_count (h : serve m align size regs = some (m', regs', ptr)) :
    regionCount regs' = regionCount regs := by
  obtain ⟨r, hr, r', -, -, hgeo⟩ := serve_some h
  exact regionCount_congr hgeo

theorem Inv.search (h : Inv heap m regs objs als bs) (hpow : ∃ k, align = 2 ^ k) (hsize : 0 < size)
    (hwrap : regionBytes align size < 2 ^ 32) (hable : align ≤ 1024 ∨ 1024 ≤ size) :
    ∃ s res, Libpayload.lookFurther heap align size 1 ⟨m, regs⟩ = some (s, res) ∧
      regionCount s.regions ≤ regionCount regs + 1 ∧
      (res = none → ¬Supplies heap m [sizeofRegion,
        u32 ((ableElements align size + 1) * align + ableElements align size)]) := by
  unfold Libpayload.lookFurther
  cases hserve : Libpayload.serve m align size regs with
  | some q =>
    obtain ⟨m', regs', p⟩ := q
    exact ⟨_, _, rfl, Nat.le_succ_of_le (Nat.le_of_eq (serve_count hserve)), nofun⟩
  | none =>
    have hfits := size_le_regionBytes hpow hwrap
    have halign : 0 < align := by
      obtain ⟨k, rfl⟩ := hpow
      exact Nat.two_pow_pos k
    obtain ⟨s, reg, halloc, bs', -, hres⟩ := h.allocateRegion hpow hwrap
    simp only [Libpayload.memalignLoop, halloc, Option.bind_eq_bind, Option.bind_some]
    rcases hres with ⟨rfl, hregs⟩ | ⟨r, rfl, -, hralign, hnum, hzero⟩
    · refine ⟨s, none, rfl, by rw [hregs]; exact Nat.le_succ _, fun _ => ?_⟩
      rw [← numElements_eq hpow hsize hable]
      exact allocateRegion_none halloc
    · have hable := numElements_eq hpow hsize hable ▸ target_le_able hfits
      obtain ⟨⟨m', r', p⟩, htake⟩ := takeElements_isSome (k := 0) (m := s.mem) hralign
        (target_spec halign hfits hsize).1 (by omega)
        fun j hj => by rw [Nat.zero_add]; exact hzero j (by omega)
      simp only [htake]
      refine ⟨_, _, rfl, ?_, nofun⟩
      exact regionCount_cons r' regs

theorem memalignLoop_mono {q : State × Option Nat} {fuel : Nat}
    (h : memalignLoop heap align size fuel s = some q) (extra : Nat) :
    memalignLoop heap align size (fuel + extra) s = some q := by
  induction fuel generalizing s with
  | zero => cases h
  | succ fuel ih =>
    rw [Nat.succ_add]
    rw [memalignLoop, Option.bind_eq_bind, Option.bind_eq_some_iff] at h ⊢
    obtain ⟨⟨s', reg⟩, halloc, h⟩ := h
    refine ⟨⟨s', reg⟩, halloc, ?_⟩
    cases reg with
    | none => exact h
    | some reg =>
      dsimp only at h ⊢
      split at h
      · exact h
      · split at h
        · exact h
        · exact ih h

theorem memalign_mono {q : State × Option Nat} {fuel : Nat}
    (h : memalign heap fuel s align size = some q) (extra : Nat) :
    memalign heap (fuel + extra) s align size = some q := by
  unfold memalign at h ⊢
  split at h
  · rwa [if_pos ‹_›]
  rw [if_neg ‹_›]
  obtain ⟨⟨s', ok⟩, hinit, h⟩ := Option.bind_eq_some_iff.mp h
  refine Option.bind_eq_some_iff.mpr ⟨⟨s', ok⟩, hinit, ?_⟩
  cases ok with
  | false => exact h
  | true =>
    simp only [lookFurther, if_true] at h ⊢
    split at h
    · exact h
    · exact memalignLoop_mono h extra

def largerHeap : Heap := ⟨0x1000, 0x4000, by decide, by decide, by decide⟩

end ItxLlama.Libpayload
