import ItxLlama.Coreboot.VarMtrr

/-!
# What a run of the MTRR algorithms writes

Each algorithm adds pieces to the registers: aligned blocks of pages with a
type. Which ones they are does not depend on whether they are written or only
counted.
-/

namespace ItxLlama.Coreboot.VarMtrr

open Lib.Word Lib.Wrap Lib.Dyadic Lib.Tiling

-- ---------------------------------------------------------------------------
-- Blocks
-- ---------------------------------------------------------------------------

theorem dvd_iff_testBit (j x : Nat) : 2 ^ j ∣ x ↔ ∀ i < j, x.testBit i = false := by
  rw [Nat.dvd_iff_mod_eq_zero]
  constructor
  · intro hmod i hi
    have hbit := congrArg (Nat.testBit · i) hmod
    simpa [Nat.testBit_mod_two_pow, hi] using hbit
  · intro hbits
    refine Nat.eq_of_testBit_eq fun i => ?_
    rw [Nat.testBit_mod_two_pow, Nat.zero_testBit]
    by_cases hi : i < j
    · simp [hbits i hi]
    · simp [hi]

theorem dvd_iff_le_fls (hj : j ≤ 32) : 2 ^ j ∣ x ↔ j ≤ fls x := by
  rw [dvd_iff_testBit]
  unfold fls
  cases hfind : (List.range 32).find? x.testBit with
  | none =>
    rw [List.find?_range_eq_none] at hfind
    simp only [Option.getD_none, hj, iff_true]
    exact fun i hi => by simpa using hfind i (Nat.lt_of_lt_of_le hi hj)
  | some k =>
    obtain ⟨hk, -, hbefore⟩ := List.find?_range_eq_some.mp hfind
    rw [Option.getD_some]
    constructor
    · intro hall
      refine Nat.le_of_not_lt fun hlt => ?_
      rw [hall k hlt] at hk
      exact Bool.noConfusion hk
    · exact fun hle i hi => by simpa using hbefore i (Nat.lt_of_lt_of_le hi hle)

theorem mtrrSize_eq (hsize : size ≠ 0) (hlt : size < 2 ^ 32) :
    mtrrSize base size = 2 ^ blockLog base size := by
  have hmsb : size.log2 < 32 := (Nat.log2_lt hsize).mpr hlt
  have hlog := blockLog_le base size
  have hdvd := blockLog_dvd base size
  unfold mtrrSize fms
  dsimp only
  by_cases hfls : fls base > size.log2
  · rw [if_pos hfls]
    congr 1
    refine Nat.le_antisymm (le_blockLog ?_ hsize (Nat.log2_self_le hsize)) hlog
    exact (dvd_iff_le_fls (Nat.le_of_lt hmsb)).mpr (Nat.le_of_lt hfls)
  · rw [if_neg hfls]
    have hle := Nat.le_of_not_lt hfls
    congr 1
    refine Nat.le_antisymm (le_blockLog ?_ hsize ?_) ?_
    · exact (dvd_iff_le_fls (by omega)).mpr (Nat.le_refl _)
    · exact Nat.le_trans (Nat.pow_le_pow_right (by decide) hle) (Nat.log2_self_le hsize)
    · exact (dvd_iff_le_fls (by omega)).mp hdvd

/-- A block of pages with a type. -/
structure Piece where
  block : Block
  type : Nat

def pieces (base size type : Nat) : List Piece := (blocks base size).map (Piece.mk · type)

def Piece.registers (addressBits : Nat) (p : Piece) : PhysMtrr :=
  ⟨u64 (p.block.base * 2 ^ rangeShift) ||| p.type,
    (u64 (2 ^ 64 - u64 (2 ^ p.block.log * 2 ^ rangeShift)) &&& u64 (2 ^ addressBits - 1)) |||
      mtrrPhysMaskValid⟩

/-- The pieces `ps` with the type `t` are what `[lo, hi)` is cut into. -/
structure Exact (lo hi t : Nat) (ps : List Piece) : Prop where
  covers : ∀ x, (∃ p ∈ ps, p.block.Covers x) ↔ lo ≤ x ∧ x < hi
  type : ∀ p ∈ ps, p.type = t
  aligned : ∀ p ∈ ps, 2 ^ p.block.log ∣ p.block.base
  below : ∀ p ∈ ps, p.block.top ≤ hi

theorem exact_pieces (base size t : Nat) : Exact base (base + size) t (pieces base size t) where
  covers x := by
    unfold pieces
    simpa using blocks_covers base size x
  type := by simp [pieces]
  aligned := by
    simp only [pieces, List.forall_mem_map]
    exact blocks_aligned base size
  below := by
    simp only [pieces, List.forall_mem_map]
    exact fun b hb => ((blocks_tiles base size).bounds hb).2.2

theorem Exact.append {ps qs : List Piece} (hp : Exact lo mid t ps) (hq : Exact mid hi t qs)
    (hlo : lo ≤ mid) (hhi : mid ≤ hi) : Exact lo hi t (ps ++ qs) where
  covers x := by
    have hpx := hp.covers x
    have hqx := hq.covers x
    simp only [List.mem_append, or_and_right, exists_or, hpx, hqx]
    omega
  type := List.forall_mem_append.mpr ⟨hp.type, hq.type⟩
  aligned := List.forall_mem_append.mpr ⟨hp.aligned, hq.aligned⟩
  below := List.forall_mem_append.mpr ⟨fun p h => Nat.le_trans (hp.below p h) hhi, hq.below⟩

-- ---------------------------------------------------------------------------
-- Adding pieces
-- ---------------------------------------------------------------------------

section
variable (totalMtrrs : Nat)

/-- The step from `s` to `s'` adds the pieces `ps`. -/
structure Adds (ps : List Piece) (s s' : VarMtrrState) : Prop where
  above4gb : s'.above4gb = s.above4gb
  addressBits : s'.addressBits = s.addressBits
  commitMtrrs : s'.commitMtrrs = s.commitMtrrs
  defMtrrType : s'.defMtrrType = s.defMtrrType
  mtrrIndex : s'.mtrrIndex = s.mtrrIndex + ps.length
  before : ∀ i < s.mtrrIndex, s'.msrs i = s.msrs i
  added : s.commitMtrrs = true → ∀ i (h : i < ps.length), s.mtrrIndex + i < totalMtrrs →
    s'.msrs (s.mtrrIndex + i) = ps[i].registers s.addressBits

variable {totalMtrrs} {ps qs : List Piece} {s s' s'' : VarMtrrState}

theorem Adds.refl (s : VarMtrrState) : Adds totalMtrrs [] s s :=
  ⟨rfl, rfl, rfl, rfl, rfl, fun _ _ => rfl, fun _ _ h => absurd h (Nat.not_lt_zero _)⟩

theorem Adds.trans (h : Adds totalMtrrs ps s s') (h' : Adds totalMtrrs qs s' s'') :
    Adds totalMtrrs (ps ++ qs) s s'' where
  above4gb := h'.above4gb.trans h.above4gb
  addressBits := h'.addressBits.trans h.addressBits
  commitMtrrs := h'.commitMtrrs.trans h.commitMtrrs
  defMtrrType := h'.defMtrrType.trans h.defMtrrType
  mtrrIndex := by rw [h'.mtrrIndex, h.mtrrIndex, List.length_append, Nat.add_assoc]
  before i hi := by
    have hi' : i < s'.mtrrIndex := by
      rw [h.mtrrIndex]
      exact Nat.lt_add_right _ hi
    exact (h'.before i hi').trans (h.before i hi)
  added hcommit i hi htotal := by
    rw [List.length_append] at hi
    by_cases hlt : i < ps.length
    · have hi' : s.mtrrIndex + i < s'.mtrrIndex := by
        rw [h.mtrrIndex]
        exact Nat.add_lt_add_left hlt _
      rw [List.getElem_append_left hlt, h'.before _ hi', h.added hcommit i hlt htotal]
    · have hle := Nat.le_of_not_lt hlt
      have hindex : s.mtrrIndex + i = s'.mtrrIndex + (i - ps.length) := by
        rw [h.mtrrIndex]
        omega
      rw [List.getElem_append_right hle, hindex,
        h'.added (h.commitMtrrs.trans hcommit) _ (by omega) (hindex ▸ htotal), h.addressBits]

theorem adds_step (totalMtrrs : Nat) (s : VarMtrrState) (base log type : Nat) :
    Adds totalMtrrs [⟨⟨base, log⟩, type⟩] s
      { (if s.commitMtrrs then writeVarMtrr totalMtrrs s base (2 ^ log) type else s) with
        mtrrIndex := (if s.commitMtrrs then writeVarMtrr totalMtrrs s base (2 ^ log) type
          else s).mtrrIndex + 1 } := by
  cases hcommit : s.commitMtrrs with
  | false => exact ⟨rfl, rfl, rfl, rfl, rfl, fun _ _ => rfl, fun h => by simp [hcommit] at h⟩
  | true =>
    unfold writeVarMtrr
    by_cases hfull : s.mtrrIndex ≥ totalMtrrs
    · simp only [if_true, if_pos hfull]
      refine ⟨rfl, rfl, rfl, rfl, rfl, fun _ _ => rfl, fun _ i _ htotal => ?_⟩
      exact absurd htotal (Nat.not_lt.mpr (Nat.le_add_right_of_le hfull))
    · simp only [if_true, if_neg hfull]
      refine ⟨rfl, rfl, rfl, rfl, rfl, fun i hi => ?_, fun _ i hi _ => ?_⟩
      · exact Function.update_of_ne (Nat.ne_of_lt hi) _ _
      · obtain rfl : i = 0 := Nat.lt_one_iff.mp hi
        exact Function.update_self ..

theorem calcVarMtrrRange_zero (s : VarMtrrState) (base type : Nat) :
    calcVarMtrrRange totalMtrrs s base 0 type = s := by
  rw [calcVarMtrrRange, if_pos rfl]

theorem calcVarMtrrRange_adds (s : VarMtrrState) (hfit : base + size ≤ 2 ^ 32)
    (hlt : size < 2 ^ 32) (type : Nat) :
    Adds totalMtrrs (pieces base size type) s (calcVarMtrrRange totalMtrrs s base size type) := by
  induction base, size using blocks_induction generalizing s with
  | zero base =>
    rw [calcVarMtrrRange_zero, pieces, blocks_zero]
    exact .refl s
  | step base size hsize ih =>
    have hpow := pow_blockLog_le base hsize
    have hpos : 0 < 2 ^ blockLog base size := Nat.pow_pos (by decide)
    have hstep := adds_step totalMtrrs s base (blockLog base size) type
    have hrest := fun s => ih s (by omega) (by omega)
    rw [calcVarMtrrRange, if_neg hsize, mtrrSize_eq hsize hlt, pieces, blocks_cons hsize]
    refine hstep.trans ?_
    -- the base wraps only behind the last block
    rcases Nat.eq_zero_or_pos (size - 2 ^ blockLog base size) with hzero | hrestpos
    · rw [hzero, calcVarMtrrRange_zero, blocks_zero]
      exact .refl _
    · rw [u32_eq (by omega)]
      exact hrest _

end

end ItxLlama.Coreboot.VarMtrr
