import ItxLlama.Lib.Tiling
import Mathlib.Data.BitVec
import Mathlib.Data.Nat.Bitwise
import Mathlib.Data.Nat.Find

/-!
# Blocks of a power of two

An interval is cut from its bottom into blocks of a power of two, each as large
as the alignment of where it begins and what is left allow. The blocks tile the
interval, and a mask of the upper bits tells whether a number is in a block.
-/

namespace ItxLlama.Lib.Dyadic

open Tiling

/-- The logarithm of the largest block that begins at `base` and has room in `size`. -/
def blockLog (base size : Nat) : Nat := Nat.findGreatest (fun k => 2 ^ k ∣ base) size.log2

theorem blockLog_dvd (base size : Nat) : 2 ^ blockLog base size ∣ base :=
  Nat.findGreatest_spec (P := fun k => 2 ^ k ∣ base) (Nat.zero_le _) (Nat.one_dvd base)

theorem blockLog_le (base size : Nat) : blockLog base size ≤ size.log2 := Nat.findGreatest_le _

theorem pow_blockLog_le (base : Nat) (hsize : size ≠ 0) : 2 ^ blockLog base size ≤ size :=
  Nat.le_trans (Nat.pow_le_pow_right (by decide) (blockLog_le base size)) (Nat.log2_self_le hsize)

theorem le_blockLog (hdvd : 2 ^ k ∣ base) (hsize : size ≠ 0) (hle : 2 ^ k ≤ size) :
    k ≤ blockLog base size :=
  Nat.le_findGreatest ((Nat.le_log2 hsize).mpr hle) hdvd

/-- A block that could be twice as large for its base takes more than half of what is left. -/
theorem lt_of_dvd (hdvd : 2 ^ (blockLog base size + 1) ∣ base) :
    size < 2 ^ (blockLog base size + 1) := by
  rcases Nat.eq_zero_or_pos size with rfl | hpos
  · exact Nat.pow_pos (by decide)
  · refine Nat.lt_of_not_le fun hle => ?_
    exact Nat.not_succ_le_self _ (le_blockLog hdvd (Nat.ne_of_gt hpos) hle)

structure Block where
  base : Nat
  log : Nat

def Block.top (b : Block) : Nat := b.base + 2 ^ b.log

def Block.Covers (b : Block) (x : Nat) : Prop := b.base ≤ x ∧ x < b.top

/-- The blocks of the interval of `size` numbers from `base` on. -/
def blocks (base size : Nat) : List Block :=
  if size = 0 then []
  else ⟨base, blockLog base size⟩ ::
    blocks (base + 2 ^ blockLog base size) (size - 2 ^ blockLog base size)
termination_by size
decreasing_by
  rename_i hsize
  exact Nat.sub_lt (Nat.pos_of_ne_zero hsize) (Nat.pow_pos (by decide))

theorem blocks_zero (base : Nat) : blocks base 0 = [] := by
  rw [blocks, if_pos rfl]

theorem blocks_cons (hsize : size ≠ 0) : blocks base size =
    ⟨base, blockLog base size⟩ ::
      blocks (base + 2 ^ blockLog base size) (size - 2 ^ blockLog base size) := by
  rw [blocks, if_neg hsize]

theorem blocks_induction {motive : Nat → Nat → Prop} (zero : ∀ base, motive base 0)
    (step : ∀ base size, size ≠ 0 →
      motive (base + 2 ^ blockLog base size) (size - 2 ^ blockLog base size) → motive base size)
    (base size : Nat) : motive base size := by
  induction size using Nat.strong_induction_on generalizing base with
  | _ size ih =>
    rcases Nat.eq_zero_or_pos size with rfl | hpos
    · exact zero base
    · exact step base size (Nat.ne_of_gt hpos)
        (ih _ (Nat.sub_lt hpos (Nat.pow_pos (by decide))) _)

theorem blocks_tiles (base size : Nat) :
    Tiles Block.base Block.top base (blocks base size) (base + size) := by
  induction base, size using blocks_induction with
  | zero base =>
    rw [blocks_zero]
    rfl
  | step base size hsize ih =>
    have hle := pow_blockLog_le base hsize
    rw [blocks_cons hsize]
    rw [Nat.add_assoc, Nat.add_sub_cancel' hle] at ih
    exact ⟨rfl, Nat.le_add_right _ _, ih⟩

theorem blocks_covers (base size x : Nat) :
    (∃ b ∈ blocks base size, b.Covers x) ↔ base ≤ x ∧ x < base + size :=
  (blocks_tiles base size).covers x

theorem blocks_aligned (base size : Nat) : ∀ b ∈ blocks base size, 2 ^ b.log ∣ b.base := by
  induction base, size using blocks_induction with
  | zero base => simp [blocks_zero]
  | step base size hsize ih =>
    rw [blocks_cons hsize]
    exact List.forall_mem_cons.mpr ⟨blockLog_dvd base size, ih⟩

-- ---------------------------------------------------------------------------
-- How many blocks there are
-- ---------------------------------------------------------------------------

theorem dvd_sub_blockLog (hi : 2 ^ i ∣ base) (hsize : 2 ^ i ∣ size) (hne : size ≠ 0) :
    2 ^ i ∣ 2 ^ blockLog base size := by
  refine Nat.pow_dvd_pow 2 (le_blockLog hi hne ?_)
  exact Nat.le_of_dvd (Nat.pos_of_ne_zero hne) hsize

theorem blocks_length_of_dvd (hbase : 2 ^ n ∣ base) (hlt : size < 2 ^ n) (hi : 2 ^ i ∣ size)
    (hin : i ≤ n) : (blocks base size).length ≤ n - i := by
  induction base, size using blocks_induction generalizing n with
  | zero base => simp [blocks_zero]
  | step base size hsize ih =>
    have hle := pow_blockLog_le base hsize
    have hlog : blockLog base size < n :=
      (Nat.pow_lt_pow_iff_right (by decide)).mp (Nat.lt_of_le_of_lt hle hlt)
    have htop := lt_of_dvd (Nat.dvd_trans (Nat.pow_dvd_pow 2 hlog) hbase)
    have hpow := dvd_sub_blockLog (Nat.dvd_trans (Nat.pow_dvd_pow 2 hin) hbase) hi hsize
    have hik : i ≤ blockLog base size := Nat.pow_dvd_pow_iff_le_right'.mp hpow
    rw [Nat.pow_succ] at htop
    have hrest := ih (n := blockLog base size)
      (Nat.dvd_add (blockLog_dvd base size) (Nat.dvd_refl _)) (by omega)
      (Nat.dvd_sub hi hpow) hik
    rw [blocks_cons hsize, List.length_cons]
    omega

theorem dvd_next (hk : 2 ^ k ∣ base) (hodd : ¬ 2 ^ (k + 1) ∣ base) :
    2 ^ (k + 1) ∣ base + 2 ^ k := by
  obtain ⟨c, rfl⟩ := hk
  have hc : ¬ 2 ∣ c := by
    intro hc
    rw [Nat.pow_succ] at hodd
    exact hodd (Nat.mul_dvd_mul_left _ hc)
  rw [← Nat.mul_succ, Nat.pow_succ]
  exact Nat.mul_dvd_mul_left _ (by omega)

theorem le_of_odd (hodd : ¬ 2 ^ (k + 1) ∣ base) (hj : 2 ^ j ∣ base) : j ≤ k :=
  Nat.le_of_not_lt fun hlt => hodd (Nat.dvd_trans (Nat.pow_dvd_pow 2 hlt) hj)

theorem blocks_length_of_dvd_top (htop : 2 ^ n ∣ base + size) (hlt : size < 2 ^ n)
    (hj : 2 ^ j ∣ base) (hjn : j ≤ n) : (blocks base size).length ≤ n - j := by
  induction base, size using blocks_induction generalizing j with
  | zero base => simp [blocks_zero]
  | step base size hsize ih =>
    have hle := pow_blockLog_le base hsize
    have hlog : blockLog base size < n :=
      (Nat.pow_lt_pow_iff_right (by decide)).mp (Nat.lt_of_le_of_lt hle hlt)
    -- the alignment of the base is that of the size
    have hodd : ¬ 2 ^ (blockLog base size + 1) ∣ base := by
      intro hdvd
      have hdvd' : 2 ^ (blockLog base size + 1) ∣ size :=
        (Nat.dvd_add_right hdvd).mp (Nat.dvd_trans (Nat.pow_dvd_pow 2 hlog) htop)
      exact absurd (lt_of_dvd hdvd)
        (Nat.not_lt.mpr (Nat.le_of_dvd (Nat.pos_of_ne_zero hsize) hdvd'))
    have hjk := le_of_odd hodd hj
    have hrest := ih (j := blockLog base size + 1)
      (by rwa [Nat.add_assoc, Nat.add_sub_cancel' hle]) (by omega)
      (dvd_next (blockLog_dvd base size) hodd) hlog
    rw [blocks_cons hsize, List.length_cons]
    omega

/-- The logarithms of the aligned blocks inside of an interval are below `up`, those of the
blocks that could be twice as large for their bases below `down`. -/
def LogsBelow (up down base size : Nat) : Prop :=
  ∀ k x, base ≤ x → x + 2 ^ k ≤ base + size → 2 ^ k ∣ x → k < up ∧ (2 ^ (k + 1) ∣ x → k < down)

/-- In any interval the blocks first get larger and then smaller. -/
theorem blocks_length (h : LogsBelow up down base size) (hi : 2 ^ i ∣ size) (hij : i ≤ j)
    (hj : 2 ^ j ∣ base) (hjup : j ≤ up) (hidown : i ≤ down) :
    (blocks base size).length ≤ (up - j) + (down - i) := by
  induction base, size using blocks_induction generalizing j with
  | zero base => simp [blocks_zero]
  | step base size hsize ih =>
    have hle := pow_blockLog_le base hsize
    have hbelow := h (blockLog base size) base (Nat.le_refl _) (Nat.add_le_add_left hle _)
      (blockLog_dvd base size)
    by_cases hodd : 2 ^ (blockLog base size + 1) ∣ base
    · have hdown := hbelow.2 hodd
      have hik : i ≤ blockLog base size + 1 := by
        have := le_blockLog (Nat.dvd_trans (Nat.pow_dvd_pow 2 hij) hj) hsize
          (Nat.le_of_dvd (Nat.pos_of_ne_zero hsize) hi)
        omega
      have := blocks_length_of_dvd hodd (lt_of_dvd hodd) hi hik
      omega
    · have hjk := le_of_odd hodd hj
      have hpow := dvd_sub_blockLog (Nat.dvd_trans (Nat.pow_dvd_pow 2 hij) hj) hi hsize
      have hrest := ih (j := blockLog base size + 1)
        (fun k x hx htop => h k x (by omega) (by omega)) (Nat.dvd_sub hi hpow) (by omega)
        (dvd_next (blockLog_dvd base size) hodd) hbelow.1
      rw [blocks_cons hsize, List.length_cons]
      omega

theorem logsBelow_size (hlt : size < 2 ^ n) (base : Nat) : LogsBelow n n base size := by
  intro k x hx htop _
  have hk : k < n := (Nat.pow_lt_pow_iff_right (a := 2) (by decide)).mp (by omega)
  exact ⟨hk, fun _ => hk⟩

theorem logsBelow_top (hpos : 0 < base) (htop : base + size ≤ 2 ^ n) :
    LogsBelow n (n - 1) base size := by
  intro k x hx hk hdvd
  have hxpos : 0 < x := Nat.lt_of_lt_of_le hpos hx
  have hxlt : x < 2 ^ n := by
    have := Nat.pow_pos (a := 2) (n := k) (by decide)
    omega
  have hlog : ∀ m, 2 ^ m ∣ x → m < n := fun m hm =>
    (Nat.pow_lt_pow_iff_right (a := 2) (by decide)).mp
      (Nat.lt_of_le_of_lt (Nat.le_of_dvd hxpos hm) hxlt)
  exact ⟨hlog k hdvd, fun hdvd' => Nat.lt_sub_of_add_lt (hlog _ hdvd')⟩

-- ---------------------------------------------------------------------------
-- Masks
-- ---------------------------------------------------------------------------

/-- The mask of `n` bits without the lowest `k`. -/
def mask (n k : Nat) : Nat := 2 ^ n - 2 ^ k

theorem mask_testBit (hkn : k ≤ n) (i : Nat) :
    (mask n k).testBit i = (decide (k ≤ i) && decide (i < n)) := by
  have heq : mask n k = 2 ^ k * (2 ^ (n - k) - 1) := by
    rw [Nat.mul_sub, ← Nat.pow_add, Nat.add_sub_cancel' hkn, Nat.mul_one, mask]
  rw [heq, Nat.testBit_two_pow_mul, Nat.testBit_two_pow_sub_one]
  by_cases hki : k ≤ i
  · simp only [hki, decide_true, Bool.true_and, decide_eq_decide]
    omega
  · simp [hki]

/-- Under the mask two numbers of `n` bits agree when they do above the lowest `k` bits. -/
theorem and_mask_eq_iff (hkn : k ≤ n) (hx : x < 2 ^ n) (hy : y < 2 ^ n) :
    x &&& mask n k = y &&& mask n k ↔ x / 2 ^ k = y / 2 ^ k := by
  rw [← Nat.shiftRight_eq_div_pow, ← Nat.shiftRight_eq_div_pow]
  constructor
  · intro h
    refine Nat.eq_of_testBit_eq fun i => ?_
    rw [Nat.testBit_shiftRight, Nat.testBit_shiftRight]
    have hbit := congrArg (Nat.testBit · (k + i)) h
    simp only [Nat.testBit_and, mask_testBit hkn, Nat.le_add_right, decide_true,
      Bool.true_and] at hbit
    by_cases hi : k + i < n
    · simpa [hi] using hbit
    · have hpow : 2 ^ n ≤ 2 ^ (k + i) := Nat.pow_le_pow_right (by decide) (Nat.le_of_not_lt hi)
      rw [Nat.testBit_lt_two_pow (Nat.lt_of_lt_of_le hx hpow),
        Nat.testBit_lt_two_pow (Nat.lt_of_lt_of_le hy hpow)]
  · intro h
    refine Nat.eq_of_testBit_eq fun i => ?_
    rw [Nat.testBit_and, Nat.testBit_and, mask_testBit hkn]
    by_cases hki : k ≤ i
    · have hbit := congrArg (Nat.testBit · (i - k)) h
      simp only [Nat.testBit_shiftRight, Nat.add_sub_cancel' hki] at hbit
      rw [hbit]
    · simp [hki]

theorem Block.covers_iff {b : Block} (hdvd : 2 ^ b.log ∣ b.base) (htop : b.top ≤ 2 ^ n)
    (hx : x < 2 ^ n) : x &&& mask n b.log = b.base &&& mask n b.log ↔ b.Covers x := by
  have hpos : 0 < 2 ^ b.log := Nat.pow_pos (by decide)
  have hlog : b.log ≤ n := by
    refine (Nat.pow_le_pow_iff_right (a := 2) (by decide)).mp (Nat.le_trans ?_ htop)
    exact Nat.le_add_left _ _
  unfold Block.Covers
  unfold Block.top at htop ⊢
  rw [and_mask_eq_iff hlog hx (by omega)]
  obtain ⟨c, hc⟩ := hdvd
  rw [hc, Nat.mul_div_cancel_left _ hpos, ← Nat.mul_succ]
  rw [Nat.div_eq_iff hpos, Nat.mul_comm c, Nat.mul_succ]
  omega

end ItxLlama.Lib.Dyadic
