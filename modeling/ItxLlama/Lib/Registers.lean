import Mathlib.Data.Nat.Bitwise

/-!
# Registers with hard-wired bits

A register of a device is read and written as a whole, and a write changes only
the bits of its mask. Registers that do not touch each other make up a wider
one. Writing all ones and then all zeros finds the mask.
-/

namespace ItxLlama.Lib.Registers

/-- What a register holds after a write. -/
def masked (mask old v : BitVec w) : BitVec w := (old &&& ~~~mask) ||| (v &&& mask)

theorem masked_masked (mask old u v : BitVec w) :
    masked mask (masked mask old u) v = masked mask old v := by
  apply BitVec.eq_of_getLsbD_eq
  intro i hi
  simp only [masked, BitVec.getLsbD_or, BitVec.getLsbD_and, BitVec.getLsbD_not, hi, decide_true,
    Bool.true_and]
  cases mask.getLsbD i <;> simp

theorem masked_self (mask old : BitVec w) : masked mask old old = old := by
  apply BitVec.eq_of_getLsbD_eq
  intro i hi
  simp only [masked, BitVec.getLsbD_or, BitVec.getLsbD_and, BitVec.getLsbD_not, hi, decide_true,
    Bool.true_and]
  cases mask.getLsbD i <;> simp

theorem masked_append (m₁ x₁ v₁ : BitVec a) (m₂ x₂ v₂ : BitVec b) :
    masked (m₁ ++ m₂) (x₁ ++ x₂) (v₁ ++ v₂) = masked m₁ x₁ v₁ ++ masked m₂ x₂ v₂ := by
  simp only [masked, BitVec.not_append, BitVec.and_append, BitVec.or_append]

theorem masked_moves (mask x y : BitVec w) (h : x &&& ~~~mask = y &&& ~~~mask) :
    masked mask x (BitVec.allOnes w) ^^^ masked mask y 0 = mask := by
  apply BitVec.eq_of_getLsbD_eq
  intro i hi
  have hbit : (x &&& ~~~mask).getLsbD i = (y &&& ~~~mask).getLsbD i := by rw [h]
  simp only [masked, BitVec.getLsbD_xor, BitVec.getLsbD_or, BitVec.getLsbD_and, BitVec.getLsbD_not,
    hi, decide_true, Bool.true_and, BitVec.getLsbD_allOnes] at hbit ⊢
  rw [hbit]
  cases mask.getLsbD i <;> simp

theorem split_append (x : BitVec (a + b)) : x.extractLsb' b a ++ x.extractLsb' 0 b = x := by
  rw [BitVec.extractLsb'_append_extractLsb'_eq_extractLsb' (Nat.zero_add b).symm]
  exact BitVec.extractLsb'_eq_self

theorem zeroExtend_append (hi : BitVec a) (lo : BitVec b) (s : Nat) :
    lo.zeroExtend w <<< s ||| hi.zeroExtend w <<< (s + b) = (hi ++ lo).zeroExtend w <<< s := by
  apply BitVec.eq_of_getLsbD_eq
  intro i hlt
  simp only [BitVec.truncate_eq_setWidth, BitVec.getLsbD_or, BitVec.getLsbD_setWidth,
    BitVec.getLsbD_shiftLeft, BitVec.getLsbD_append, hlt, decide_true, Bool.true_and]
  by_cases hs : i < s
  · have hsb : i < s + b := by omega
    simp [hs, hsb]
  · have hsub : i - s < w := by omega
    have hsub' : i - (s + b) < w := by omega
    by_cases hb : i - s < b
    · have hsb : i < s + b := by omega
      simp [hs, hb, hsb, hsub]
    · have hsb : ¬ i < s + b := by omega
      have hclear : lo.getLsbD (i - s) = false := BitVec.getLsbD_of_ge lo _ (Nat.le_of_not_lt hb)
      simp [hs, hb, hsb, hsub, hsub', hclear, Nat.sub_sub]

theorem extract_ofNat (n : Nat) (h : s + v ≤ w) :
    (BitVec.ofNat w n).extractLsb' s v = BitVec.ofNat v (n >>> s) := by
  apply BitVec.eq_of_getLsbD_eq
  intro i hi
  have hlt : s + i < w := by omega
  simp only [BitVec.getLsbD_extractLsb', BitVec.getLsbD_ofNat, Nat.testBit_shiftRight, hi, hlt,
    decide_true, Bool.true_and]

structure Register (σ : Type) (w : Nat) where
  read : σ → BitVec w
  mask : σ → BitVec w
  write : σ → BitVec w → σ
  read_write : ∀ s v, read (write s v) = masked (mask s) (read s) v
  mask_write : ∀ s v, mask (write s v) = mask s
  write_write : ∀ s u v, write (write s u) v = write s v
  write_read : ∀ s, write s (read s) = s

variable {σ : Type}

theorem Register.probe (r : Register σ w) (s : σ) :
    r.read (r.write s (BitVec.allOnes w)) ^^^ r.read (r.write (r.write s (BitVec.allOnes w)) 0) =
        r.mask s ∧
      r.write (r.write (r.write s (BitVec.allOnes w)) 0) (r.read s) = s := by
  refine ⟨?_, ?_⟩
  · rw [r.write_write, r.read_write, r.read_write]
    exact masked_moves _ _ _ rfl
  · rw [r.write_write, r.write_write, r.write_read]

/-- A write to one register does not touch the other. -/
structure Apart (hi : Register σ a) (lo : Register σ b) : Prop where
  read_left : ∀ s v, hi.read (lo.write s v) = hi.read s
  mask_left : ∀ s v, hi.mask (lo.write s v) = hi.mask s
  read_right : ∀ s v, lo.read (hi.write s v) = lo.read s
  mask_right : ∀ s v, lo.mask (hi.write s v) = lo.mask s
  comm : ∀ s u v, hi.write (lo.write s v) u = lo.write (hi.write s u) v

theorem Apart.symm {hi : Register σ a} {lo : Register σ b} (h : Apart hi lo) : Apart lo hi where
  read_left := h.read_right
  mask_left := h.mask_right
  read_right := h.read_left
  mask_right := h.mask_left
  comm s u v := (h.comm s v u).symm

/-- Two registers read and written as one, the low one first. -/
def Register.append (hi : Register σ a) (lo : Register σ b) (h : Apart hi lo) :
    Register σ (a + b) where
  read s := hi.read s ++ lo.read s
  mask s := hi.mask s ++ lo.mask s
  write s v := hi.write (lo.write s (v.extractLsb' 0 b)) (v.extractLsb' b a)
  read_write s v := by
    rw [hi.read_write, h.read_left, h.mask_left, h.read_right, lo.read_write, ← masked_append,
      split_append]
  mask_write s v := by rw [hi.mask_write, h.mask_left, h.mask_right, lo.mask_write]
  write_write s u v := by rw [← h.comm, hi.write_write, lo.write_write]
  write_read s := by
    have hlo : (hi.read s ++ lo.read s).extractLsb' 0 b = lo.read s := by
      apply BitVec.eq_of_getLsbD_eq
      intro i hlt
      simp [BitVec.getLsbD_append, hlt]
    have hhi : (hi.read s ++ lo.read s).extractLsb' b a = hi.read s := by
      apply BitVec.eq_of_getLsbD_eq
      intro i hlt
      simp [BitVec.getLsbD_append, hlt]
    rw [hlo, hhi, lo.write_read, hi.write_read]

section

variable {other : Register σ c} {hi : Register σ a} {lo : Register σ b}

theorem append_read (h : Apart hi lo) (s : σ) :
    (hi.append lo h).read s = hi.read s ++ lo.read s := rfl

theorem append_mask (h : Apart hi lo) (s : σ) :
    (hi.append lo h).mask s = hi.mask s ++ lo.mask s := rfl

theorem append_write (h : Apart hi lo) (s : σ) (v : BitVec (a + b)) :
    (hi.append lo h).write s v =
      hi.write (lo.write s (v.extractLsb' 0 b)) (v.extractLsb' b a) := rfl

theorem Apart.append (hhi : Apart other hi) (hlo : Apart other lo) (h : Apart hi lo) :
    Apart other (hi.append lo h) where
  read_left s v := by rw [append_write, hhi.read_left, hlo.read_left]
  mask_left s v := by rw [append_write, hhi.mask_left, hlo.mask_left]
  read_right s v := by rw [append_read, append_read, hhi.read_right, hlo.read_right]
  mask_right s v := by rw [append_mask, append_mask, hhi.mask_right, hlo.mask_right]
  comm s u v := by rw [append_write, append_write, hhi.comm, hlo.comm]

theorem Apart.append_append {hi' : Register σ c} {lo' : Register σ d} (hhi : Apart hi hi')
    (hhl : Apart hi lo') (hlh : Apart lo hi') (hlo : Apart lo lo') (h : Apart hi lo)
    (h' : Apart hi' lo') : Apart (hi.append lo h) (hi'.append lo' h') :=
  ((hhi.append hhl h').symm.append (hlh.append hlo h').symm h).symm

end

-- ---------------------------------------------------------------------------
-- Fields
-- ---------------------------------------------------------------------------

/-- The mask of the bits from `k` up to `m`. -/
def IsField (mask : BitVec w) (k m : Nat) : Prop :=
  ∀ i, mask.getLsbD i = decide (k ≤ i ∧ i < m)

theorem IsField.and_toNat {mask : BitVec w} (h : IsField mask k m) (v : BitVec w) :
    (v &&& mask).toNat = v.toNat % 2 ^ m / 2 ^ k * 2 ^ k := by
  apply Nat.eq_of_testBit_eq
  intro i
  have hmask : mask.toNat.testBit i = decide (k ≤ i ∧ i < m) := h i
  rw [BitVec.toNat_and, Nat.testBit_and, hmask, Nat.testBit_mul_two_pow]
  by_cases hk : k ≤ i
  · rw [Nat.testBit_div_two_pow, Nat.sub_add_cancel hk, Nat.testBit_mod_two_pow]
    simp [hk, Bool.and_comm]
  · simp [hk]

theorem IsField.or_low {mask : BitVec w} (h : IsField mask k m) (hk : k < m) (hm : m ≤ w) :
    (mask ||| BitVec.ofNat w (2 ^ k - 1)).toNat = 2 ^ m - 1 := by
  apply Nat.eq_of_testBit_eq
  intro i
  have hmask : mask.toNat.testBit i = decide (k ≤ i ∧ i < m) := h i
  have hlow : (2 ^ k - 1) % 2 ^ w = 2 ^ k - 1 :=
    Nat.mod_eq_of_lt (Nat.lt_of_lt_of_le (Nat.sub_lt (Nat.two_pow_pos k) Nat.one_pos)
      (Nat.pow_le_pow_right (by decide) (by omega)))
  rw [BitVec.toNat_or, BitVec.toNat_ofNat, hlow, Nat.testBit_or, hmask, Nat.testBit_two_pow_sub_one,
    Nat.testBit_two_pow_sub_one, Bool.eq_iff_iff]
  simp only [Bool.or_eq_true, decide_eq_true_eq]
  omega

theorem IsField.and {x y : BitVec w} (hx : IsField x k m) (hy : IsField y k m) :
    IsField (x &&& y) k m := by
  intro i
  rw [BitVec.getLsbD_and, hx i, hy i, Bool.and_self]

theorem IsField.shift {mask : BitVec w} (h : IsField mask k m) (s : Nat) (hm : m + s ≤ v) :
    IsField (mask.zeroExtend v <<< s) (k + s) (m + s) := by
  intro i
  rw [Bool.eq_iff_iff, BitVec.getLsbD_shiftLeft,
    BitVec.getLsbD_setWidth, h (i - s)]
  simp only [Bool.and_eq_true, Bool.not_eq_true', decide_eq_true_eq, decide_eq_false_iff_not]
  omega

theorem isField_of_bounded {mask : BitVec w} (hm : m ≤ w)
    (h : ∀ i < w, mask.getLsbD i = decide (k ≤ i ∧ i < m)) : IsField mask k m := by
  intro i
  by_cases hi : i < w
  · exact h i hi
  · have hout : ¬ (k ≤ i ∧ i < m) := by omega
    rw [BitVec.getLsbD_of_ge mask i (Nat.le_of_not_lt hi), decide_eq_false hout]

theorem getLsbD_low (w a i : Nat) :
    (BitVec.ofNat w (2 ^ a - 1)).getLsbD i = (decide (i < w) && decide (i < a)) := by
  rw [BitVec.getLsbD_ofNat, Nat.testBit_two_pow_sub_one]

/-- What is written, but for the hard-wired bits, of which only the lowest `a` are set. -/
theorem IsField.masked_high {mask : BitVec w} (h : IsField mask k m) (ha : a ≤ k)
    (hfixed : old &&& ~~~mask &&& ~~~BitVec.ofNat w (2 ^ a - 1) = 0#w) (v : BitVec w) :
    masked mask old v &&& ~~~BitVec.ofNat w (2 ^ a - 1) = v &&& mask := by
  apply BitVec.eq_of_getLsbD_eq
  intro i hi
  have hbit := congrArg (BitVec.getLsbD · i) hfixed
  simp only [masked, BitVec.getLsbD_and, BitVec.getLsbD_or, BitVec.getLsbD_not, getLsbD_low, hi,
    h i, decide_true, Bool.true_and, BitVec.getLsbD_zero] at hbit ⊢
  by_cases hlow : i < a
  · have hclear : ¬ k ≤ i := by omega
    simp [hlow, hclear]
  · simp only [hlow, decide_false, Bool.not_false, Bool.and_true] at hbit ⊢
    rw [hbit, Bool.false_or]

theorem IsField.ne_zero {mask : BitVec w} (h : IsField mask k m) (hk : k < m) : mask ≠ 0 := by
  rintro rfl
  have hbit := h k
  simp [hk] at hbit

end ItxLlama.Lib.Registers
