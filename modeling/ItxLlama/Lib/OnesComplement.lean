import Mathlib.Data.Nat.ModEq

/-!
# One's complement sums

Sums modulo `m` with an end-around carry, as Internet checksums use them:
0 stands only for a sum of zeros, and every other multiple of `m` is `m`.
-/

namespace ItxLlama.Lib.OnesComplement

variable {m : Nat}

/-- The representative of a total. -/
def rep (m t : Nat) : Nat := if t = 0 then 0 else (t - 1) % m + 1

/-- Bring a carry around. -/
def carry (m x : Nat) : Nat := if x > m then x - m else x

@[simp] theorem rep_zero (m : Nat) : rep m 0 = 0 := rfl

theorem rep_succ (m t : Nat) : rep m (t + 1) = t % m + 1 := rfl

theorem rep_le (hm : 0 < m) (t : Nat) : rep m t ≤ m := by
  cases t with
  | zero => exact Nat.zero_le m
  | succ t => exact Nat.mod_lt t hm

@[simp] theorem rep_eq_zero : rep m t = 0 ↔ t = 0 := by
  cases t with
  | zero => simp
  | succ t => simp [rep_succ]

theorem rep_modEq (m t : Nat) : rep m t ≡ t [MOD m] := by
  cases t with
  | zero => exact Nat.ModEq.refl 0
  | succ t => exact (Nat.mod_modEq t m).add_right 1

theorem eq_of_modEq (hx : x ≤ m) (hy : y ≤ m) (hz : x = 0 ↔ y = 0) (h : x ≡ y [MOD m]) :
    x = y := by
  rcases Nat.eq_or_lt_of_le hx with rfl | hx
  · rcases Nat.eq_or_lt_of_le hy with hy | hy
    · exact hy.symm
    · have : y = 0 := by simpa [Nat.ModEq, Nat.mod_eq_of_lt hy] using h.symm
      exact (hz.mpr this).trans this.symm
  · rcases Nat.eq_or_lt_of_le hy with rfl | hy
    · have : x = 0 := by simpa [Nat.ModEq, Nat.mod_eq_of_lt hx] using h
      exact this.trans (hz.mp this).symm
    · exact h.eq_of_lt_of_lt hx hy

theorem rep_congr (hm : 0 < m) (hz : t = 0 ↔ t' = 0) (h : t ≡ t' [MOD m]) : rep m t = rep m t' := by
  refine eq_of_modEq (rep_le hm t) (rep_le hm t') (by simpa using hz) ?_
  exact ((rep_modEq m t).trans h).trans (rep_modEq m t').symm

theorem rep_of_le (hm : 0 < m) (h : x ≤ m) : rep m x = x :=
  eq_of_modEq (rep_le hm x) h rep_eq_zero (rep_modEq m x)

theorem rep_add_rep (hm : 0 < m) (a b : Nat) : rep m (rep m a + rep m b) = rep m (a + b) :=
  rep_congr hm (by simp) ((rep_modEq m a).add (rep_modEq m b))

theorem carry_eq_rep (hm : 0 < m) (hx : x ≤ m) (hy : y ≤ m) : carry m (x + y) = rep m (x + y) := by
  unfold carry
  split
  case isTrue h =>
    refine eq_of_modEq (by omega) (rep_le hm _) ⟨by omega, by simp; omega⟩ ?_
    refine Nat.ModEq.trans ?_ (rep_modEq m _).symm
    exact (Nat.modEq_iff_dvd' (Nat.sub_le _ m)).mpr ⟨1, by omega⟩
  case isFalse h => exact (rep_of_le hm (by omega)).symm

/-- Multiplying by a number that is 1 or more keeps 0 apart. -/
theorem rep_mul_rep (hm : 0 < m) (hk : 0 < k) (t : Nat) : rep m (k * rep m t) = rep m (k * t) :=
  rep_congr hm (by simp [Nat.pos_iff_ne_zero.mp hk]) ((rep_modEq m t).mul_left k)

end ItxLlama.Lib.OnesComplement
