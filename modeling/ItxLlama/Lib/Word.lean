import Mathlib.Data.BitVec
import Mathlib.Data.Nat.ModEq

/-!
# Fixed-width words

C's unsigned arithmetic on natural numbers: a word is a number below the
modulus, and every operation that can leave the range is reduced.
-/

namespace ItxLlama.Lib.Word

def u8 (n : Nat) : Nat := n % 2 ^ 8
def u16 (n : Nat) : Nat := n % 2 ^ 16
def u32 (n : Nat) : Nat := n % 2 ^ 32
def u64 (n : Nat) : Nat := n % 2 ^ 64

theorem u8_eq (h : n < 2 ^ 8) : u8 n = n := Nat.mod_eq_of_lt h
theorem u16_eq (h : n < 2 ^ 16) : u16 n = n := Nat.mod_eq_of_lt h
theorem u32_eq (h : n < 2 ^ 32) : u32 n = n := Nat.mod_eq_of_lt h
theorem u64_eq (h : n < 2 ^ 64) : u64 n = n := Nat.mod_eq_of_lt h

/-- `x & ~(a - 1)`, for `a` a power of two. -/
def alignDown (x a : Nat) : Nat := x - x % a

/-- `(x + a - 1) & ~(a - 1)`, for `a` a power of two, where the sum does
not wrap. -/
def alignUp (x a : Nat) : Nat := alignDown (x + (a - 1)) a

theorem alignDown_le (x a : Nat) : alignDown x a ≤ x := Nat.sub_le _ _

theorem dvd_alignDown (x a : Nat) : a ∣ alignDown x a := Nat.dvd_sub_mod x

theorem lt_alignDown_add (x : Nat) (ha : 0 < a) : x < alignDown x a + a := by
  have := Nat.mod_lt x ha
  unfold alignDown
  omega

theorem dvd_alignUp (x a : Nat) : a ∣ alignUp x a := dvd_alignDown _ _

theorem le_alignUp (x : Nat) (ha : 0 < a) : x ≤ alignUp x a := by
  have := lt_alignDown_add (x + (a - 1)) ha
  unfold alignUp
  omega

theorem alignUp_lt (x : Nat) (ha : 0 < a) : alignUp x a < x + a := by
  have := alignDown_le (x + (a - 1)) a
  unfold alignUp
  omega

theorem alignUp_unique (ha : 0 < a) (hd : a ∣ y) (hle : x ≤ y) (hlt : y < x + a) :
    alignUp x a = y := by
  obtain ⟨j, hj⟩ := dvd_alignUp x a
  obtain ⟨k, rfl⟩ := hd
  have hle' := le_alignUp x ha
  have hlt' := alignUp_lt x ha
  have hjk : a * j < a * (k + 1) := by
    rw [Nat.mul_succ]
    omega
  have hkj : a * k < a * (j + 1) := by
    rw [Nat.mul_succ]
    omega
  have := Nat.lt_of_mul_lt_mul_left hjk
  have := Nat.lt_of_mul_lt_mul_left hkj
  rw [hj, show j = k by omega]

theorem alignUp_of_dvd (ha : 0 < a) (hd : a ∣ x) : alignUp x a = x :=
  alignUp_unique ha hd (Nat.le_refl _) (Nat.lt_add_of_pos_right ha)

end ItxLlama.Lib.Word

/-!
## Differences that wrap

The difference of two 32-bit words, by which of them is the larger.
-/

namespace ItxLlama.Lib.Wrap

open Word

def sub32 (a b : Nat) : Nat := u32 (a + (2 ^ 32 - b))

theorem sub32_of_le (h : b ≤ a) (ha : a < 2 ^ 32) : sub32 a b = a - b := by
  unfold sub32 u32
  omega

theorem sub32_of_lt (h : a < b) (hb : b ≤ 2 ^ 32) : sub32 a b = a + 2 ^ 32 - b := by
  unfold sub32 u32
  omega

/-- A distance that fits is found again, also across the end. -/
theorem sub32_add (h : n < 2 ^ 32) (ha : a < 2 ^ 32) : sub32 (u32 (a + n)) a = n := by
  unfold sub32 u32
  omega

theorem sub32_sub (hst : s < t) (ht : t < 2 ^ 32) :
    sub32 (sub32 m s % 2 ^ 32) (t - s) = sub32 m t := by
  unfold sub32 u32
  omega

end ItxLlama.Lib.Wrap

/-!
## Signed words

C's conversions between signed and unsigned words of a fixed width.
-/

namespace ItxLlama.Lib.Signed

def uint32 (x : Int) : Nat := (x % 2 ^ 32).toNat
def uint64 (x : Int) : Nat := (x % 2 ^ 64).toNat

/-- The `int` with the same bits. -/
def int32 (x : Int) : Int := x.bmod (2 ^ 32)

theorem uint32_eq {n : Nat} (h : n < 2 ^ 32) : uint32 n = n := by
  unfold uint32
  omega

theorem uint64_eq {n : Nat} (h : n < 2 ^ 64) : uint64 n = n := by
  unfold uint64
  omega

theorem int32_eq (hlo : -2 ^ 31 ≤ x) (hhi : x < 2 ^ 31) : int32 x = x := by
  unfold int32
  exact Int.bmod_eq_of_le (by omega) (by omega)

theorem int32_high {n : Nat} (hlo : 2 ^ 31 ≤ n) (hhi : n < 2 ^ 32) : int32 n = n - 2 ^ 32 := by
  rw [int32, Int.bmod_def]
  split <;> omega

theorem int32_lt (x : Int) : int32 x < 2 ^ 31 := by
  rw [int32, Int.bmod_def]
  split <;> omega

theorem int32_le (h : -2 ^ 31 ≤ x) : int32 x ≤ x := by
  rw [int32, Int.bmod_def]
  split <;> omega

theorem int32_sub (x y : Int) : int32 (int32 x - y) = int32 (x - y) := Int.bmod_sub_bmod

theorem int32_mul_add (x y z : Int) : int32 (int32 x * y + z) = int32 (x * y + z) := by
  rw [int32, int32, int32, ← Int.bmod_add_bmod, Int.bmod_mul_bmod, Int.bmod_add_bmod]

end ItxLlama.Lib.Signed

/-!
## Deadlines on a clock that wraps

A clock counts modulo `m`. How far it is past a point is a difference modulo
`m`, and the point counts as passed when that is less than half a turn.
-/

namespace ItxLlama.Lib.ModularClock

variable {m : Nat}

/-- How far past `fin` the clock is at `now`. -/
def past (m now fin : Nat) : Nat := (now + m - fin) % m

theorem past_eq (hx : x < m) (hfin : fin < m) (h : fin + x ≡ now [MOD m]) : past m now fin = x := by
  refine Nat.ModEq.eq_of_lt_of_lt ?_ (Nat.mod_lt _ (by omega)) hx
  refine (Nat.mod_modEq _ m).trans (Nat.ModEq.add_left_cancel' fin ?_)
  rw [Nat.add_sub_cancel' (by omega)]
  exact (Nat.add_modEq_right (a := now) (n := m)).trans h.symm

theorem past_of_le (hd : d ≤ k) (hk : k - d < m) : past m ((a + k) % m) ((a + d) % m) = k - d := by
  refine past_eq hk (Nat.mod_lt _ (by omega)) ?_
  calc (a + d) % m + (k - d) ≡ a + d + (k - d) [MOD m] := (Nat.mod_modEq _ m).add_right _
    _ = a + k := by omega
    _ ≡ (a + k) % m [MOD m] := (Nat.mod_modEq _ m).symm

theorem past_of_lt (hd : k < d) (hk : d - k ≤ m) :
    past m ((a + k) % m) ((a + d) % m) = m - (d - k) := by
  refine past_eq (by omega) (Nat.mod_lt _ (by omega)) ?_
  calc (a + d) % m + (m - (d - k)) ≡ a + d + (m - (d - k)) [MOD m] :=
        (Nat.mod_modEq _ m).add_right _
    _ = a + k + m := by omega
    _ ≡ a + k [MOD m] := Nat.add_modEq_right
    _ ≡ (a + k) % m [MOD m] := (Nat.mod_modEq _ m).symm

end ItxLlama.Lib.ModularClock
