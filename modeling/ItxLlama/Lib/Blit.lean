import Mathlib.Data.BitVec

/-!
# Runs of a memory

Replacing a run of values in a memory with a finite address space. A run that
reaches the end goes on at the start, and two runs that follow each other are
one.
-/

namespace ItxLlama.Lib.Blit

variable {w : Nat} {α : Type} {m : BitVec w → α} {start : BitVec w} {src src' : Nat → α}

def blit (m : BitVec w → α) (start : BitVec w) (n : Nat) (src : Nat → α) : BitVec w → α := fun a =>
  if (a - start).toNat < n then src (a - start).toNat else m a

/-- The values from `start` on. -/
def slice (m : BitVec w → α) (start : BitVec w) : Nat → α := fun i => m (start + BitVec.ofNat w i)

theorem blit_zero (m : BitVec w → α) (start : BitVec w) (src : Nat → α) : blit m start 0 src = m :=
  funext fun _ => if_neg (Nat.not_lt_zero _)

theorem blit_congr (h : ∀ i < n, src i = src' i) : blit m start n src = blit m start n src' := by
  funext a
  simp only [blit]
  split
  · exact h _ ‹_›
  · rfl

theorem slice_add (m : BitVec w → α) (start : BitVec w) (n i : Nat) :
    slice m (start + BitVec.ofNat w n) i = slice m start (n + i) := by
  rw [slice, slice, BitVec.add_assoc, ← BitVec.ofNat_add]

theorem slice_blit (h : n ≤ 2 ^ w) (hi : i < n) : slice (blit m start n src) start i = src i := by
  have hoff : (start + BitVec.ofNat w i - start).toNat = i := by
    rw [BitVec.add_comm, BitVec.add_sub_cancel, BitVec.toNat_ofNat, Nat.mod_eq_of_lt (by omega)]
  rw [slice, blit, hoff, if_pos hi]

theorem offset_add (a start : BitVec w) (h : n < 2 ^ w) :
    (a - (start + BitVec.ofNat w n)).toNat =
      if n ≤ (a - start).toNat then (a - start).toNat - n else (a - start).toNat + 2 ^ w - n := by
  have hx := (a - start).isLt
  rw [← BitVec.sub_sub, BitVec.toNat_sub, BitVec.toNat_ofNat, Nat.mod_eq_of_lt h]
  split
  · rw [show 2 ^ w - n + (a - start).toNat = (a - start).toNat - n + 2 ^ w by omega,
      Nat.add_mod_right, Nat.mod_eq_of_lt (by omega)]
  · rw [Nat.mod_eq_of_lt (by omega)]
    omega

theorem blit_blit (m : BitVec w → α) (start : BitVec w) (src : Nat → α) (h : n + k ≤ 2 ^ w) :
    blit (blit m start n src) (start + BitVec.ofNat w n) k (fun i => src (n + i)) =
      blit m start (n + k) src := by
  rcases Nat.eq_zero_or_pos k with rfl | hk
  · exact blit_zero _ _ _
  funext a
  have hx := (a - start).isLt
  simp only [blit, offset_add a start (show n < 2 ^ w by omega)]
  by_cases hlow : n ≤ (a - start).toNat
  · simp only [if_pos hlow, if_neg (Nat.not_lt.mpr hlow), Nat.add_sub_cancel' hlow,
      Nat.sub_lt_iff_lt_add hlow, Nat.add_comm k n]
  · rw [if_neg hlow, if_neg (by omega), if_pos (by omega), if_pos (by omega)]

end ItxLlama.Lib.Blit
