import ItxLlama.Lib.Bytes
import ItxLlama.Lib.OnesComplement

/-!
# IP checksums

`lib/compute_ip_checksum.c`: a byte at a time with the carry brought around,
and the checksum of two strings from the checksums of each. The checksum of a
string is the complement of the one's complement sum of its bytes, the odd
ones shifted by a byte.
-/

namespace ItxLlama.Coreboot

open Lib.Bytes Lib.OnesComplement

/-- `~x & 0xFFFF` -/
def not16 (x : Nat) : Nat := 0xffff - x % 2 ^ 16

/-- The loop of `compute_ip_checksum`, at byte `i`. -/
def ipSum (i sum : Nat) : List Byte → Nat
  | [] => sum
  | b :: ptr =>
    let v := if i % 2 = 1 then b.toNat <<< 8 else b.toNat
    let sum := sum + v
    let sum := if sum > 0xffff then (sum + (sum >>> 16)) % 2 ^ 16 else sum
    ipSum (i + 1) sum ptr

/-- The word of the union, in the byte order of x86. -/
def computeIpChecksum (addr : List Byte) : Nat :=
  let sum := ipSum 0 0 addr
  let byte0 := sum % 2 ^ 8
  let byte1 := (sum >>> 8) % 2 ^ 8
  not16 (byte0 + byte1 <<< 8)

def addIpChecksums (offset sum new : Nat) : Nat :=
  let sum := not16 sum
  let new := not16 new
  let new := if offset % 2 = 1 then (new >>> 8) % 2 ^ 8 + (new % 2 ^ 8) <<< 8 else new
  let checksum := sum + new
  let checksum := if checksum > 0xffff then checksum - 0xffff else checksum
  not16 checksum

-- ---------------------------------------------------------------------------
-- The sum
-- ---------------------------------------------------------------------------

/-- What the bytes from offset `i` on add up to. -/
def ipTotal (i : Nat) : List Byte → Nat
  | [] => 0
  | b :: bs => (if i % 2 = 1 then b.toNat <<< 8 else b.toNat) + ipTotal (i + 1) bs

theorem not16_not16 (h : x ≤ 0xffff) : not16 (not16 x) = x := by
  unfold not16
  omega

theorem wrap_eq_carry (h : x ≤ 0x1fffe) :
    (if x > 0xffff then (x + (x >>> 16)) % 2 ^ 16 else x) = carry 0xffff x := by
  unfold carry
  split
  case isTrue hx =>
    rw [Nat.shiftRight_eq_div_pow, show x / 2 ^ 16 = if x = 0xffff then 0 else 1 by split <;> omega]
    split <;> omega
  case isFalse => rfl

theorem ipValue_le (i : Nat) (b : Byte) :
    (if i % 2 = 1 then b.toNat <<< 8 else b.toNat) ≤ 0xffff := by
  have := b.isLt
  rw [Nat.shiftLeft_eq]
  split <;> omega

theorem ipSum_eq (h : sum = rep 0xffff t) : ipSum i sum bs = rep 0xffff (t + ipTotal i bs) := by
  induction bs generalizing i sum t with
  | nil => exact h
  | cons b bs ih =>
    have hv := ipValue_le i b
    have hsum : sum ≤ 0xffff := h ▸ rep_le (by decide) t
    rw [ipSum, ipTotal, ← Nat.add_assoc]
    apply ih
    rw [wrap_eq_carry (by omega), carry_eq_rep (by decide) hsum hv, h]
    nth_rewrite 1 [← rep_of_le (by decide) hv]
    exact rep_add_rep (by decide) _ _

theorem computeIpChecksum_eq (bs : List Byte) :
    computeIpChecksum bs = not16 (rep 0xffff (ipTotal 0 bs)) := by
  have hsum : ipSum 0 0 bs = rep 0xffff (ipTotal 0 bs) := by
    rw [ipSum_eq (rep_zero _).symm, Nat.zero_add]
  have hle : rep 0xffff (ipTotal 0 bs) ≤ 0xffff := rep_le (by decide) _
  simp only [computeIpChecksum, hsum, Nat.shiftLeft_eq, Nat.shiftRight_eq_div_pow]
  congr 1
  omega

theorem ipTotal_append (i : Nat) (as bs : List Byte) :
    ipTotal i (as ++ bs) = ipTotal i as + ipTotal (i + as.length) bs := by
  induction as generalizing i with
  | nil => simp [ipTotal]
  | cons a as ih =>
    rw [List.cons_append, ipTotal, ipTotal, ih, List.length_cons, Nat.add_assoc, Nat.add_assoc,
      Nat.add_comm 1]

theorem ipTotal_parity (h : i % 2 = j % 2) (bs : List Byte) : ipTotal i bs = ipTotal j bs := by
  induction bs generalizing i j with
  | nil => rfl
  | cons b bs ih =>
    rw [ipTotal, ipTotal, h, ih (i := i + 1) (j := j + 1) (by omega)]

/-- One offset further every byte counts 256 times as much. -/
theorem ipTotal_succ (i : Nat) (bs : List Byte) :
    ipTotal (i + 1) bs ≡ 256 * ipTotal i bs [MOD 0xffff] := by
  induction bs generalizing i with
  | nil => rfl
  | cons b bs ih =>
    rw [ipTotal, ipTotal, Nat.mul_add]
    refine Nat.ModEq.add ?_ (ih (i + 1))
    rw [Nat.shiftLeft_eq]
    rcases Nat.mod_two_eq_zero_or_one i with hi | hi
    · rw [if_pos (by omega), if_neg (by omega), Nat.mul_comm]
    · rw [if_neg (by omega), if_pos hi]
      exact (Nat.modEq_iff_dvd' (by omega)).mpr ⟨b.toNat, by omega⟩

theorem ipTotal_eq_zero (i : Nat) : ipTotal i bs = 0 ↔ ∀ b ∈ bs, b = 0 := by
  induction bs generalizing i with
  | nil => simp [ipTotal]
  | cons b bs ih =>
    have hb : (if i % 2 = 1 then b.toNat <<< 8 else b.toNat) = 0 ↔ b = 0 := by
      rw [Nat.shiftLeft_eq, ← BitVec.toNat_inj]
      split <;> simp
    rw [ipTotal, Nat.add_eq_zero_iff, hb, ih, List.forall_mem_cons]

/-- A string's sum at an odd offset, from its sum at offset 0. -/
theorem rep_ipTotal_odd (hi : i % 2 = 1) (bs : List Byte) :
    rep 0xffff (ipTotal i bs) = rep 0xffff (256 * ipTotal 0 bs) := by
  rw [ipTotal_parity (j := 1) hi]
  refine rep_congr (by decide) ?_ (ipTotal_succ 0 bs)
  rw [Nat.mul_eq_zero, ipTotal_eq_zero, ipTotal_eq_zero]
  simp

theorem swap_rep (t : Nat) :
    (rep 0xffff t >>> 8) % 2 ^ 8 + (rep 0xffff t % 2 ^ 8) <<< 8 = rep 0xffff (256 * t) := by
  have hle : rep 0xffff t ≤ 0xffff := rep_le (by decide) t
  rw [← rep_mul_rep (by decide) (by decide)]
  generalize rep 0xffff t = x at hle
  rw [Nat.shiftLeft_eq, Nat.shiftRight_eq_div_pow]
  refine eq_of_modEq (by omega) (rep_le (by decide) _) (by simp; omega) ?_
  refine Nat.ModEq.trans ?_ (rep_modEq _ _).symm
  exact (Nat.modEq_iff_dvd' (by omega)).mpr ⟨x / 2 ^ 8, by omega⟩

/-- The checksum of two strings one after the other, from the length of the
first and the checksum of each. -/
theorem addIpChecksums_append (as bs : List Byte) :
    addIpChecksums as.length (computeIpChecksum as) (computeIpChecksum bs) =
      computeIpChecksum (as ++ bs) := by
  have ha : rep 0xffff (ipTotal 0 as) ≤ 0xffff := rep_le (by decide) _
  have hb : rep 0xffff (ipTotal 0 bs) ≤ 0xffff := rep_le (by decide) _
  have hswap : (if as.length % 2 = 1 then (rep 0xffff (ipTotal 0 bs) >>> 8) % 2 ^ 8 +
      (rep 0xffff (ipTotal 0 bs) % 2 ^ 8) <<< 8 else rep 0xffff (ipTotal 0 bs)) =
      rep 0xffff (ipTotal as.length bs) := by
    split
    case isTrue h => rw [swap_rep, rep_ipTotal_odd h]
    case isFalse h => rw [ipTotal_parity (j := as.length) (by omega)]
  have hle : rep 0xffff (ipTotal as.length bs) ≤ 0xffff := rep_le (by decide) _
  have hsum := carry_eq_rep (m := 0xffff) (by decide) ha hle
  simp only [addIpChecksums, computeIpChecksum_eq, not16_not16 ha, not16_not16 hb, hswap]
  rw [← carry, hsum, rep_add_rep (by decide), ipTotal_append, Nat.zero_add]

/-- Behind three bytes the second string starts in the middle of a word. -/
theorem addIpChecksums_append_odd :
    computeIpChecksum [0x45, 0x00, 0x3c] = 0xff7e ∧ computeIpChecksum [0x1c, 0x46] = 0xb9e3 ∧
      addIpChecksums 3 0xff7e 0xb9e3 = 0xe338 :=
  ⟨by decide, by decide, (addIpChecksums_append [0x45, 0x00, 0x3c] [0x1c, 0x46]).trans (by decide)⟩

end ItxLlama.Coreboot
