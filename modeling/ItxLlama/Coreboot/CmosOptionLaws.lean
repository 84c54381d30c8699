import ItxLlama.Coreboot.CmosOption
import Mathlib.Data.List.Nodup

/-!
# What a write of an option changes

A field is a range of bits that lies in one byte or is whole bytes. Writing it
sets its bits, and writes the checksum where the test of `set_cmos_value` finds
a byte in the checksummed range.
-/

namespace ItxLlama.Coreboot.CmosOption

open Lib.Word

theorem cmosRead_of_lt (h : a < 256) : cmosRead c a = c a := congrArg c (Nat.mod_eq_of_lt h)

theorem cmosWrite_eq (c : Cmos) (val : Byte) (addr : Nat) :
    cmosWrite c val addr = Function.update c (addr % 256) val := by
  have hboth : ∀ disable : Bool, (disable = true → addr % 256 ≠ rtcControl) → ∀ off : Byte,
      (if disable then cmosWriteInner (cmosWriteInner (if disable then
          cmosWriteInner c off rtcControl else c) val addr) (cmosRead c rtcControl) rtcControl
        else cmosWriteInner (if disable then cmosWriteInner c off rtcControl else c) val addr) =
      Function.update c (addr % 256) val := by
    intro disable hne off
    cases disable with
    | false => rfl
    | true =>
      -- the last write puts the control register back
      have hrest : Function.update (Function.update (Function.update c rtcControl off)
          (addr % 256) val) rtcControl (c rtcControl) = Function.update c (addr % 256) val := by
        rw [Function.update_comm (hne rfl), Function.update_idem, Function.update_eq_self]
      exact hrest
  exact hboth _ (fun h => (of_decide_eq_true h).1) _

-- ---------------------------------------------------------------------------
-- The checksum
-- ---------------------------------------------------------------------------

/-- The summed bytes and the two bytes of the sum lie apart in the CMOS. -/
structure Cks.Placed (k : Cks) : Prop where
  range : k.rangeStart ≤ k.rangeEnd
  rangeEnd : k.rangeEnd < 256
  loc : k.loc + 1 < 256
  apart : k.loc + 1 < k.rangeStart ∨ k.rangeEnd < k.loc

def Cks.InRange (k : Cks) (a : Nat) : Prop := k.rangeStart ≤ a ∧ a ≤ k.rangeEnd

section Checksum

variable {k : Cks} {c c' : Cmos}

theorem cksSum_congr (h : ∀ a, k.InRange a → cmosRead c' a = cmosRead c a) :
    cksSum c' k = cksSum c k := by
  unfold cksSum
  congr 2
  refine List.map_congr_left fun a ha => congrArg BitVec.toNat (h a ?_)
  rw [List.mem_range'_1] at ha
  exact ⟨ha.1, by omega⟩

theorem setChecksum_apply (hk : k.Placed) (c : Cmos) (a : Nat) :
    rtcSetChecksum c k a =
      if a = k.loc + 1 then BitVec.ofNat 8 (cksSum c k)
      else if a = k.loc then BitVec.ofNat 8 (cksSum c k / 256) else c a := by
  have hlo : k.loc % 256 = k.loc := Nat.mod_eq_of_lt (Nat.lt_of_succ_lt hk.loc)
  have hhi : (k.loc + 1) % 256 = k.loc + 1 := Nat.mod_eq_of_lt hk.loc
  simp only [rtcSetChecksum, cmosWrite_eq, hlo, hhi, Function.update_apply]

theorem Cks.Placed.ne_loc (hk : k.Placed) (h : k.InRange a) : a ≠ k.loc ∧ a ≠ k.loc + 1 := by
  obtain ⟨hstart, hend⟩ := h
  obtain hap | hap := hk.apart
  · omega
  · omega

theorem valid_iff (hk : k.Placed) : rtcChecksumValid c k = true ↔
    cksSum c k = (c k.loc).toNat * 256 + (c (k.loc + 1)).toNat := by
  rw [rtcChecksumValid, decide_eq_true_eq, cmosRead_of_lt (Nat.lt_of_succ_lt hk.loc),
    cmosRead_of_lt hk.loc]

theorem valid_setChecksum (hk : k.Placed) (c : Cmos) :
    rtcChecksumValid (rtcSetChecksum c k) k = true := by
  have hsum : cksSum (rtcSetChecksum c k) k = cksSum c k := by
    refine cksSum_congr fun a ha => ?_
    obtain ⟨hlo, hhi⟩ := hk.ne_loc ha
    have hlt : a < 256 := Nat.lt_of_le_of_lt ha.2 hk.rangeEnd
    rw [cmosRead_of_lt hlt, cmosRead_of_lt hlt, setChecksum_apply hk, if_neg hhi, if_neg hlo]
  have hlt : cksSum c k < 2 ^ 16 := Nat.mod_lt _ (by decide)
  rw [valid_iff hk, hsum, setChecksum_apply hk, setChecksum_apply hk, if_pos rfl,
    if_neg (by omega), if_pos rfl, BitVec.toNat_ofNat, BitVec.toNat_ofNat]
  omega

/-- The sum is still right when neither the summed bytes nor the stored sum changed. -/
theorem valid_congr (hk : k.Placed) (hvalid : rtcChecksumValid c k = true)
    (hrange : ∀ a, k.InRange a → c' a = c a) (hlo : c' k.loc = c k.loc)
    (hhi : c' (k.loc + 1) = c (k.loc + 1)) : rtcChecksumValid c' k = true := by
  rw [valid_iff hk] at hvalid ⊢
  rw [hlo, hhi, ← hvalid]
  refine cksSum_congr fun a ha => ?_
  have hlt : a < 256 := Nat.lt_of_le_of_lt ha.2 hk.rangeEnd
  rw [cmosRead_of_lt hlt, cmosRead_of_lt hlt, hrange a ha]

end Checksum

-- ---------------------------------------------------------------------------
-- Fields
-- ---------------------------------------------------------------------------

/-- A field that lies in one byte or is whole bytes. -/
structure Placed (bit length : Nat) : Prop where
  start : bit < 2048
  inside : bit + length ≤ 2048
  short : length ≤ 8 → bit % 8 + length ≤ 8
  long : 8 < length → bit % 8 = 0 ∧ length % 8 = 0

def bitAt (c : Cmos) (p : Nat) : Bool := (c (p / 8)).getLsbD (p % 8)

def valueBit (value : List Byte) (i : Nat) : Bool := (value.getD (i / 8) 0).getLsbD (i % 8)

/-- The byte whose place decides whether the checksum is written. -/
def testedByte (bit length : Nat) : Nat := if length ≤ 8 then bit / 8 else bit / 8 + length / 8

/-- What a write of a field does. -/
structure Stores (k : Cks) (c c' : Cmos) (bit length : Nat) (value : List Byte) : Prop where
  inside : ∀ i < length, bitAt c' (bit + i) = valueBit value i
  outside : ∀ p < 2048, ¬ (bit ≤ p ∧ p < bit + length) → p / 8 ≠ k.loc → p / 8 ≠ k.loc + 1 →
    bitAt c' p = bitAt c p
  summed : k.InRange (testedByte bit length) → rtcChecksumValid c' k = true
  unsummed : ¬ k.InRange (testedByte bit length) → c' k.loc = c k.loc ∧
    c' (k.loc + 1) = c (k.loc + 1)

theorem setBytes_apply (c : Cmos) (value : List Byte) (n i byte : Nat) (hfit : byte + n ≤ 256) :
    (setBytes c value i byte (8 * n)).2 = byte + n ∧
      ∀ a, (setBytes c value i byte (8 * n)).1 a =
        if byte ≤ a ∧ a < byte + n then value.getD (i + (a - byte)) 0 else c a := by
  induction n generalizing c i byte with
  | zero =>
    rw [setBytes, if_pos rfl]
    refine ⟨rfl, fun a => ?_⟩
    rw [if_neg (by omega)]
  | succ n ih =>
    have hmod : byte % 256 = byte := Nat.mod_eq_of_lt (by omega)
    rw [setBytes, if_neg (by omega), cmosWrite_eq, hmod, Nat.mul_succ, Nat.add_sub_cancel]
    obtain ⟨hafter, happly⟩ :=
      ih (Function.update c byte (value.getD i 0)) (i + 1) (byte + 1) (by omega)
    refine ⟨by rw [hafter]; omega, fun a => ?_⟩
    rw [happly a]
    by_cases ha : a = byte
    · rw [if_neg (by omega), if_pos (by omega), ha, Function.update_self, Nat.sub_self, Nat.add_zero]
    · rw [Function.update_of_ne ha]
      by_cases hin : byte + 1 ≤ a ∧ a < byte + 1 + n
      · rw [if_pos hin, if_pos (by omega)]
        congr 1
        omega
      · rw [if_neg hin, if_neg (by omega)]

theorem getLsbD_mask (j : Nat) :
    (BitVec.ofNat 8 (2 ^ n - 1)).getLsbD j = decide (j < 8 ∧ j < n) := by
  rw [BitVec.getLsbD_ofNat, Nat.testBit_two_pow_sub_one, Bool.decide_and]

theorem getLsbD_of_lt_two_pow {v : Byte} (h : v.toNat < 2 ^ n) (hj : n ≤ j) : v.getLsbD j = false :=
  Nat.testBit_lt_two_pow (Nat.lt_of_lt_of_le h (Nat.pow_le_pow_right (by decide) hj))

theorem getLsbD_stored {old v : Byte} (hfit : o + n ≤ 8) (hv : v.toNat < 2 ^ n) (hj : j < 8) :
    ((old &&& ~~~(BitVec.ofNat 8 (2 ^ n - 1) <<< o)) ||| (v <<< o)).getLsbD j =
      if o ≤ j ∧ j < o + n then v.getLsbD (j - o) else old.getLsbD j := by
  simp only [BitVec.getLsbD_or, BitVec.getLsbD_and, BitVec.getLsbD_not, BitVec.getLsbD_shiftLeft,
    getLsbD_mask, hj, decide_true, Bool.true_and]
  by_cases hlo : j < o
  · rw [if_neg (by omega)]
    simp [hlo]
  · by_cases hhi : j - o < n
    · have hmask : j - o < 8 := by omega
      rw [if_pos (by omega)]
      simp [hlo, hhi, hmask]
    · have hv' := getLsbD_of_lt_two_pow hv (Nat.le_of_not_lt hhi)
      rw [if_neg (by omega)]
      simp [hhi, hv']

theorem bitAt_update (c : Cmos) (a p : Nat) (x : Byte) :
    bitAt (Function.update c a x) p = if p / 8 = a then x.getLsbD (p % 8) else bitAt c p := by
  unfold bitAt
  by_cases h : p / 8 = a
  · rw [if_pos h, h, Function.update_self]
  · rw [if_neg h, Function.update_of_ne h]

theorem byte_eq_of_bits (h : ∀ j < 8, bitAt c' (8 * a + j) = bitAt c (8 * a + j)) : c' a = c a := by
  refine BitVec.eq_of_getLsbD_eq fun j hj => ?_
  have hbit := h j hj
  have hdiv : (8 * a + j) / 8 = a := by omega
  have hmod : (8 * a + j) % 8 = j := by omega
  rwa [bitAt, bitAt, hdiv, hmod] at hbit

/-- The field has no bit in the two bytes of the sum. -/
def Free (k : Cks) (bit length : Nat) : Prop :=
  ∀ i < length, (bit + i) / 8 ≠ k.loc ∧ (bit + i) / 8 ≠ k.loc + 1

theorem Free.outside (h : Free k bit length) (hp : p / 8 = k.loc ∨ p / 8 = k.loc + 1) :
    ¬ (bit ≤ p ∧ p < bit + length) := by
  rintro ⟨hlo, hhi⟩
  have hin := h (p - bit) (by omega)
  rw [Nat.add_sub_of_le hlo] at hin
  exact hp.elim hin.1 hin.2

theorem stores_of_summed {k : Cks} (hk : k.Placed) {c c' : Cmos} (hfree : Free k bit length)
    (hinside : ∀ i < length, bitAt c' (bit + i) = valueBit value i)
    (houtside : ∀ p < 2048, ¬ (bit ≤ p ∧ p < bit + length) → bitAt c' p = bitAt c p)
    (htested : tested = testedByte bit length) :
    Stores k c (if k.rangeStart ≤ tested ∧ tested ≤ k.rangeEnd then rtcSetChecksum c' k else c')
      bit length value := by
  subst htested
  have hsame : ∀ p, p / 8 ≠ k.loc → p / 8 ≠ k.loc + 1 →
    bitAt (rtcSetChecksum c' k) p = bitAt c' p := by
    intro p hlo hhi
    rw [bitAt, setChecksum_apply hk, if_neg hhi, if_neg hlo, bitAt]
  by_cases hin : k.rangeStart ≤ testedByte bit length ∧ testedByte bit length ≤ k.rangeEnd
  · rw [if_pos hin]
    refine ⟨fun i hi => ?_, fun p hp hout hlo hhi => ?_, fun _ => valid_setChecksum hk c',
      fun hnot => absurd hin hnot⟩
    · rw [hsame _ (hfree i hi).1 (hfree i hi).2]
      exact hinside i hi
    · rw [hsame p hlo hhi]
      exact houtside p hp hout
  · rw [if_neg hin]
    have hloc := hk.loc
    refine ⟨hinside, fun p hp hout _ _ => houtside p hp hout, fun h => absurd h hin,
      fun _ => ⟨?_, ?_⟩⟩
    · exact byte_eq_of_bits fun j hj => houtside _ (by omega) (hfree.outside (Or.inl (by omega)))
    · exact byte_eq_of_bits fun j hj => houtside _ (by omega) (hfree.outside (Or.inr (by omega)))

theorem setCmosValue_spec {k : Cks} (hk : k.Placed) (c : Cmos) (hfield : Placed bit length)
    (hfree : Free k bit length) (hvalue : length ≤ 8 → (value.getD 0 0).toNat < 2 ^ length) :
    (setCmosValue k c bit length value).1 = 0 ∧
      Stores k c (setCmosValue k c bit length value).2 bit length value := by
  obtain ⟨hstart, hinside, hbyte, hwhole⟩ := hfield
  by_cases hshort : length ≤ 8
  · have hfit := hbyte hshort
    have hlt : bit / 8 < 256 := by omega
    simp only [setCmosValue, if_pos hshort, cmosWrite_eq, cmosRead_of_lt hlt, Nat.mod_eq_of_lt hlt]
    refine ⟨trivial, stores_of_summed hk hfree (fun i hi => ?_) (fun p hp hout => ?_)
      (if_pos hshort).symm⟩
    · have hfirst : i / 8 = 0 := by omega
      rw [bitAt_update, if_pos (by omega), getLsbD_stored hfit (hvalue hshort) (by omega),
        if_pos (by omega), valueBit, hfirst]
      congr 1
      omega
    · rw [bitAt_update]
      by_cases hp8 : p / 8 = bit / 8
      · rw [if_pos hp8, getLsbD_stored hfit (hvalue hshort) (by omega), if_neg (by omega), bitAt, hp8]
      · rw [if_neg hp8]
  · obtain ⟨haligned, hmultiple⟩ := hwhole (Nat.lt_of_not_le hshort)
    obtain ⟨n, rfl⟩ := Nat.dvd_of_mod_eq_zero hmultiple
    obtain ⟨hafter, happly⟩ := setBytes_apply c value n 0 (bit / 8) (by omega)
    have hgo : ¬ (bit % 8 ≠ 0 ∨ 8 * n % 8 ≠ 0) := by omega
    simp only [setCmosValue, if_neg hshort, if_neg hgo, hafter]
    refine ⟨trivial, stores_of_summed hk hfree (fun i hi => ?_) (fun p hp hout => ?_) ?_⟩
    · have hplace : (bit + i) / 8 - bit / 8 = i / 8 := by omega
      have hmod : (bit + i) % 8 = i % 8 := by omega
      rw [bitAt, happly, if_pos (by omega), Nat.zero_add, hplace, hmod, valueBit]
    · rw [bitAt, happly, if_neg (by omega), bitAt]
    · rw [testedByte, if_neg hshort, Nat.mul_div_cancel_left n (by decide)]

/-- A write keeps a valid checksum when it tests a summed byte or leaves the summed bytes alone. -/
theorem Stores.valid {k : Cks} (hk : k.Placed) {c c' : Cmos} (h : Stores k c c' bit length value)
    (hvalid : rtcChecksumValid c k = true)
    (hsafe : k.InRange (testedByte bit length) ∨ ∀ i < length, ¬ k.InRange ((bit + i) / 8)) :
    rtcChecksumValid c' k = true := by
  by_cases hin : k.InRange (testedByte bit length)
  · exact h.summed hin
  · obtain ⟨hlo, hhi⟩ := h.unsummed hin
    refine valid_congr hk hvalid (fun a ha => byte_eq_of_bits fun j hj => ?_) hlo hhi
    obtain ⟨hne, hne'⟩ := hk.ne_loc ha
    have hdiv : (8 * a + j) / 8 = a := by omega
    have hlt : a < 256 := Nat.lt_of_le_of_lt ha.2 hk.rangeEnd
    refine h.outside _ (by omega) ?_ (hdiv.symm ▸ hne) (hdiv.symm ▸ hne')
    rintro ⟨hbelow, habove⟩
    have hout := hsafe.resolve_left hin (8 * a + j - bit) (by omega)
    rw [Nat.add_sub_of_le hbelow, hdiv] at hout
    exact hout ha

end ItxLlama.Coreboot.CmosOption
