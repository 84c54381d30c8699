import ItxLlama.Coreboot.PciDevice
import ItxLlama.Lib.Registers
import Mathlib.Data.Nat.Find

/-!
# The registers of a configuration space

Each access of the configuration space is a register of one, two or four bytes,
and registers at different places do not touch each other. A probe finds the
bits that can be written and changes nothing.
-/

namespace ItxLlama.Coreboot

open Lib.Registers

theorem ConfigSpace.bytes_ext {c d : ConfigSpace} (hw : c.writable = d.writable)
    (hb : c.bytes = d.bytes) : c = d := by
  cases c
  cases d
  obtain rfl := hw
  obtain rfl := hb
  rfl

@[simp] theorem writable_pciWriteConfig8 (c : ConfigSpace) (reg : Nat) (v : BitVec 8) :
    (pciWriteConfig8 c reg v).writable = c.writable := rfl

theorem bytes_pciWriteConfig8 (c : ConfigSpace) (reg : Nat) (v : BitVec 8) :
    (pciWriteConfig8 c reg v).bytes =
      Function.update c.bytes reg (masked (c.writable reg) (c.bytes reg) v) :=
  rfl

def config8 (reg : Nat) : Register ConfigSpace 8 where
  read c := pciReadConfig8 c reg
  mask c := c.writable reg
  write c v := pciWriteConfig8 c reg v
  read_write c v := Function.update_self _ _ _
  mask_write _ _ := rfl
  write_write c u v := by
    refine ConfigSpace.bytes_ext rfl ?_
    rw [bytes_pciWriteConfig8, bytes_pciWriteConfig8, bytes_pciWriteConfig8, Function.update_idem,
      Function.update_self, writable_pciWriteConfig8, masked_masked]
  write_read c := by
    refine ConfigSpace.bytes_ext rfl ?_
    rw [bytes_pciWriteConfig8, pciReadConfig8, masked_self, Function.update_eq_self]

theorem apart_config8 (h : r ≠ q) : Apart (config8 r) (config8 q) where
  read_left c v := Function.update_of_ne h _ _
  mask_left _ _ := rfl
  read_right c v := Function.update_of_ne h.symm _ _
  mask_right _ _ := rfl
  comm c u v := by
    refine ConfigSpace.bytes_ext rfl ?_
    show (pciWriteConfig8 (pciWriteConfig8 c q v) r u).bytes =
      (pciWriteConfig8 (pciWriteConfig8 c r u) q v).bytes
    simp only [bytes_pciWriteConfig8, writable_pciWriteConfig8, Function.update_of_ne h,
      Function.update_of_ne h.symm]
    exact Function.update_comm h.symm _ _ _

def config16 (reg : Nat) : Register ConfigSpace 16 :=
  (config8 (reg + 1)).append (config8 reg) (apart_config8 (Nat.succ_ne_self reg))

theorem apart_config8_config16 (h : r < q ∨ q + 2 ≤ r) : Apart (config8 r) (config16 q) :=
  (apart_config8 (by omega)).append (apart_config8 (by omega)) _

theorem apart_config16 (h : r + 2 ≤ q ∨ q + 2 ≤ r) : Apart (config16 r) (config16 q) :=
  ((apart_config8_config16 (by omega)).symm.append (apart_config8_config16 (by omega)).symm _).symm

def config32 (reg : Nat) : Register ConfigSpace 32 :=
  (config16 (reg + 2)).append (config16 reg) (apart_config16 (Or.inr (Nat.le_refl _)))

theorem apart_config16_config32 (h : r + 2 ≤ q ∨ q + 4 ≤ r) : Apart (config16 r) (config32 q) :=
  (apart_config16 (by omega)).append (apart_config16 (by omega)) _

theorem apart_config32 (h : r + 4 ≤ q ∨ q + 4 ≤ r) : Apart (config32 r) (config32 q) :=
  ((apart_config16_config32 (by omega)).symm.append (apart_config16_config32 (by omega)).symm _).symm

/-- The two halves of a 64 bit base address register. -/
def config64 (reg : Nat) : Register ConfigSpace 64 :=
  (config32 (reg + 4)).append (config32 reg) (apart_config32 (Or.inr (Nat.le_refl _)))

theorem pciMovingConfig8_eq (c : ConfigSpace) (reg : Nat) :
    pciMovingConfig8 c reg = ((config8 reg).mask c, c) := by
  obtain ⟨hmask, hback⟩ := (config8 reg).probe c
  exact Prod.ext hmask hback

theorem pciMovingConfig16_eq (c : ConfigSpace) (reg : Nat) :
    pciMovingConfig16 c reg = ((config16 reg).mask c, c) := by
  obtain ⟨hmask, hback⟩ := (config16 reg).probe c
  exact Prod.ext hmask hback

theorem pciMovingConfig32_eq (c : ConfigSpace) (reg : Nat) :
    pciMovingConfig32 c reg = ((config32 reg).mask c, c) := by
  obtain ⟨hmask, hback⟩ := (config32 reg).probe c
  exact Prod.ext hmask hback

-- ---------------------------------------------------------------------------
-- The lowest bit that moves
-- ---------------------------------------------------------------------------

theorem lowestBit_eq {moving : BitVec 64} (hset : moving.getLsbD k = true)
    (hclear : ∀ i < k, moving.getLsbD i = false) (hturns : k < i + turns) (hi : i ≤ k) :
    lowestBit moving turns (.twoPow 64 i) i = some (.twoPow 64 k, k) := by
  induction turns generalizing i with
  | zero => omega
  | succ turns ih =>
    unfold lowestBit
    rw [BitVec.and_twoPow]
    obtain rfl | hlt := Nat.eq_or_lt_of_le hi
    · have hk : i < 64 := BitVec.lt_of_getLsbD hset
      have hbit : ¬ BitVec.twoPow 64 i = (0 : BitVec 64) := by
        rw [← BitVec.toNat_inj, BitVec.toNat_twoPow_of_lt hk]
        exact Nat.ne_of_gt (Nat.two_pow_pos i)
      rw [if_pos hset, if_neg hbit]
    · have hnext : BitVec.twoPow 64 i <<< 1 = .twoPow 64 (i + 1) := by
        rw [BitVec.twoPow_eq, BitVec.twoPow_eq, BitVec.shiftLeft_add]
      have hzero : 0#64 = (0 : BitVec 64) := rfl
      rw [hclear i hlt, if_neg Bool.false_ne_true, if_pos hzero, hnext]
      exact ih (by omega) hlt

theorem lowestBit_isSome {moving : BitVec 64} (h : moving ≠ 0) :
    ∃ r, lowestBit moving 64 1 0 = some r := by
  have hexists : ∃ i, moving.getLsbD i = true := by
    by_contra hnone
    refine h (BitVec.eq_of_getLsbD_eq fun i _ => ?_)
    exact (Bool.eq_false_iff.mpr fun hbit => hnone ⟨i, hbit⟩).trans BitVec.getLsbD_zero.symm
  have hset := Nat.find_spec hexists
  refine ⟨_, lowestBit_eq hset (fun i hi => Bool.eq_false_iff.mpr (Nat.find_min hexists hi)) ?_
    (Nat.zero_le _)⟩
  exact Nat.lt_of_lt_of_eq (BitVec.lt_of_getLsbD hset) (Nat.zero_add 64).symm

theorem lowestBit_field {moving : BitVec 64} (h : IsField moving k m) (hk : k < m) (hm : m ≤ 64) :
    lowestBit moving 64 1 0 = some (.twoPow 64 k, k) := by
  refine lowestBit_eq ?_ (fun i hi => ?_) (by omega) (Nat.zero_le k)
  · rw [h k]
    exact decide_eq_true ⟨Nat.le_refl k, hk⟩
  · rw [h i]
    exact decide_eq_false (by omega)

theorem limit_toNat {moving : BitVec 64} (h : IsField moving k m) (hk : k < m) (hm : m ≤ 64) :
    (moving ||| (.twoPow 64 k - 1)).toNat = 2 ^ m - 1 := by
  have hlow : BitVec.twoPow 64 k - 1 = BitVec.ofNat 64 (2 ^ k - 1) := by
    apply BitVec.eq_of_toNat_eq
    have hlt : 2 ^ k < 2 ^ 64 := Nat.pow_lt_pow_right (by decide) (by omega)
    have hpos := Nat.two_pow_pos k
    rw [BitVec.toNat_sub, BitVec.toNat_twoPow_of_lt (by omega), BitVec.toNat_ofNat]
    show (2 ^ 64 - 1 + 2 ^ k) % 2 ^ 64 = _
    omega
  rw [hlow, h.or_low hk hm]

-- ---------------------------------------------------------------------------
-- Storing a resource
-- ---------------------------------------------------------------------------

structure Resource.Stores (resource : Resource) : Prop where
  assigned : resource.has ioresourceAssigned = true
  fixed : resource.has ioresourceFixed = false
  stored : resource.has ioresourceStored = false
  subtractive : resource.has ioresourceSubtractive = false
  type : resource.has (ioresourceMem ||| ioresourceIo) = true

theorem pciSetResource_config {resource r : Resource} (h : resource.Stores)
    (hrange : storedRange resource.markStored = (base, fin, r))
    (hstore : storeRange dev.config r base fin = some c) :
    (pciSetResource dev resource).1.config = c := by
  unfold pciSetResource
  simp only [h.assigned, h.fixed, h.stored, h.subtractive, h.type, hrange, hstore, Bool.not_true,
    Bool.false_eq_true, if_false]

end ItxLlama.Coreboot
