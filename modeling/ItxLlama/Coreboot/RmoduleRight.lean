import ItxLlama.Coreboot.RmoduleLoad

/-!
# Modules end up where and as they should

Loading is right but for a relocation at the null address; a region is large
enough but where its size wraps.
-/

namespace ItxLlama.Coreboot.Rmodules

open Lib.FlatMemory Lib.Word Lib.Wrap

section

variable {mem mem₂ : Memory} {ptr ptr₂ base a : Address} {i k : Nat}

/-- The program `mem'` has at `base`, for the module `mem` has at `ptr`. -/
structure Loaded (mem : Memory) (ptr base : Address) (mem' : Memory) : Prop where
  relocated : ∀ i, InProgram mem ptr i →
    word mem' (target mem ptr base i) =
      word mem (ptr + (rmoduleHeader mem ptr).payloadBeginOffset +
        (relocOffset mem ptr i - (rmoduleHeader mem ptr).moduleLinkStartAddress)) +
      (base - (rmoduleHeader mem ptr).moduleLinkStartAddress)
  kept : ∀ k < (rmoduleHeader mem ptr).payloadLength, ¬ (rmoduleHeader mem ptr).InBss k →
    (∀ i, InProgram mem ptr i → ¬ Within (target mem ptr base i) 4 (base + BitVec.ofNat 32 k)) →
    mem' (base + BitVec.ofNat 32 k) =
      mem (ptr + (rmoduleHeader mem ptr).payloadBeginOffset + BitVec.ofNat 32 k)
  cleared : ∀ k, (rmoduleHeader mem ptr).InBss k → mem' (base + BitVec.ofNat 32 k) = 0
  framed : ∀ a, ¬ Within base (rmoduleHeader mem ptr).moduleProgramSize.toNat a → mem' a = mem a

/-- The same raw data. -/
def SameBlob (mem : Memory) (ptr : Address) (mem₂ : Memory) (ptr₂ : Address) : Prop :=
  ∀ j < (rmoduleHeader mem ptr).relocationsEndOffset.toNat,
    mem₂ (ptr₂ + BitVec.ofNat 32 j) = mem (ptr + BitVec.ofNat 32 j)

/-- Two memories have the same payload and bss at `base`. -/
def SameProgram (h : RmoduleHeader) (base : Address) (mem mem₂ : Memory) : Prop :=
  ∀ k, k < h.payloadLength ∨ h.InBss k →
    mem₂ (base + BitVec.ofNat 32 k) = mem (base + BitVec.ofNat 32 k)

/-- Every relocation that is to be made is made: none of them is at the null
address, or there is nothing to add. -/
def NoneSkipped (mem : Memory) (ptr base : Address) : Prop :=
  ∀ i, InProgram mem ptr i → target mem ptr base i = 0 →
    base = (rmoduleHeader mem ptr).moduleLinkStartAddress

theorem RmoduleHeader.InBss.lt {h : RmoduleHeader} (hk : h.InBss k) (hcons : h.Consistent) :
    k < 2 ^ 32 := by
  have hend := hcons.bss_end
  have hprogram := hcons.program_end
  have hlt := hk.2
  omega

theorem loaded_right_iff (hwf : WellFormed mem ptr) :
    Loaded mem ptr base (loaded mem ptr base) ↔ NoneSkipped mem ptr base := by
  constructor
  · intro h i hi hnull
    have hword := (loaded_word hwf hi).symm.trans (h.relocated i hi)
    rw [if_pos hnull] at hword
    bv_omega
  · intro h
    refine ⟨fun i hi => ?_, fun k hk hbss hreloc => loaded_kept hwf hk hbss hreloc, fun k hk => ?_,
      fun a ha => loaded_framed hwf ha⟩
    · rw [loaded_word hwf hi]
      split
      next hnull =>
        rw [h i hi hnull, BitVec.sub_self]
      next => rfl
    · refine loaded_cleared hwf ?_
      rwa [add_sub_cancel_left, BitVec.toNat_ofNat, Nat.mod_eq_of_lt (hk.lt hwf.consistent)]

-- ---------------------------------------------------------------------------
-- In place or copied
-- ---------------------------------------------------------------------------

theorem SameBlob.header (h : SameBlob mem ptr mem₂ ptr₂) (hwf : WellFormed mem ptr) :
    rmoduleHeader mem₂ ptr₂ = rmoduleHeader mem ptr := by
  have hcons := hwf.consistent
  refine rmoduleHeader_congr fun i hi => h i ?_
  exact Nat.lt_of_lt_of_le hi (Nat.le_trans hcons.payload_begin (Nat.le_trans hcons.payload_end
    (Nat.le_trans hcons.relocations_begin hcons.relocations_end)))

theorem SameBlob.part (h : SameBlob mem ptr mem₂ ptr₂) {x : BitVec 32}
    (hk : x.toNat + k < (rmoduleHeader mem ptr).relocationsEndOffset.toNat) :
    mem₂ (ptr₂ + x + BitVec.ofNat 32 k) = mem (ptr + x + BitVec.ofNat 32 k) := by
  have hj := h _ hk
  rw [BitVec.ofNat_add, BitVec.ofNat_toNat, BitVec.setWidth_eq] at hj
  rwa [BitVec.add_assoc, BitVec.add_assoc]

theorem SameBlob.relocOffset (h : SameBlob mem ptr mem₂ ptr₂) (hwf : WellFormed mem ptr)
    (hi : i < (rmoduleHeader mem ptr).relocationCount) :
    relocOffset mem₂ ptr₂ i = Rmodules.relocOffset mem ptr i := by
  have hend := hwf.consistent.relocations_end
  unfold Rmodules.relocOffset relocAddr
  rw [h.header hwf]
  refine word_congr fun b hb => ?_
  rw [BitVec.add_assoc _ (BitVec.ofNat 32 (8 * i)), BitVec.add_assoc _ (BitVec.ofNat 32 (8 * i)),
    ← BitVec.ofNat_add]
  refine h.part ?_
  unfold RmoduleHeader.relocationCount sizeofElf32Rel at hi
  omega

theorem SameBlob.inProgram (h : SameBlob mem ptr mem₂ ptr₂) (hwf : WellFormed mem ptr) (i : Nat) :
    InProgram mem₂ ptr₂ i ↔ InProgram mem ptr i := by
  unfold InProgram
  rw [h.header hwf]
  refine and_congr_right fun hi => ?_
  rw [h.relocOffset hwf hi]

theorem SameBlob.targets (h : SameBlob mem ptr mem₂ ptr₂) (hwf : WellFormed mem ptr) :
    targets mem₂ ptr₂ base 0 (rmoduleHeader mem ptr).relocationCount =
      Rmodules.targets mem ptr base 0 (rmoduleHeader mem ptr).relocationCount := by
  have htarget : ∀ i < (rmoduleHeader mem ptr).relocationCount,
      target mem₂ ptr₂ base i = target mem ptr base i := by
    intro i hi
    unfold target
    rw [h.header hwf, h.relocOffset hwf hi]
  unfold Rmodules.targets
  have hfilter : (List.range' 0 (rmoduleHeader mem ptr).relocationCount).filter
        (fun i => InProgram mem₂ ptr₂ i ∧ target mem₂ ptr₂ base i ≠ 0) =
      (List.range' 0 (rmoduleHeader mem ptr).relocationCount).filter
        (fun i => InProgram mem ptr i ∧ target mem ptr base i ≠ 0) := by
    refine List.filter_congr fun i hi => ?_
    have hi' : i < (rmoduleHeader mem ptr).relocationCount := by
      have := (List.mem_range'_1.mp hi).2
      omega
    rw [htarget i hi', decide_eq_decide, h.inProgram hwf i]
  rw [hfilter]
  refine List.map_congr_left fun i hi => htarget i ?_
  have := (List.mem_range'_1.mp (List.mem_filter.mp hi).1).2
  omega

theorem SameBlob.loaded (h : SameBlob mem ptr mem₂ ptr₂) (hwf : WellFormed mem ptr)
    (hwf₂ : WellFormed mem₂ ptr₂) :
    SameProgram (rmoduleHeader mem ptr) base (loaded mem ptr base) (loaded mem₂ ptr₂ base) := by
  have hheader := h.header hwf
  have hcons := hwf.consistent
  intro k hk
  have hk' : k < 2 ^ 32 := by
    rcases hk with hk | hk
    · have hsize := hcons.payload_size
      have hprogram := (rmoduleHeader mem ptr).moduleProgramSize.isLt
      omega
    · exact hk.lt hcons
  have hdist : (base + BitVec.ofNat 32 k - base).toNat = k := by
    rw [add_sub_cancel_left, BitVec.toNat_ofNat, Nat.mod_eq_of_lt hk']
  by_cases hbss : (rmoduleHeader mem ptr).InBss k
  · rw [loaded_cleared hwf (by rwa [hdist]), loaded_cleared hwf₂ (by rwa [hdist, hheader])]
  · have hin := hk.resolve_right hbss
    rw [loaded_other hwf (by rwa [hdist]), loaded_other hwf₂ (by rwa [hdist, hheader])]
    unfold Rmodules.relocated
    rw [hheader, h.targets hwf]
    refine foldl_patch_congr (S := Within base (rmoduleHeader mem ptr).payloadLength) ?_ ?_
      ((within_ofNat hk').mpr hin)
    · intro p hp a ha
      obtain ⟨i, hi, rfl⟩ := mem_targets.mp hp
      exact target_inside hwf hi.1 ha
    · intro a ha
      obtain ⟨j, hj, rfl⟩ : ∃ j < (rmoduleHeader mem ptr).payloadLength,
          a = base + BitVec.ofNat 32 j := by
        refine ⟨(a - base).toNat, ha, ?_⟩
        rw [BitVec.ofNat_toNat, BitVec.setWidth_eq]
        bv_omega
      rw [copied_payload hwf hj, copied_payload hwf₂ (by rwa [hheader]), hheader]
      refine h.part ?_
      have hend := hcons.payload_end
      have hbegin := hcons.relocations_begin
      have hrelocs := hcons.relocations_end
      unfold RmoduleHeader.payloadLength at hj
      omega

end

-- ---------------------------------------------------------------------------
-- Regions
-- ---------------------------------------------------------------------------

section

variable {align size : Nat}

/-- There is no `BUG()`, and in any aligned region of the returned size the header and the program
behind it are inside, and the program is aligned: to the alignment asked for,
and to a page if the region is. -/
def RegionRight (align size : Nat) : Prop :=
  ∃ region, rmoduleCalcRegion align size = (0, region) ∧
    region.loadOffset = region.rmoduleOffset + sizeofRmoduleHeader ∧
    ∀ start, start + region.regionSize ≤ 2 ^ 32 → align ∣ start →
      start + region.loadOffset + size ≤ start + region.regionSize ∧
      align ∣ start + region.loadOffset ∧ (4096 ∣ start → 4096 ∣ start + region.loadOffset)

theorem roundUp_ge_iff (ha : 4096 ≤ a) (ha' : a ≤ 2 ^ 31) (hsize : size < 2 ^ 32) :
    a + size ≤ alignDown (u32 (u32 (size + a) + (4096 - 1))) 4096 ↔ size + a ≤ 2 ^ 32 - 4096 := by
  unfold alignDown u32
  omega

theorem max_pow (k : Nat) : max (2 ^ k) 4096 = 2 ^ max k 12 := by
  rcases Nat.le_total k 12 with h | h
  · rw [Nat.max_eq_right h]
    exact Nat.max_eq_right (Nat.pow_le_pow_right Nat.two_pos h)
  · rw [Nat.max_eq_left h]
    exact Nat.max_eq_left (Nat.pow_le_pow_right Nat.two_pos h)

theorem rmoduleCalcRegion_eq (k : Nat) (hk : k < 32) (size : Nat) :
    rmoduleCalcRegion (2 ^ k) size =
      (0, ⟨alignDown (u32 (u32 (size + max (2 ^ k) 4096) + (4096 - 1))) 4096, max (2 ^ k) 4096,
        max (2 ^ k) 4096 - sizeofRmoduleHeader⟩) := by
  have hpow : ∀ k < 32, 2 ^ k &&& sub32 (2 ^ k) 1 = 0 := by decide
  have hmax : (if 2 ^ k < 4096 then 4096 else 2 ^ k) = max (2 ^ k) 4096 := by
    split
    next h => exact (Nat.max_eq_right (Nat.le_of_lt h)).symm
    next h => exact (Nat.max_eq_left (Nat.le_of_not_lt h)).symm
  unfold rmoduleCalcRegion
  dsimp only
  rw [if_neg (not_not.mpr (hpow k hk)), hmax, if_neg (by unfold sizeofRmoduleHeader; omega)]

theorem regionRight_iff (hk : k < 32) (hsize : size < 2 ^ 32) :
    RegionRight (2 ^ k) size ↔ size + max (2 ^ k) 4096 ≤ 2 ^ 32 - 4096 := by
  have hle : 2 ^ k ≤ 2 ^ 31 := Nat.pow_le_pow_right (by decide) (Nat.le_of_lt_succ hk)
  have hroom := roundUp_ge_iff (a := max (2 ^ k) 4096) (by omega) (by omega) hsize
  have hdvd : 2 ^ k ∣ max (2 ^ k) 4096 := by
    rw [max_pow]
    exact Nat.pow_dvd_pow 2 (Nat.le_max_left k 12)
  have hpage : 4096 ∣ max (2 ^ k) 4096 := by
    rw [max_pow]
    exact Nat.pow_dvd_pow 2 (Nat.le_max_right k 12)
  unfold RegionRight
  rw [rmoduleCalcRegion_eq k hk]
  constructor
  · rintro ⟨region, hregion, -, h⟩
    obtain rfl := (Prod.mk.inj hregion).2
    have hfits := (h 0 ?_ (Nat.dvd_zero _)).1
    · rw [← hroom]
      dsimp only at hfits
      omega
    · dsimp only
      unfold alignDown u32
      omega
  · intro h
    refine ⟨_, rfl, ?_, fun start hstart hd => ⟨?_, ?_, fun hp => ?_⟩⟩
    · unfold sizeofRmoduleHeader
      dsimp only
      omega
    · have := hroom.mpr h
      dsimp only
      omega
    · exact Nat.dvd_add hd hdvd
    · exact Nat.dvd_add hp hpage

end

/-- The module at `ptr` is loaded as it should be, with the program that any
other copy of it gives. -/
def LoadRight (mem : Memory) (ptr base : Address) : Prop :=
  ∃ module mem', rmoduleParse mem ptr = some module ∧ rmoduleLoad mem base module = (0, mem') ∧
    Loaded mem ptr base mem' ∧
    ∀ mem₂ ptr₂, SameBlob mem ptr mem₂ ptr₂ → WellFormed mem₂ ptr₂ → Placed mem₂ ptr₂ base →
      ∃ module₂ mem₂', rmoduleParse mem₂ ptr₂ = some module₂ ∧
        rmoduleLoad mem₂ base module₂ = (0, mem₂') ∧
        SameProgram (rmoduleHeader mem ptr) base mem' mem₂'

theorem loadRight_iff (hwf : WellFormed mem ptr) (hplaced : Placed mem ptr base) :
    LoadRight mem ptr base ↔ NoneSkipped mem ptr base := by
  rw [← loaded_right_iff hwf]
  constructor
  · rintro ⟨module, mem', hparse, hload, hright, -⟩
    obtain rfl := Option.some.inj (hparse.symm.trans (rmoduleParse_eq hwf))
    obtain ⟨-, rfl⟩ := Prod.mk.inj (hload.symm.trans (rmoduleLoad_eq hwf hplaced))
    exact hright
  · intro h
    refine ⟨_, _, rmoduleParse_eq hwf, rmoduleLoad_eq hwf hplaced, h, ?_⟩
    intro mem₂ ptr₂ hsame hwf₂ hplaced₂
    exact ⟨_, _, rmoduleParse_eq hwf₂, rmoduleLoad_eq hwf₂ hplaced₂, hsame.loaded hwf hwf₂⟩

/-- A well-formed module, in place or apart from the program, is loaded right
at any address unless a relocation that is to be made lies at the null
address, and a region for any size and power-of-two alignment is right unless
its size wraps. -/
theorem rmodule_right_iff (hwf : WellFormed mem ptr) (hplaced : Placed mem ptr base) (hk : k < 32)
    (hsize : size < 2 ^ 32) :
    LoadRight mem ptr base ∧ RegionRight (2 ^ k) size ↔
      NoneSkipped mem ptr base ∧ size + max (2 ^ k) 4096 ≤ 2 ^ 32 - 4096 :=
  and_congr (loadRight_iff hwf hplaced) (regionRight_iff hk hsize)

/-- A module of one word that points to itself, with 8 bytes of bss over its
one relocation. -/
def selfPointer : Memory := fun a =>
  BitVec.ofNat 8 <| ([
    0xfe, 0xf8, 1, 0, 64, 0, 0, 0, 68, 0, 0, 0, 68, 0, 0, 0, 76, 0, 0, 0, 0, 16, 0, 0,
    12, 0, 0, 0, 0, 16, 0, 0, 0, 0, 0, 0, 0, 0, 0, 0, 4, 16, 0, 0, 12, 16, 0, 0,
    0, 0, 0, 0, 0, 0, 0, 0, 0, 0, 0, 0, 0, 0, 0, 0,
    0, 16, 0, 0, 0, 16, 0, 0, 8, 0, 0, 0] : List Nat).getD (a.toNat - 0x8000) 0

def selfPointerHeader : RmoduleHeader where
  magic := rmoduleMagic
  version := rmoduleVersion1
  payloadBeginOffset := 64
  payloadEndOffset := 68
  relocationsBeginOffset := 68
  relocationsEndOffset := 76
  moduleLinkStartAddress := 0x1000
  moduleProgramSize := 12
  bssBegin := 0x1004
  bssEnd := 0x100c

theorem selfPointer_header : rmoduleHeader selfPointer 0x8000 = selfPointerHeader := by
  decide +kernel

theorem selfPointer_relocOffset : relocOffset selfPointer 0x8000 0 = 0x1000 := by decide +kernel

theorem selfPointer_inProgram (h : InProgram selfPointer 0x8000 i) : i = 0 := by
  have hi := h.1
  rw [selfPointer_header] at hi
  exact Nat.lt_one_iff.mp hi

theorem selfPointer_wellFormed : WellFormed selfPointer 0x8000 where
  nonnull := by decide
  consistent := by
    rw [selfPointer_header]
    constructor <;> decide
  relative := by decide +kernel
  inside i hi := by
    rw [selfPointer_inProgram hi, selfPointer_relocOffset, selfPointer_header]
    decide
  outside_bss i hi := by
    rw [selfPointer_inProgram hi, selfPointer_relocOffset, selfPointer_header]
    decide
  disjoint i j hij hi hj := by
    rw [selfPointer_inProgram hi, selfPointer_inProgram hj] at hij
    exact absurd hij (Nat.lt_irrefl 0)

/-- It is loaded right in place, and 12 bytes fit where they are told to go. -/
theorem rmodule_right_selfPointer :
    LoadRight selfPointer 0x8000 0x8040 ∧ RegionRight (2 ^ 12) 12 :=
  (rmodule_right_iff selfPointer_wellFormed (.inl (by rw [selfPointer_header]; rfl)) (by decide)
    (by decide)).mpr ⟨fun i hi h => by
      rw [selfPointer_inProgram hi, target, selfPointer_relocOffset, selfPointer_header] at h
      exact absurd h (by decide), by decide⟩

/-- 4 GiB - 4 KiB at a page: the region is empty. -/
theorem rmoduleCalcRegion_wraps :
    ∃ region, rmoduleCalcRegion (2 ^ 12) 0xfffff000 = (0, region) ∧ region.regionSize = 0 ∧
      ¬ RegionRight (2 ^ 12) 0xfffff000 := by
  have heq : rmoduleCalcRegion (2 ^ 12) 0xfffff000 = (0, ⟨0, 4096, 4032⟩) := by decide
  refine ⟨_, heq, rfl, ?_⟩
  rintro ⟨region, hregion, -, h⟩
  obtain rfl := (Prod.mk.inj (heq.symm.trans hregion)).2
  exact absurd (h 0 (by decide) (Nat.dvd_zero _)).1 (by decide)

end ItxLlama.Coreboot.Rmodules
