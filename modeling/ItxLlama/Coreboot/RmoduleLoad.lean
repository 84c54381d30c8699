import ItxLlama.Coreboot.Rmodule

/-!
# What loading a module leaves in memory

Neither the header nor the relocations are written before they are read for
the last time: in place, the table lies behind the payload, where the bss is
cleared last; elsewhere, the whole blob is apart from the program.
-/

namespace ItxLlama.Coreboot.Rmodules

open Lib.FlatMemory Lib.Word

-- ---------------------------------------------------------------------------
-- Well-formed modules
-- ---------------------------------------------------------------------------

def RmoduleHeader.payloadLength (h : RmoduleHeader) : Nat :=
  h.payloadEndOffset.toNat - h.payloadBeginOffset.toNat

def RmoduleHeader.relocationCount (h : RmoduleHeader) : Nat :=
  (h.relocationsEndOffset.toNat - h.relocationsBeginOffset.toNat) / sizeofElf32Rel

/-- Byte `k` of the program is in the bss. -/
def RmoduleHeader.InBss (h : RmoduleHeader) (k : Nat) : Prop :=
  h.bssBegin.toNat ≤ h.moduleLinkStartAddress.toNat + k ∧
    h.moduleLinkStartAddress.toNat + k < h.bssEnd.toNat

/-- The header, the payload and the relocations follow each other in the
file. The program has the payload at its start and the bss inside. -/
structure RmoduleHeader.Consistent (h : RmoduleHeader) : Prop where
  magic : h.magic = rmoduleMagic
  version : h.version = rmoduleVersion1
  payload_begin : sizeofRmoduleHeader ≤ h.payloadBeginOffset.toNat
  payload_end : h.payloadBeginOffset.toNat ≤ h.payloadEndOffset.toNat
  relocations_begin : h.payloadEndOffset.toNat ≤ h.relocationsBeginOffset.toNat
  relocations_end : h.relocationsBeginOffset.toNat ≤ h.relocationsEndOffset.toNat
  payload_size : h.payloadLength ≤ h.moduleProgramSize.toNat
  bss_begin : h.moduleLinkStartAddress.toNat ≤ h.bssBegin.toNat
  bss_size : h.bssBegin.toNat ≤ h.bssEnd.toNat
  bss_end : h.bssEnd.toNat ≤ h.moduleLinkStartAddress.toNat + h.moduleProgramSize.toNat
  program_end : h.moduleLinkStartAddress.toNat + h.moduleProgramSize.toNat ≤ 2 ^ 32

/-- Where relocation `i` is. -/
def relocAddr (mem : Memory) (ptr : Address) (i : Nat) : Address :=
  ptr + (rmoduleHeader mem ptr).relocationsBeginOffset + BitVec.ofNat 32 (8 * i)

/-- Its `r_offset`. -/
def relocOffset (mem : Memory) (ptr : Address) (i : Nat) : BitVec 32 :=
  word mem (relocAddr mem ptr i)

/-- It is to be made: the header's own are not. -/
def InProgram (mem : Memory) (ptr : Address) (i : Nat) : Prop :=
  i < (rmoduleHeader mem ptr).relocationCount ∧
    (rmoduleHeader mem ptr).moduleLinkStartAddress.toNat ≤ (relocOffset mem ptr i).toNat

structure WellFormed (mem : Memory) (ptr : Address) : Prop where
  nonnull : ptr ≠ 0
  consistent : (rmoduleHeader mem ptr).Consistent
  relative : ∀ i < (rmoduleHeader mem ptr).relocationCount,
    word mem (relocAddr mem ptr i + 4#32) = r386Relative
  inside : ∀ i, InProgram mem ptr i → (relocOffset mem ptr i).toNat + 4 ≤
    (rmoduleHeader mem ptr).moduleLinkStartAddress.toNat + (rmoduleHeader mem ptr).payloadLength
  outside_bss : ∀ i, InProgram mem ptr i →
    (relocOffset mem ptr i).toNat + 4 ≤ (rmoduleHeader mem ptr).bssBegin.toNat ∨
      (rmoduleHeader mem ptr).bssEnd.toNat ≤ (relocOffset mem ptr i).toNat
  disjoint : ∀ i j, i < j → InProgram mem ptr i → InProgram mem ptr j →
    (relocOffset mem ptr i).toNat + 4 ≤ (relocOffset mem ptr j).toNat ∨
      (relocOffset mem ptr j).toNat + 4 ≤ (relocOffset mem ptr i).toNat

/-- The payload is where it is loaded to, or the blob is apart from the program. -/
def Placed (mem : Memory) (ptr base : Address) : Prop :=
  base = ptr + (rmoduleHeader mem ptr).payloadBeginOffset ∨
    Apart base (rmoduleHeader mem ptr).moduleProgramSize.toNat
      ptr (rmoduleHeader mem ptr).relocationsEndOffset.toNat

-- ---------------------------------------------------------------------------
-- What is not written
-- ---------------------------------------------------------------------------

section

variable {mem mem' : Memory} {ptr base a : Address} {i j k n : Nat}

/-- Bytes outside the payload are as they were. -/
def Outside (mem : Memory) (ptr base : Address) (mem' : Memory) : Prop :=
  ∀ a, ¬ Within base (rmoduleHeader mem ptr).payloadLength a → mem' a = mem a

theorem within_ofNat (hk : k < 2 ^ 32) : Within base n (base + BitVec.ofNat 32 k) ↔ k < n := by
  unfold Within
  rw [add_sub_cancel_left, BitVec.toNat_ofNat, Nat.mod_eq_of_lt hk]

theorem blob_not_within (hwf : WellFormed mem ptr) (hplaced : Placed mem ptr base)
    (hj : j < (rmoduleHeader mem ptr).relocationsEndOffset.toNat)
    (hout : j < (rmoduleHeader mem ptr).payloadBeginOffset.toNat ∨
      (rmoduleHeader mem ptr).payloadEndOffset.toNat ≤ j) :
    ¬ Within base (rmoduleHeader mem ptr).payloadLength (ptr + BitVec.ofNat 32 j) := by
  have hcons := hwf.consistent
  unfold Placed at hplaced
  generalize rmoduleHeader mem ptr = h at *
  have hend := h.relocationsEndOffset.isLt
  have hlt : j < 2 ^ 32 := Nat.lt_trans hj hend
  have hpb := hcons.payload_begin
  have hpe := hcons.payload_end
  obtain rfl | hapart := hplaced
  · have hdist : ptr + BitVec.ofNat 32 j - (ptr + h.payloadBeginOffset) =
        BitVec.ofNat 32 j - h.payloadBeginOffset := by
      bv_omega
    unfold Within RmoduleHeader.payloadLength
    rw [hdist, BitVec.toNat_sub, BitVec.toNat_ofNat, Nat.mod_eq_of_lt hlt]
    omega
  · intro hin
    refine hapart _ (Nat.lt_of_lt_of_le hin hcons.payload_size) ?_
    exact (within_ofNat hlt).mpr hj

theorem Outside.blob (hout : Outside mem ptr base mem') (hwf : WellFormed mem ptr)
    (hplaced : Placed mem ptr base) (hj : j < (rmoduleHeader mem ptr).relocationsEndOffset.toNat)
    (hj' : j < (rmoduleHeader mem ptr).payloadBeginOffset.toNat ∨
      (rmoduleHeader mem ptr).payloadEndOffset.toNat ≤ j) :
    mem' (ptr + BitVec.ofNat 32 j) = mem (ptr + BitVec.ofNat 32 j) :=
  hout _ (blob_not_within hwf hplaced hj hj')

theorem rmoduleHeader_congr {ptr' : Address}
    (h : ∀ i < sizeofRmoduleHeader,
      mem' (ptr' + BitVec.ofNat 32 i) = mem (ptr + BitVec.ofNat 32 i)) :
    rmoduleHeader mem' ptr' = rmoduleHeader mem ptr := by
  have hword : ∀ k, k + 4 ≤ sizeofRmoduleHeader →
      word mem' (ptr' + BitVec.ofNat 32 k) = word mem (ptr + BitVec.ofNat 32 k) := by
    refine fun k hk => word_congr fun i hi => ?_
    rw [BitVec.add_assoc, BitVec.add_assoc, ← BitVec.ofNat_add]
    exact h _ (Nat.lt_of_lt_of_le (Nat.add_lt_add_left hi k) hk)
  have h0 := h 0 (by decide)
  rw [BitVec.add_zero, BitVec.add_zero] at h0
  unfold rmoduleHeader
  rw [h0, h 1 (by decide), h 2 (by decide), hword 4 (by decide), hword 8 (by decide),
    hword 12 (by decide), hword 16 (by decide), hword 20 (by decide), hword 24 (by decide),
    hword 40 (by decide), hword 44 (by decide)]

theorem Outside.header (hout : Outside mem ptr base mem') (hwf : WellFormed mem ptr)
    (hplaced : Placed mem ptr base) : rmoduleHeader mem' ptr = rmoduleHeader mem ptr := by
  refine rmoduleHeader_congr fun i hi => ?_
  have hcons := hwf.consistent
  have hpb := Nat.lt_of_lt_of_le hi hcons.payload_begin
  refine hout.blob hwf hplaced ?_ (.inl hpb)
  exact Nat.lt_of_lt_of_le hpb (Nat.le_trans hcons.payload_end
    (Nat.le_trans hcons.relocations_begin hcons.relocations_end))

/-- A word of relocation `i`, `off` bytes behind its start. -/
theorem Outside.reloc (hout : Outside mem ptr base mem') (hwf : WellFormed mem ptr)
    (hplaced : Placed mem ptr base) (hi : i < (rmoduleHeader mem ptr).relocationCount)
    (hk : k + 4 ≤ sizeofElf32Rel) :
    word mem' (relocAddr mem ptr i + BitVec.ofNat 32 k) =
      word mem (relocAddr mem ptr i + BitVec.ofNat 32 k) := by
  have hcons := hwf.consistent
  have hblob := fun j => hout.blob (j := j) hwf hplaced
  unfold relocAddr
  unfold RmoduleHeader.relocationCount sizeofElf32Rel at *
  generalize rmoduleHeader mem ptr = h at *
  refine word_congr fun b hb => ?_
  have hre := hcons.relocations_end
  have hrb := hcons.relocations_begin
  have hplace : ptr + h.relocationsBeginOffset + BitVec.ofNat 32 (8 * i) + BitVec.ofNat 32 k +
      BitVec.ofNat 32 b =
        ptr + BitVec.ofNat 32 (h.relocationsBeginOffset.toNat + (8 * i + k + b)) := by
    rw [BitVec.ofNat_add, BitVec.ofNat_toNat, BitVec.setWidth_eq, BitVec.ofNat_add,
      BitVec.ofNat_add]
    simp only [BitVec.add_assoc]
  rw [hplace]
  exact hblob _ (by omega) (.inr (by omega))

-- ---------------------------------------------------------------------------
-- The steps of the loader
-- ---------------------------------------------------------------------------

def moduleAt (mem : Memory) (ptr base : Address) : Rmodule where
  location := base
  header := ptr
  payload := ptr + (rmoduleHeader mem ptr).payloadBeginOffset
  payloadSize :=
    (rmoduleHeader mem ptr).payloadEndOffset - (rmoduleHeader mem ptr).payloadBeginOffset
  relocations := ptr + (rmoduleHeader mem ptr).relocationsBeginOffset

theorem rmoduleParse_eq (hwf : WellFormed mem ptr) :
    rmoduleParse mem ptr = some (moduleAt mem ptr 0) := by
  unfold rmoduleParse
  dsimp only
  rw [if_neg hwf.nonnull, if_neg (not_not.mpr hwf.consistent.magic),
    if_neg (not_not.mpr hwf.consistent.version)]
  rfl

/-- The payload at the load address, whether or not it had to be copied. -/
def copied (mem : Memory) (ptr base : Address) : Memory :=
  memcpy mem base (ptr + (rmoduleHeader mem ptr).payloadBeginOffset)
    (rmoduleHeader mem ptr).payloadLength

theorem rmoduleCopyPayload_eq (hwf : WellFormed mem ptr) :
    rmoduleCopyPayload mem (moduleAt mem ptr base) = copied mem ptr base := by
  have hsize : (moduleAt mem ptr base).payloadSize.toNat = (rmoduleHeader mem ptr).payloadLength :=
    BitVec.toNat_sub_of_le hwf.consistent.payload_end
  unfold rmoduleCopyPayload copied
  rw [hsize]
  split
  next heq =>
    funext a
    have heq' : base = ptr + (rmoduleHeader mem ptr).payloadBeginOffset := heq
    unfold memcpy
    rw [← heq', BitVec.add_comm, BitVec.sub_add_cancel, ite_self]
  next => rfl

theorem copied_outside : Outside mem ptr base (copied mem ptr base) := fun _ ha => if_neg ha

/-- The word that relocation `i` goes to. -/
def target (mem : Memory) (ptr base : Address) (i : Nat) : Address :=
  base + (relocOffset mem ptr i - (rmoduleHeader mem ptr).moduleLinkStartAddress)

instance (mem : Memory) (ptr : Address) (i : Nat) : Decidable (InProgram mem ptr i) :=
  inferInstanceAs (Decidable (_ ∧ _))

/-- The words that are adjusted, from relocation `i` on. -/
def targets (mem : Memory) (ptr base : Address) (i n : Nat) : List Address :=
  ((List.range' i n).filter fun i => InProgram mem ptr i ∧ target mem ptr base i ≠ 0).map
    (target mem ptr base)

theorem targets_succ (hin : InProgram mem ptr i ∧ target mem ptr base i ≠ 0) :
    targets mem ptr base i (n + 1) = target mem ptr base i :: targets mem ptr base (i + 1) n := by
  have htake : decide (InProgram mem ptr i ∧ target mem ptr base i ≠ 0) = true := decide_eq_true hin
  rw [targets, List.range'_succ, List.filter_cons, htake]
  rfl

theorem targets_skip (hin : ¬ (InProgram mem ptr i ∧ target mem ptr base i ≠ 0)) :
    targets mem ptr base i (n + 1) = targets mem ptr base (i + 1) n := by
  have hskip : decide (InProgram mem ptr i ∧ target mem ptr base i ≠ 0) = false :=
    decide_eq_false hin
  rw [targets, List.range'_succ, List.filter_cons, hskip]
  rfl

theorem target_toNat (h : InProgram mem ptr i) :
    (relocOffset mem ptr i - (rmoduleHeader mem ptr).moduleLinkStartAddress).toNat =
      (relocOffset mem ptr i).toNat - (rmoduleHeader mem ptr).moduleLinkStartAddress.toNat :=
  BitVec.toNat_sub_of_le h.2

theorem within_target (hwf : WellFormed mem ptr) (h : InProgram mem ptr i) :
    Within (target mem ptr base i) 4 a ↔
      (relocOffset mem ptr i).toNat ≤
        (rmoduleHeader mem ptr).moduleLinkStartAddress.toNat + (a - base).toNat ∧
      (rmoduleHeader mem ptr).moduleLinkStartAddress.toNat + (a - base).toNat <
        (relocOffset mem ptr i).toNat + 4 := by
  have hin := hwf.inside i h
  have hlink := h.2
  have hcons := hwf.consistent
  have hsize := hcons.payload_size
  have hend := hcons.program_end
  have htarget := target_toNat h
  unfold target
  rw [within_add_iff (by omega), htarget]
  omega

theorem target_inside (hwf : WellFormed mem ptr) (h : InProgram mem ptr i)
    (ha : Within (target mem ptr base i) 4 a) :
    Within base (rmoduleHeader mem ptr).payloadLength a := by
  have hin := hwf.inside i h
  have hwithin := (within_target hwf h).mp ha
  have hlink := h.2
  unfold Within
  omega

theorem Outside.patch (hout : Outside mem ptr base mem') (hwf : WellFormed mem ptr)
    (h : InProgram mem ptr i) (v : BitVec 32) :
    Outside mem ptr base (patch v mem' (target mem ptr base i)) := fun a ha =>
  (setWord_other (fun hin => ha (target_inside hwf h hin)) _).trans (hout a ha)

theorem rmoduleAdjustmentLocation_eq (hout : Outside mem ptr base mem') (hwf : WellFormed mem ptr)
    (hplaced : Placed mem ptr base) (hi : i < (rmoduleHeader mem ptr).relocationCount) :
    rmoduleAdjustmentLocation mem' (moduleAt mem ptr base) (relocAddr mem ptr i) =
      if InProgram mem ptr i then target mem ptr base i else 0 := by
  have hword : word mem' (relocAddr mem ptr i) = relocOffset mem ptr i := by
    have hreloc := hout.reloc (k := 0) hwf hplaced hi (by decide)
    rwa [BitVec.add_zero] at hreloc
  have hheader := hout.header hwf hplaced
  unfold rmoduleAdjustmentLocation rmoduleLoadAddr
  dsimp only
  rw [hword, show (moduleAt mem ptr base).header = ptr from rfl, hheader]
  by_cases hbelow : relocOffset mem ptr i < (rmoduleHeader mem ptr).moduleLinkStartAddress
  · rw [if_pos hbelow, if_neg fun h => Nat.not_lt.mpr h.2 hbelow]
  · rw [if_neg hbelow, if_pos ⟨hi, Nat.le_of_not_lt hbelow⟩]
    rfl

theorem relocateLoop_eq (hwf : WellFormed mem ptr) (hplaced : Placed mem ptr base)
    (hn : i + n = (rmoduleHeader mem ptr).relocationCount) (hout : Outside mem ptr base mem') :
    relocateLoop (moduleAt mem ptr base) v n (relocAddr mem ptr i) mem' =
      (0, (targets mem ptr base i n).foldl (patch v) mem') := by
  induction n generalizing i mem' with
  | zero => rfl
  | succ n ih =>
    have hi : i < (rmoduleHeader mem ptr).relocationCount := by omega
    have hnext : relocAddr mem ptr i + 8#32 = relocAddr mem ptr (i + 1) := by
      unfold relocAddr
      rw [Nat.mul_add, BitVec.ofNat_add, BitVec.add_assoc, BitVec.add_assoc]
    have hinfo : word mem' (relocAddr mem ptr i + 4#32) = r386Relative :=
      (hout.reloc (k := 4) hwf hplaced hi (by decide)).trans (hwf.relative i hi)
    unfold relocateLoop
    dsimp only
    rw [if_neg (not_not.mpr hinfo), rmoduleAdjustmentLocation_eq hout hwf hplaced hi, hnext]
    by_cases hin : InProgram mem ptr i
    · rw [if_pos hin]
      by_cases hnull : target mem ptr base i = 0
      · rw [if_neg (not_not.mpr hnull), ih (by omega) hout, targets_skip fun h => h.2 hnull]
      · rw [if_pos hnull, ih (by omega) (hout.patch hwf hin v), targets_succ ⟨hin, hnull⟩]
        rfl
    · rw [if_neg hin, if_neg (not_not.mpr rfl), ih (by omega) hout, targets_skip fun h => hin h.1]

/-- The program after its relocation. -/
def relocated (mem : Memory) (ptr base : Address) : Memory :=
  (targets mem ptr base 0 (rmoduleHeader mem ptr).relocationCount).foldl
    (patch (base - (rmoduleHeader mem ptr).moduleLinkStartAddress)) (copied mem ptr base)

def bssAddr (mem : Memory) (ptr base : Address) : Address :=
  base + ((rmoduleHeader mem ptr).bssBegin - (rmoduleHeader mem ptr).moduleLinkStartAddress)

def loaded (mem : Memory) (ptr base : Address) : Memory :=
  memset (relocated mem ptr base) (bssAddr mem ptr base) 0
    ((rmoduleHeader mem ptr).bssEnd - (rmoduleHeader mem ptr).bssBegin).toNat

theorem mem_targets {p : Address} :
    p ∈ targets mem ptr base 0 (rmoduleHeader mem ptr).relocationCount ↔
      ∃ i, (InProgram mem ptr i ∧ target mem ptr base i ≠ 0) ∧ target mem ptr base i = p := by
  simp only [targets, List.mem_map, List.mem_filter, List.mem_range'_1, decide_eq_true_eq,
    Nat.zero_le, true_and, Nat.zero_add]
  constructor
  · rintro ⟨i, ⟨-, hin⟩, rfl⟩
    exact ⟨i, hin, rfl⟩
  · rintro ⟨i, hin, rfl⟩
    exact ⟨i, ⟨hin.1.1, hin⟩, rfl⟩

theorem foldl_outside (hwf : WellFormed mem ptr) {v : BitVec 32} {ps : List Address}
    (hps : ∀ p ∈ ps, ∃ i, InProgram mem ptr i ∧ target mem ptr base i = p)
    (hout : Outside mem ptr base mem') : Outside mem ptr base (ps.foldl (patch v) mem') := by
  refine fun a ha => (foldl_patch_other fun p hp hin => ha ?_).trans (hout a ha)
  obtain ⟨i, hi, rfl⟩ := hps p hp
  exact target_inside hwf hi hin

theorem relocated_outside (hwf : WellFormed mem ptr) :
    Outside mem ptr base (relocated mem ptr base) := by
  refine foldl_outside hwf (fun p hp => ?_) copied_outside
  obtain ⟨i, hi, rfl⟩ := mem_targets.mp hp
  exact ⟨i, hi.1, rfl⟩

theorem rmoduleLoad_eq (hwf : WellFormed mem ptr) (hplaced : Placed mem ptr base) :
    rmoduleLoad mem base (moduleAt mem ptr 0) = (0, loaded mem ptr base) := by
  have hcopied : Outside mem ptr base (copied mem ptr base) := copied_outside
  have hadjust : rmoduleLoadAddr (copied mem ptr base) (moduleAt mem ptr base) 0 =
      base - (rmoduleHeader mem ptr).moduleLinkStartAddress := by
    unfold rmoduleLoadAddr
    rw [show (moduleAt mem ptr base).header = ptr from rfl, hcopied.header hwf hplaced]
    show base + (0 - _) = _
    bv_omega
  have hcount : rmoduleNumberRelocations (copied mem ptr base) (moduleAt mem ptr base) =
      (rmoduleHeader mem ptr).relocationCount := by
    unfold rmoduleNumberRelocations RmoduleHeader.relocationCount
    rw [show (moduleAt mem ptr base).header = ptr from rfl, hcopied.header hwf hplaced]
    dsimp only
    rw [BitVec.toNat_sub_of_le hwf.consistent.relocations_end]
  have hfirst : (moduleAt mem ptr base).relocations = relocAddr mem ptr 0 := by
    unfold relocAddr
    rw [Nat.mul_zero, BitVec.add_zero]
    rfl
  have hrelocate : rmoduleRelocate (copied mem ptr base) (moduleAt mem ptr base) =
      (0, relocated mem ptr base) := by
    unfold rmoduleRelocate
    rw [hadjust, hcount, hfirst, relocateLoop_eq hwf hplaced (Nat.zero_add _) hcopied]
    rfl
  unfold rmoduleLoad
  dsimp only
  rw [show { moduleAt mem ptr 0 with location := base } = moduleAt mem ptr base from rfl,
    rmoduleCopyPayload_eq hwf, hrelocate, if_neg (not_not.mpr rfl)]
  unfold rmoduleClearBss rmoduleLoadAddr
  rw [show (moduleAt mem ptr base).header = ptr from rfl,
    (relocated_outside hwf).header hwf hplaced]
  rfl

-- ---------------------------------------------------------------------------
-- The program
-- ---------------------------------------------------------------------------

theorem within_bss (hwf : WellFormed mem ptr) :
    Within (bssAddr mem ptr base)
        ((rmoduleHeader mem ptr).bssEnd - (rmoduleHeader mem ptr).bssBegin).toNat a ↔
      (rmoduleHeader mem ptr).InBss (a - base).toNat := by
  have hcons := hwf.consistent
  unfold bssAddr RmoduleHeader.InBss
  generalize rmoduleHeader mem ptr = h at *
  have hbegin := hcons.bss_begin
  have hsize := hcons.bss_size
  have hend := hcons.bss_end
  have hprogram := hcons.program_end
  have hoff := BitVec.toNat_sub_of_le hbegin
  have hlen := BitVec.toNat_sub_of_le hsize
  rw [within_add_iff (by omega), hoff, hlen]
  omega

theorem targets_apart (hwf : WellFormed mem ptr) :
    (targets mem ptr base 0 (rmoduleHeader mem ptr).relocationCount).Pairwise
      fun p q => Apart p 4 q 4 := by
  unfold targets
  rw [List.pairwise_map]
  refine ((List.pairwise_lt_range').filter _).imp_of_mem fun hi hj hij a ha ha' => ?_
  have hini : InProgram mem ptr _ := (of_decide_eq_true (List.mem_filter.mp hi).2).1
  have hinj : InProgram mem ptr _ := (of_decide_eq_true (List.mem_filter.mp hj).2).1
  have hwithin := (within_target hwf hini).mp ha
  have hwithin' := (within_target hwf hinj).mp ha'
  have hdisjoint := hwf.disjoint _ _ hij hini hinj
  omega

theorem copied_payload (hwf : WellFormed mem ptr) (hk : k < (rmoduleHeader mem ptr).payloadLength) :
    copied mem ptr base (base + BitVec.ofNat 32 k) =
      mem (ptr + (rmoduleHeader mem ptr).payloadBeginOffset + BitVec.ofNat 32 k) := by
  have hsize := hwf.consistent.payload_size
  have hprogram := (rmoduleHeader mem ptr).moduleProgramSize.isLt
  refine (if_pos ((within_ofNat (by omega)).mpr hk)).trans ?_
  rw [add_sub_cancel_left]

theorem loaded_cleared (hwf : WellFormed mem ptr)
    (h : (rmoduleHeader mem ptr).InBss (a - base).toNat) :
    loaded mem ptr base a = 0 := if_pos ((within_bss hwf).mpr h)

theorem loaded_other (hwf : WellFormed mem ptr)
    (h : ¬ (rmoduleHeader mem ptr).InBss (a - base).toNat) :
    loaded mem ptr base a = relocated mem ptr base a :=
  if_neg fun hin => h ((within_bss hwf).mp hin)

theorem loaded_framed (hwf : WellFormed mem ptr)
    (ha : ¬ Within base (rmoduleHeader mem ptr).moduleProgramSize.toNat a) :
    loaded mem ptr base a = mem a := by
  have hcons := hwf.consistent
  rw [loaded_other hwf fun hin => ha ?_]
  · exact relocated_outside hwf a fun hin => ha (Nat.lt_of_lt_of_le hin hcons.payload_size)
  · have hend := hcons.bss_end
    have hlt := hin.2
    unfold Within
    omega

theorem loaded_kept (hwf : WellFormed mem ptr) (hk : k < (rmoduleHeader mem ptr).payloadLength)
    (hbss : ¬ (rmoduleHeader mem ptr).InBss k)
    (hreloc : ∀ i, InProgram mem ptr i →
      ¬ Within (target mem ptr base i) 4 (base + BitVec.ofNat 32 k)) :
    loaded mem ptr base (base + BitVec.ofNat 32 k) =
      mem (ptr + (rmoduleHeader mem ptr).payloadBeginOffset + BitVec.ofNat 32 k) := by
  have hk' : k < 2 ^ 32 := by
    have hsize := hwf.consistent.payload_size
    have hprogram := (rmoduleHeader mem ptr).moduleProgramSize.isLt
    omega
  have hdist : (base + BitVec.ofNat 32 k - base).toNat = k := by
    rw [add_sub_cancel_left, BitVec.toNat_ofNat, Nat.mod_eq_of_lt hk']
  have hcopied : copied mem ptr base (base + BitVec.ofNat 32 k) = _ := copied_payload hwf hk
  rw [loaded_other hwf (by rwa [hdist]), ← hcopied]
  refine foldl_patch_other fun p hp => ?_
  obtain ⟨i, hi, rfl⟩ := mem_targets.mp hp
  exact hreloc i hi.1

theorem loaded_word (hwf : WellFormed mem ptr) (hi : InProgram mem ptr i) :
    word (loaded mem ptr base) (target mem ptr base i) =
      word mem (ptr + (rmoduleHeader mem ptr).payloadBeginOffset +
        (relocOffset mem ptr i - (rmoduleHeader mem ptr).moduleLinkStartAddress)) +
      if target mem ptr base i = 0 then 0#32
      else base - (rmoduleHeader mem ptr).moduleLinkStartAddress := by
  have hcopied : word (copied mem ptr base) (target mem ptr base i) =
      word mem (ptr + (rmoduleHeader mem ptr).payloadBeginOffset +
        (relocOffset mem ptr i - (rmoduleHeader mem ptr).moduleLinkStartAddress)) := by
    refine word_congr fun b hb => ?_
    have hin : Within base _ (target mem ptr base i + BitVec.ofNat 32 b) :=
      target_inside hwf hi (within_offset hb (by decide))
    refine (if_pos hin).trans (congrArg mem ?_)
    unfold target
    bv_omega
  have hloaded : word (loaded mem ptr base) (target mem ptr base i) =
      word (relocated mem ptr base) (target mem ptr base i) := by
    refine word_congr fun b hb => loaded_other hwf fun hin => ?_
    have hbyte : Within (target mem ptr base i) 4 (target mem ptr base i + BitVec.ofNat 32 b) :=
      within_offset hb (by decide)
    have hwithin := (within_target hwf hi).mp hbyte
    have hout := hwf.outside_bss i hi
    have hbegin := hin.1
    have hend := hin.2
    omega
  rw [hloaded, ← hcopied]
  split
  next hnull =>
    rw [BitVec.add_zero]
    refine word_foldl_patch_other fun p hp => ?_
    obtain ⟨j, hj, rfl⟩ := mem_targets.mp hp
    have hne : i ≠ j := by
      rintro rfl
      exact hj.2 hnull
    intro a ha ha'
    have hwithin := (within_target hwf hi).mp ha
    have hwithin' := (within_target hwf hj.1).mp ha'
    rcases Nat.lt_or_gt_of_ne hne with hij | hij
    · have hdisjoint := hwf.disjoint _ _ hij hi hj.1
      omega
    · have hdisjoint := hwf.disjoint _ _ hij hj.1 hi
      omega
  next hnull => exact word_foldl_patch (targets_apart hwf) (mem_targets.mpr ⟨i, ⟨hi, hnull⟩, rfl⟩)

end

end ItxLlama.Coreboot.Rmodules
