import ItxLlama.Coreboot.PciRegisters

/-!
# Base address registers

A regular register has its type bits and the address bits below its size
hard-wired, and the address bits from its size up can be written. The probe
reports it as it is, and programming an aligned base makes it decode the
addresses from that base on.
-/

namespace ItxLlama.Coreboot

open Lib.Word
open Lib.Registers

/-- Where a memory register can be placed. -/
inductive MemLimit where
  | below4G
  | below1M
  | anywhere64
  deriving DecidableEq

inductive BarKind where
  | io
  | mem (limit : MemLimit) (prefetch : Bool)
  deriving DecidableEq

def BarKind.isIo : BarKind → Bool
  | .io => true
  | .mem _ _ => false

/-- Whether the next register is the high half. -/
def BarKind.is64 : BarKind → Bool
  | .mem .anywhere64 _ => true
  | _ => false

def BarKind.typeBits : BarKind → BitVec 32
  | .io => 0x1
  | .mem limit prefetch =>
    (match limit with
      | .below4G => 0x0
      | .below1M => 0x2
      | .anywhere64 => 0x4) ||| (if prefetch then 0x8 else 0x0)

/-- The number of low bits that are not part of the address. -/
def BarKind.attrBits : BarKind → Nat
  | .io => 2
  | .mem _ _ => 4

def BarKind.width (kind : BarKind) : Nat := if kind.is64 then 64 else 32

def BarKind.flags : BarKind → BitVec 32
  | .io => ioresourceIo
  | .mem limit prefetch =>
    ioresourceMem ||| (if prefetch then ioresourcePrefetch else 0) |||
      (if limit = .anywhere64 then ioresourcePci64 else 0)

/-- The highest address that a register of the kind can hold. -/
def BarKind.reach : BarKind → Nat
  | .io => 0xffff
  | .mem .below4G _ => 0xffffffff
  | .mem .below1M _ => 0xfffff
  | .mem .anywhere64 _ => 0xffffffffffffffff

/-- A register of `2 ^ sizeLog` addresses whose address bits below `top` can be written. -/
structure Bar where
  kind : BarKind
  sizeLog : Nat
  top : Nat

/-- What the register holds, both halves of a 64 bit one. -/
def BarKind.read (kind : BarKind) (c : ConfigSpace) (reg : Nat) : BitVec 64 :=
  if kind.is64 then (config64 reg).read c else ((config32 reg).read c).zeroExtend 64

def BarKind.mask (kind : BarKind) (c : ConfigSpace) (reg : Nat) : BitVec 64 :=
  if kind.is64 then (config64 reg).mask c else ((config32 reg).mask c).zeroExtend 64

structure Bar.Regular (bar : Bar) (c : ConfigSpace) (reg : Nat) : Prop where
  attr : bar.kind.attrBits ≤ bar.sizeLog
  size : bar.sizeLog < bar.top
  top : bar.top ≤ bar.kind.width
  writable : IsField (bar.kind.mask c reg) bar.sizeLog bar.top
  fixed : bar.kind.read c reg &&& ~~~bar.kind.mask c reg = bar.kind.typeBits.zeroExtend 64

/-- What is reported, where `prior` is what the device had for the index. -/
def Bar.resource (bar : Bar) (prior : Resource) (index : BitVec 32) : Resource :=
  { newResource prior index with
    size := 2 ^ bar.sizeLog
    align := bar.sizeLog
    gran := bar.sizeLog
    limit := min bar.kind.reach (2 ^ bar.top - 1)
    flags := (newResource prior index).flags ||| bar.kind.flags }

/-- The first address that the register decodes. -/
def Bar.address (bar : Bar) (c : ConfigSpace) (reg : Nat) : Nat :=
  (bar.kind.read c reg &&& ~~~BitVec.ofNat 64 (2 ^ bar.kind.attrBits - 1)).toNat

def Bar.Decodes (bar : Bar) (c : ConfigSpace) (reg a : Nat) : Prop :=
  bar.address c reg ≤ a ∧ a < bar.address c reg + 2 ^ bar.sizeLog

theorem BarKind.width_le (kind : BarKind) : kind.width ≤ 64 := by
  unfold width
  split <;> decide

-- ---------------------------------------------------------------------------
-- Sizing
-- ---------------------------------------------------------------------------

theorem append_zeroExtend (hi lo : BitVec 32) :
    lo.zeroExtend 64 ||| hi.zeroExtend 64 <<< 32 = hi ++ lo := by
  have happend := @zeroExtend_append 32 32 64 hi lo 0
  rw [BitVec.shiftLeft_zero, BitVec.shiftLeft_zero] at happend
  exact happend.trans (BitVec.setWidth_eq _)

theorem low_of_append {hi lo x : BitVec 32} (h : hi ++ lo = x.zeroExtend 64) : lo = x := by
  apply BitVec.eq_of_getLsbD_eq
  intro i hi
  have hbit := congrArg (BitVec.getLsbD · i) h
  have hlt : i < 64 := by omega
  simpa only [BitVec.truncate_eq_setWidth, BitVec.getLsbD_append, BitVec.getLsbD_setWidth, hi, hlt,
    if_true, decide_true, Bool.true_and] using hbit

theorem low_of_zeroExtend {x m y : BitVec 32}
    (h : x.zeroExtend 64 &&& ~~~m.zeroExtend 64 = y.zeroExtend 64) : x &&& ~~~m = y := by
  apply BitVec.eq_of_getLsbD_eq
  intro i hi
  have hbit := congrArg (BitVec.getLsbD · i) h
  have hlt : i < 64 := by omega
  simpa only [BitVec.truncate_eq_setWidth, BitVec.getLsbD_and, BitVec.getLsbD_not,
    BitVec.getLsbD_setWidth, hi, hlt, decide_true, Bool.true_and] using hbit

theorem Bar.Regular.low_fixed {bar : Bar} (h : bar.Regular c reg) :
    pciReadConfig32 c reg &&& ~~~(config32 reg).mask c = bar.kind.typeBits := by
  have hfixed := h.fixed
  unfold BarKind.read BarKind.mask at hfixed
  cases hwide : bar.kind.is64 with
  | false =>
    rw [hwide] at hfixed
    exact low_of_zeroExtend hfixed
  | true =>
    rw [hwide, if_pos rfl, if_pos rfl, config64, append_read, append_mask, BitVec.not_append,
      BitVec.and_append] at hfixed
    exact low_of_append hfixed

theorem barConstraints_typeBits (resource : Resource) {moving : BitVec 64} (h : moving ≠ 0)
    (kind : BarKind) : barConstraints resource moving kind.typeBits =
      { resource with flags := resource.flags ||| kind.flags, limit := kind.reach } := by
  unfold barConstraints
  rw [if_neg h]
  cases kind with
  | io => rfl
  | mem limit prefetch =>
    cases limit <;> cases prefetch <;>
      simp [BarKind.typeBits, BarKind.flags, BarKind.reach, pciBaseAddressSpaceIo,
        pciBaseAddressMemAttrMask, pciBaseAddressMemPrefetch, pciBaseAddressMemLimitMask,
        pciBaseAddressMemLimit32, pciBaseAddressMemLimit1M, pciBaseAddressMemLimit64,
          BitVec.or_assoc]

theorem is64_iff (kind : BarKind) : (kind.typeBits &&& pciBaseAddressSpaceIo = 0 ∧
    kind.typeBits &&& pciBaseAddressMemLimitMask = pciBaseAddressMemLimit64) ↔
      kind.is64 = true := by
  cases kind with
  | io => decide
  | mem limit prefetch => cases limit <;> cases prefetch <;> decide

theorem barMoving_typeBits (kind : BarKind) (c : ConfigSpace) (index : BitVec 32) :
    barMoving c index kind.typeBits ((config32 index.toNat).mask c) =
      (kind.mask c index.toNat, c) := by
  unfold barMoving BarKind.mask
  rw [pciMovingConfig32_eq]
  simp only [is64_iff]
  cases kind.is64 with
  | false => rfl
  | true =>
    simp only [if_true, append_zeroExtend]
    rfl

theorem barSize_regular {bar : Bar} (h : bar.Regular c reg) (resource : Resource) :
    barSize resource (bar.kind.mask c reg) = some ({ resource with
      size := 2 ^ bar.sizeLog
      align := bar.sizeLog
      gran := bar.sizeLog
      limit := 2 ^ bar.top - 1 }, 2 ^ bar.top - 1) := by
  have htop := Nat.le_trans h.top bar.kind.width_le
  have hlog : bar.sizeLog < 64 := Nat.lt_of_lt_of_le h.size htop
  unfold barSize
  rw [if_pos (h.writable.ne_zero h.size), lowestBit_field h.writable h.size htop]
  simp only [Option.bind_eq_bind, Option.bind_some, Option.pure_def,
    limit_toNat h.writable h.size htop, BitVec.toNat_twoPow_of_lt hlog]

/-- The probe reports the register and leaves the configuration space as it was. -/
theorem pciGetResource_regular {bar : Bar} (h : bar.Regular c index.toNat) (prior : Resource) :
    pciGetResource c prior index = some (bar.resource prior index, c) := by
  unfold pciGetResource
  simp only [pciMovingConfig32_eq, h.low_fixed, barMoving_typeBits, barSize_regular h,
    barConstraints_typeBits _ (h.writable.ne_zero h.size), Option.bind_eq_bind, Option.bind_some,
    Option.pure_def]
  rw [Bar.resource]
  split
  case isTrue hgt => rw [Nat.min_eq_right (Nat.le_of_lt hgt)]
  case isFalse hle => rw [Nat.min_eq_left (Nat.le_of_not_lt hle)]

-- ---------------------------------------------------------------------------
-- Programming
-- ---------------------------------------------------------------------------

/-- The value that the writes store, in both halves. -/
def BarKind.stored (kind : BarKind) (base : Nat) : BitVec 64 :=
  if kind.isIo then BitVec.ofNat 64 base ||| 1 else BitVec.ofNat 64 base

theorem masked_zeroExtend (m x v : BitVec 32) (V : BitVec 64) (h : V.extractLsb' 0 32 = v) :
    (masked m x v).zeroExtend 64 = masked (m.zeroExtend 64) (x.zeroExtend 64) V := by
  apply BitVec.eq_of_getLsbD_eq
  intro i hi
  have hv : v.getLsbD i = (decide (i < 32) && V.getLsbD i) := by
    rw [← h, BitVec.getLsbD_extractLsb', Nat.zero_add]
  simp only [masked, BitVec.truncate_eq_setWidth, BitVec.getLsbD_or, BitVec.getLsbD_and,
    BitVec.getLsbD_not, BitVec.getLsbD_setWidth, hi, hv, decide_true, Bool.true_and]
  by_cases hlt : i < 32
  · simp [hlt]
  · have hx : x.getLsbD i = false := BitVec.getLsbD_of_ge x i (Nat.le_of_not_lt hlt)
    have hm : m.getLsbD i = false := BitVec.getLsbD_of_ge m i (Nat.le_of_not_lt hlt)
    simp [hx, hm]

theorem BarKind.not_isIo {kind : BarKind} (h : kind.is64 = true) : kind.isIo = false := by
  cases kind with
  | io => cases h
  | mem limit prefetch => rfl

theorem BarKind.extract_stored (kind : BarKind) (base : Nat) : (kind.stored base).extractLsb' 0 32 =
    if kind.isIo then BitVec.ofNat 32 base ||| pciBaseAddressSpaceIo else BitVec.ofNat 32 base := by
  unfold stored
  split
  · rw [BitVec.extractLsb'_or, extract_ofNat base (by decide)]
    rfl
  · exact extract_ofNat base (by decide)

theorem read_setBar {kind : BarKind} {resource : Resource} (c : ConfigSpace) (base : Nat)
    (hio : resource.has ioresourceIo = kind.isIo) (hwide : resource.has ioresourcePci64 = kind.is64) :
    kind.read (setBar c resource base) resource.index.toNat =
      masked (kind.mask c resource.index.toNat) (kind.read c resource.index.toNat)
        (kind.stored base) := by
  have hlow := kind.extract_stored base
  unfold setBar BarKind.read BarKind.mask
  rw [hio, hwide]
  cases hcase : kind.is64 with
  | false =>
    simp only [Bool.false_eq_true, if_false]
    rw [← masked_zeroExtend _ _ _ _ hlow]
    exact congrArg (BitVec.zeroExtend 64) ((config32 resource.index.toNat).read_write c _)
  | true =>
    have hstored : kind.stored base = BitVec.ofNat 64 base := by
      rw [BarKind.stored, kind.not_isIo hcase]
      rfl
    simp only [if_true]
    rw [hstored, ← (config64 resource.index.toNat).read_write c (BitVec.ofNat 64 base), config64,
      append_write, extract_ofNat base (by decide), extract_ofNat base (by decide), kind.not_isIo hcase]
    rfl

theorem typeBits_low (kind : BarKind) :
    kind.typeBits.zeroExtend 64 &&& ~~~BitVec.ofNat 64 (2 ^ kind.attrBits - 1) = 0#64 := by
  cases kind with
  | io => decide
  | mem limit prefetch => cases limit <;> cases prefetch <;> decide

theorem stored_field {mask : BitVec 64} (h : IsField mask k m) (hk : 0 < k) (kind : BarKind)
    (base : Nat) : kind.stored base &&& mask = BitVec.ofNat 64 base &&& mask := by
  unfold BarKind.stored
  split
  · apply BitVec.eq_of_getLsbD_eq
    intro i hi
    rw [BitVec.getLsbD_and, BitVec.getLsbD_and, BitVec.getLsbD_or, h i]
    by_cases hzero : i = 0
    · have hclear : ¬ k ≤ i := by omega
      simp [hclear]
    · have hone : (1 : BitVec 64).getLsbD i = false := by simp [hzero]
      rw [hone, Bool.or_false]
  · rfl

theorem decodes_setBar {bar : Bar} {resource : Resource} (h : bar.Regular c resource.index.toNat)
    (hio : resource.has ioresourceIo = bar.kind.isIo)
    (hwide : resource.has ioresourcePci64 = bar.kind.is64) (hbase : 2 ^ bar.sizeLog ∣ base)
    (hle : base + 2 ^ bar.sizeLog ≤ 2 ^ bar.top) (a : Nat) :
    bar.Decodes (setBar c resource base) resource.index.toNat a ↔
      base ≤ a ∧ a < base + 2 ^ bar.sizeLog := by
  have hattr : 0 < bar.kind.attrBits := by
    cases bar.kind with
    | io => decide
    | mem limit prefetch => exact Nat.succ_pos 3
  have hpos := Nat.two_pow_pos bar.sizeLog
  have htop : 2 ^ bar.top ≤ 2 ^ 64 :=
    Nat.pow_le_pow_right (by decide) (Nat.le_trans h.top bar.kind.width_le)
  have haddress : bar.address (setBar c resource base) resource.index.toNat = base := by
    rw [Bar.address, read_setBar c base hio hwide, h.writable.masked_high h.attr,
      stored_field h.writable (Nat.lt_of_lt_of_le hattr h.attr), h.writable.and_toNat,
      BitVec.toNat_ofNat, Nat.mod_eq_of_lt (by omega), Nat.mod_eq_of_lt (by omega),
      Nat.div_mul_cancel hbase]
    rw [h.fixed, typeBits_low]
  rw [Bar.Decodes, haddress]

/-- The resource that the allocator has placed. -/
def Resource.assigned (resource : Resource) (base : Nat) : Resource :=
  { resource with base := base, flags := resource.flags ||| ioresourceAssigned }

section

variable {resource : Resource} {kind : BarKind}
  (h : resource.flags = 0 ||| kind.flags ||| ioresourceAssigned)

include h

theorem stores_bar : resource.Stores := by
  constructor <;> rw [Resource.has, h] <;> cases kind with
    | io => decide
    | mem limit prefetch => cases limit <;> cases prefetch <;> decide

theorem markStored_bar : resource.markStored.has ioresourcePciBridge = false ∧
    resource.markStored.has ioresourceIo = kind.isIo ∧
    resource.markStored.has ioresourcePci64 = kind.is64 := by
  simp only [Resource.has, Resource.markStored, h]
  cases kind with
  | io => decide
  | mem limit prefetch => cases limit <;> cases prefetch <;> decide

end

/-- Programming the reported resource makes the register decode the range it was given. -/
theorem pciSetResource_regular {bar : Bar} (h : bar.Regular dev.config index.toNat)
    (hprior : prior.has ioresourceFixed = false) (hbase : 2 ^ bar.sizeLog ∣ base)
    (hle : base + 2 ^ bar.sizeLog ≤ (bar.resource prior index).limit + 1) (a : Nat) :
    bar.Decodes (pciSetResource dev ((bar.resource prior index).assigned base)).1.config index.toNat a ↔
      base ≤ a ∧ a < base + 2 ^ bar.sizeLog := by
  have hflags : ((bar.resource prior index).assigned base).flags =
      0 ||| bar.kind.flags ||| ioresourceAssigned := by
    simp [Resource.assigned, Bar.resource, newResource, hprior]
  obtain ⟨hbridge, hio, hwide⟩ := markStored_bar hflags
  have hlimit : base + 2 ^ bar.sizeLog ≤ 2 ^ bar.top := by
    have hmin : (bar.resource prior index).limit ≤ 2 ^ bar.top - 1 := Nat.min_le_right _ _
    have hpos := Nat.two_pow_pos bar.top
    omega
  have hrange : storedRange ((bar.resource prior index).assigned base).markStored =
      (base, resourceEnd ((bar.resource prior index).assigned base).markStored,
        ((bar.resource prior index).assigned base).markStored) := by
    rw [storedRange, hbridge, if_neg (by simp)]
    rfl
  have hstore : storeRange dev.config ((bar.resource prior index).assigned base).markStored base
      (resourceEnd ((bar.resource prior index).assigned base).markStored) =
      some (setBar dev.config ((bar.resource prior index).assigned base).markStored base) := by
    rw [storeRange, hbridge]
    rfl
  rw [pciSetResource_config (stores_bar hflags) hrange hstore]
  exact decodes_setBar h hio hwide hbase hlimit a

end ItxLlama.Coreboot
