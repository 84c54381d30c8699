import ItxLlama.Coreboot.CbfsCore
import ItxLlama.Lib.Progress
import ItxLlama.Lib.Stores
import ItxLlama.Seabios.RomArea

/-!
# Option ROM scanning

The walks of `optionroms.c` over data in a ROM: `map_pcirom` over the images of
a PCI expansion ROM, and the last loop of `optionrom_setup` over the deployed
ROMs and the PnP headers of each. The copy of the image that is found and the
priorities are left out.
-/

namespace ItxLlama.Seabios.OptionRoms

open Lib.Word Lib.Bytes Lib.Progress
open Lib.Stores (sumBytes)
open Coreboot.Cbfs (fetch)
open StateTransition

def optionRomSignature : Nat := 0xaa55
/-- `PCIR` -/
def pciRomSignature : Nat := 0x52494350
/-- `$PnP` -/
def pnpSignature : Nat := 0x506e5024
def pciromCodetypeX86 : Nat := 0

def pciRomAddressEnable : Nat := 1

section Fields

variable (mem : Nat → Byte) (rom pd pnp : Nat)

def romSignature : Nat := le16 (fetch mem) rom
def romSize : Nat := (fetch mem (rom + 2)).toNat
def romPcioffset : Nat := le16 (fetch mem) (rom + 24)
def romPnpoffset : Nat := le16 (fetch mem) (rom + 26)

def pdSignature : Nat := le32 (fetch mem) pd
def pdVendor : Nat := le16 (fetch mem) (pd + 4)
def pdDevice : Nat := le16 (fetch mem) (pd + 6)
def pdIlen : Nat := le16 (fetch mem) (pd + 16)
def pdType : Nat := (fetch mem (pd + 20)).toNat
def pdIndicator : BitVec 8 := fetch mem (pd + 21)

def pnpSig : Nat := le32 (fetch mem) pnp
def pnpNextoffset : Nat := le16 (fetch mem) (pnp + 6)
def pnpProductname : Nat := le16 (fetch mem) (pnp + 16)
def pnpBcv : Nat := le16 (fetch mem) (pnp + 22)
def pnpBev : Nat := le16 (fetch mem) (pnp + 26)

end Fields

-- ---------------------------------------------------------------------------
-- PCI ROMs
-- ---------------------------------------------------------------------------

structure PciDevice where
  vendor : Nat
  device : Nat
  headerType : BitVec 8

/-- What the expansion ROM register holds: it decodes `2 ^ bits` bytes, which are aligned. -/
structure RomBar where
  orig : Nat
  bits : Nat
  bits_ge : 11 ≤ bits
  bits_lt : bits < 32
  orig_lt : orig < 2 ^ 32
  aligned : 2 ^ bits ∣ orig

def RomBar.size (bar : RomBar) : Nat := 2 ^ bar.bits

/-- The register after all address bits are written. -/
def RomBar.sz (bar : RomBar) : Nat := 2 ^ 32 - bar.size

section PciRom

variable (mem : Nat → Byte) (pci : PciDevice)

def getPciRom (rom : Nat) : Option Nat :=
  let pd := u32 (rom + romPcioffset mem rom)
  if pdSignature mem pd ≠ pciRomSignature then none else some pd

def pdMatches (pd : Nat) : Bool :=
  pdVendor mem pd = pci.vendor ∧ pdDevice mem pd = pci.device ∧ pdType mem pd = pciromCodetypeX86

/-- What a turn of the loop of `map_pcirom` makes of an image. -/
inductive Inspected
  | matched
  | failed
  | next (rom : Nat)

def inspectRom (rom : Nat) : Inspected :=
  if romSignature mem rom ≠ optionRomSignature then .failed
  else
    match getPciRom mem rom with
    | none => .failed
    | some pd =>
      if pdMatches mem pci pd then .matched
      else if pdIndicator mem pd &&& 0x80 ≠ 0 then .failed
      else .next (u32 (rom + pdIlen mem pd * 512))

/-- The loop of `map_pcirom`: the image that matches. The outer `none` is a loop that has not
ended within its bound. -/
def mapPciromLoop : (fuel rom : Nat) → Option (Option Nat)
  | 0, _ => none
  | fuel + 1, rom =>
    match inspectRom mem pci rom with
    | .matched => some (some rom)
    | .failed => some none
    | .next rom => mapPciromLoop fuel rom

/-- The first image, unless the device or its register is not what `map_pcirom` takes. -/
def romStart (bar : RomBar) : Option Nat :=
  if pci.headerType &&& 0x7f ≠ 0 then none
  else if bar.sz = 0 ∨ bar.sz = 0xffffffff then none
  else if bar.orig = bar.sz ∨ u32 (bar.orig + 4 * 1024 * 1024) < 20 * 1024 * 1024 then none
  else some bar.orig

def mapPcirom (bar : RomBar) (fuel : Nat) : Option (Option Nat) :=
  match romStart pci bar with
  | none => some none
  | some rom => mapPciromLoop mem pci fuel rom

/-- What a turn of the loop reads, as addresses and lengths. The warning about an offset that is
not a multiple of 4 prints two of the fields. -/
def imageReads (rom : Nat) : List (Nat × Nat) :=
  if romSignature mem rom ≠ optionRomSignature then [(rom, 2)]
  else
    let pd := u32 (rom + romPcioffset mem rom)
    [(rom, 2), (u32 (rom + 24), 2), (pd, 4)] ++
    if pdSignature mem pd ≠ pciRomSignature then []
    else
      (if romPcioffset mem rom % 4 ≠ 0 then [(u32 (pd + 4), 2), (u32 (pd + 6), 2)] else []) ++
      (u32 (pd + 4), 2) ::
      (if pdVendor mem pd = pci.vendor then (u32 (pd + 6), 2) ::
        (if pdDevice mem pd = pci.device then [(u32 (pd + 20), 1)] else []) else []) ++
      if pdMatches mem pci pd then []
      else (u32 (pd + 21), 1) ::
        (if pdIndicator mem pd &&& 0x80 ≠ 0 then [] else [(u32 (pd + 16), 2)])

def imageStep (rom : Nat) : Option Nat :=
  match inspectRom mem pci rom with
  | .next rom => some rom
  | _ => none

/-- The images that `map_pcirom` inspects. -/
def Inspects (bar : RomBar) (rom : Nat) : Prop :=
  ∃ start ∈ romStart pci bar, Reaches (imageStep mem pci) start rom

/-- `map_pcirom` ends, and reads only the ROM. -/
structure ScanRight (bar : RomBar) : Prop where
  ends : ∃ fuel r, mapPcirom mem pci bar fuel = some r
  inside : ∀ rom, Inspects mem pci bar rom →
    ∀ a ∈ imageReads mem pci rom, bar.orig ≤ a.1 ∧ a.1 + a.2 ≤ bar.orig + bar.size

/-- How many bytes of an image hold what the loop looks at: the signature; with that the offset of
the PCI data; and with their signature the data up to the type, or up to the indicator. -/
def imageNeeds (rom : Nat) : Nat :=
  if romSignature mem rom ≠ optionRomSignature then 2
  else
    let pd := u32 (rom + romPcioffset mem rom)
    max 26 (romPcioffset mem rom +
      if pdSignature mem pd ≠ pciRomSignature then 4 else if pdMatches mem pci pd then 21 else 22)

/-- Every image that is inspected is in the ROM, as far as that, and every one that is passed over
has a length. -/
structure ImagesFit (bar : RomBar) : Prop where
  inside : ∀ rom, Inspects mem pci bar rom →
    bar.orig ≤ rom ∧ rom + imageNeeds mem pci rom ≤ bar.orig + bar.size
  ilen : ∀ rom next, Inspects mem pci bar rom →
    imageStep mem pci rom = some next → pdIlen mem (u32 (rom + romPcioffset mem rom)) ≠ 0

theorem two_le_imageNeeds (rom : Nat) : 2 ≤ imageNeeds mem pci rom := by
  unfold imageNeeds
  split
  · exact Nat.le_refl 2
  · exact Nat.le_trans (by decide) (Nat.le_max_left _ _)

variable {mem pci}

theorem RomBar.size_le (bar : RomBar) : bar.size ≤ 2 ^ 31 :=
  Nat.pow_le_pow_right (by decide) (Nat.le_of_lt_succ bar.bits_lt)

theorem RomBar.end_le (bar : RomBar) : bar.orig + bar.size ≤ 2 ^ 32 := by
  have hlt := bar.orig_lt
  obtain ⟨k, hk⟩ := bar.aligned
  have hpow : 2 ^ bar.bits * 2 ^ (32 - bar.bits) = 2 ^ 32 := by
    rw [← Nat.pow_add, Nat.add_sub_cancel' (Nat.le_of_lt bar.bits_lt)]
  rw [hk, ← hpow] at hlt
  have hle := Nat.mul_le_mul_left (2 ^ bar.bits) (Nat.lt_of_mul_lt_mul_left hlt)
  rw [hpow, Nat.mul_succ, ← hk] at hle
  exact hle

/-- No read near an image comes back into the ROM by a wrap. -/
theorem RomBar.inside_iff (bar : RomBar) (hle : bar.orig ≤ rom)
    (hlt : rom + 2 ≤ bar.orig + bar.size)
    (hk : k < 2 ^ 16 + 24) (hn : 0 < n) :
    (bar.orig ≤ u32 (rom + k) ∧ u32 (rom + k) + n ≤ bar.orig + bar.size) ↔
      rom + (k + n) ≤ bar.orig + bar.size := by
  have hend := bar.end_le
  have hsize := bar.size_le
  unfold u32
  omega

theorem imageReads_inside (bar : RomBar) : (∀ a ∈ imageReads mem pci rom,
    bar.orig ≤ a.1 ∧ a.1 + a.2 ≤ bar.orig + bar.size) ↔
    bar.orig ≤ rom ∧ rom + imageNeeds mem pci rom ≤ bar.orig + bar.size := by
  have hpo : romPcioffset mem rom < 2 ^ 16 := le16_lt _ _
  by_cases hrom : bar.orig ≤ rom ∧ rom + 2 ≤ bar.orig + bar.size
  · obtain ⟨hle, hlt⟩ := hrom
    have hadd (k : Nat) : u32 (u32 (rom + romPcioffset mem rom) + k) =
        u32 (rom + (romPcioffset mem rom + k)) := by
      rw [u32, u32, Nat.mod_add_mod, Nat.add_assoc, u32]
    have hin (k n : Nat) (hk : k < 2 ^ 16 + 24) (hn : 0 < n) := bar.inside_iff hle hlt hk hn
    unfold imageReads imageNeeds
    split
    case isTrue => simp [hle]
    case isFalse =>
      simp only [hadd]
      split
      case isTrue =>
        simp only [List.append_nil, List.forall_mem_cons, List.not_mem_nil, false_imp_iff,
          implies_true, and_true]
        rw [bar.inside_iff hle hlt (by omega) (by omega), bar.inside_iff hle hlt (by omega) (by omega)]
        omega
      case isFalse =>
        -- one case for each way through the comparisons
        simp only [pdMatches, Bool.decide_and, Bool.and_eq_true, decide_eq_true_eq]
        repeat' split
        all_goals
          simp (disch := omega) only [List.forall_mem_cons, List.cons_append, List.nil_append,
            List.not_mem_nil, false_imp_iff, implies_true, and_true, hin]
        all_goals omega
  · constructor
    · intro h
      refine absurd (h (rom, 2) ?_) hrom
      unfold imageReads
      split <;> simp
    · rintro ⟨hle, hlt⟩
      refine absurd ⟨hle, ?_⟩ hrom
      have := two_le_imageNeeds mem pci rom
      omega

theorem getPciRom_eq (h : getPciRom mem rom = some pd) : pd = u32 (rom + romPcioffset mem rom) := by
  simp only [getPciRom] at h
  split at h
  case isTrue => cases h
  case isFalse => exact (Option.some.inj h).symm

theorem inspectRom_next (h : inspectRom mem pci rom = .next next) :
    next = u32 (rom + pdIlen mem (u32 (rom + romPcioffset mem rom)) * 512) := by
  unfold inspectRom at h
  split at h
  case isTrue => cases h
  case isFalse =>
    split at h
    case h_1 => cases h
    case h_2 pd hpd =>
      split at h
      case isTrue => cases h
      case isFalse =>
        split at h
        case isTrue => cases h
        case isFalse => rw [← getPciRom_eq hpd, ← Inspected.next.inj h]

theorem imageStep_eq_some :
    imageStep mem pci rom = some next ↔ inspectRom mem pci rom = .next next := by
  unfold imageStep
  cases inspectRom mem pci rom with
  | matched => simp
  | failed => simp
  | next rom => simp

theorem mapPciromLoop_step (fuel rom : Nat) :
    (∃ r, mapPciromLoop mem pci (fuel + 1) rom = some r) ↔
      ∀ next, imageStep mem pci rom = some next → ∃ r,
        mapPciromLoop mem pci fuel next = some r := by
  rw [mapPciromLoop, imageStep]
  cases inspectRom mem pci rom with
  | matched => simp
  | failed => simp
  | next rom => simp

theorem mapPciromLoop_ends (start : Nat) :
    (∃ fuel r, mapPciromLoop mem pci fuel start = some r) ↔ Halts (imageStep mem pci) start := by
  constructor
  · rintro ⟨fuel, hfuel⟩
    refine halts_of_ends (P := fun fuel rom => ∃ r, mapPciromLoop mem pci fuel rom = some r)
      (fun rom h => ?_) (fun fuel rom next hnext h => ?_) hfuel
    · obtain ⟨r, hr⟩ := h
      cases hr
    · exact (mapPciromLoop_step fuel rom).mp h next hnext
  · refine ends_of_halts (P := fun fuel rom => ∃ r, mapPciromLoop mem pci fuel rom = some r)
      (fun fuel rom next hnext h => (mapPciromLoop_step fuel rom).mpr ?_)
      fun rom hrom => ⟨1, (mapPciromLoop_step 0 rom).mpr ?_⟩
    · rintro next' hnext'
      cases hnext.symm.trans hnext'
      exact h
    · rintro next hnext
      cases hrom.symm.trans hnext

theorem mapPcirom_ends (bar : RomBar) : (∃ fuel r, mapPcirom mem pci bar fuel = some r) ↔
    ∀ start ∈ romStart pci bar, Halts (imageStep mem pci) start := by
  unfold mapPcirom
  cases romStart pci bar with
  | none => exact ⟨fun _ _ h => absurd h (Option.not_mem_none _), fun _ => ⟨0, none, rfl⟩⟩
  | some start =>
    rw [mapPciromLoop_ends]
    simp

theorem scanRight_iff (bar : RomBar) : ScanRight mem pci bar ↔ ImagesFit mem pci bar := by
  have hend := bar.end_le
  have hsize := bar.size_le
  constructor
  · intro h
    have hinside (rom) (hrom : Inspects mem pci bar rom) :=
      (imageReads_inside bar).mp (h.inside rom hrom)
    refine ⟨hinside, fun rom next hrom hnext hilen => ?_⟩
    have hself : next = rom := by
      have hneeds := two_le_imageNeeds mem pci rom
      have := (hinside rom hrom).2
      rw [inspectRom_next (imageStep_eq_some.mp hnext), hilen, Nat.zero_mul, Nat.add_zero]
      exact u32_eq (by omega)
    subst hself
    obtain ⟨start, hstart, hreaches⟩ := hrom
    exact ((mapPcirom_ends bar).mp h.ends start hstart).acyclic hreaches (.single hnext)
  · intro h
    have hhalts : ∀ start ∈ romStart pci bar, Halts (imageStep mem pci) start := by
      intro start hstart
      refine halts_of_progress id (2 ^ 32) (fun rom next hrom hnext => ?_) fun rom next hrom hnext => ?_
      · have hilen := h.ilen rom next ⟨start, hstart, hrom⟩ hnext
        obtain ⟨hle, hlt⟩ := h.inside rom ⟨start, hstart, hrom⟩
        obtain ⟨hle', hlt'⟩ := h.inside next ⟨start, hstart, reaches_step hrom hnext⟩
        have hbound : pdIlen mem (u32 (rom + romPcioffset mem rom)) < 2 ^ 16 := le16_lt _ _
        have heq := inspectRom_next (imageStep_eq_some.mp hnext)
        generalize pdIlen mem (u32 (rom + romPcioffset mem rom)) = ilen at *
        unfold u32 at heq
        show rom < next
        omega
      · have := (h.inside rom ⟨start, hstart, hrom⟩).2
        have hneeds := two_le_imageNeeds mem pci rom
        show rom < 2 ^ 32
        omega
    exact ⟨(mapPcirom_ends bar).mpr hhalts,
      fun rom hrom => (imageReads_inside bar).mpr (h.inside rom hrom)⟩

end PciRom

-- ---------------------------------------------------------------------------
-- PnP headers
-- ---------------------------------------------------------------------------

section Pnp

variable (mem : Nat → Byte) (rom : Nat)

def getPnpRom : Option Nat :=
  let pnp := u32 (rom + romPnpoffset mem rom)
  if pnpSig mem pnp ≠ pnpSignature then none else some pnp

def getPnpNext (pnp : Nat) : Option Nat :=
  if pnpNextoffset mem pnp = 0 then none
  else
    let pnp := u32 (rom + pnpNextoffset mem pnp)
    if pnpSig mem pnp ≠ pnpSignature then none else some pnp

/-- A `boot_add_bev` or `boot_add_bcv` for a header: the vector, the product name and the instance
that its priority is for. -/
inductive PnpEntry
  | bev (ip desc instance_ : Nat)
  | bcv (ip desc instance_ : Nat)
  deriving DecidableEq

/-- The loop of `optionrom_setup` over the headers of a ROM. The outer `none` is a loop that has
not ended within its bound. -/
def pnpLoop : (fuel instance_ : Nat) → Option Nat → Option (List PnpEntry)
  | 0, _, _ => none
  | _ + 1, _, none => some []
  | fuel + 1, instance_, some pnp =>
    if pnpBev mem pnp ≠ 0 then
      (pnpLoop fuel (instance_ + 1) (getPnpNext mem rom pnp)).map
        (.bev (pnpBev mem pnp) (pnpProductname mem pnp) instance_ :: ·)
    else if pnpBcv mem pnp ≠ 0 then
      (pnpLoop fuel (instance_ + 1) (getPnpNext mem rom pnp)).map
        (.bcv (pnpBcv mem pnp) (pnpProductname mem pnp) instance_ :: ·)
    else some []

/-- The header after one that has a vector. -/
def pnpStep (pnp : Nat) : Option Nat :=
  if pnpBev mem pnp = 0 ∧ pnpBcv mem pnp = 0 then none else getPnpNext mem rom pnp

/-- No header of the chain leads back to itself. -/
def PnpAcyclic : Prop :=
  ∀ start ∈ getPnpRom mem rom, ∀ pnp, Reaches (pnpStep mem rom) start pnp →
    ¬ Reaches₁ (pnpStep mem rom) pnp pnp

variable {mem rom}

theorem pnpLoop_step (fuel n pnp : Nat) :
    (∃ r, pnpLoop mem rom (fuel + 1) n (some pnp) = some r) ↔
      (pnpBev mem pnp = 0 ∧ pnpBcv mem pnp = 0 ∨
        ∃ r, pnpLoop mem rom fuel (n + 1) (getPnpNext mem rom pnp) = some r) := by
  rw [pnpLoop]
  by_cases hbev : pnpBev mem pnp = 0
  · by_cases hbcv : pnpBcv mem pnp = 0
    · simp [hbev, hbcv]
    · simp [hbev, hbcv]
  · simp [hbev]

theorem getPnpNext_eq (h : getPnpNext mem rom pnp = some next) :
    next = u32 (rom + pnpNextoffset mem pnp) := by
  simp only [getPnpNext] at h
  split at h
  case isTrue => cases h
  case isFalse =>
    split at h
    case isTrue => cases h
    case isFalse => exact (Option.some.inj h).symm

theorem pnpStep_eq_some : pnpStep mem rom pnp = some next ↔
    ¬ (pnpBev mem pnp = 0 ∧ pnpBcv mem pnp = 0) ∧ getPnpNext mem rom pnp = some next := by
  unfold pnpStep
  split
  case isTrue h => simp [h]
  case isFalse h => exact ⟨fun hn => ⟨h, hn⟩, And.right⟩

/-- The headers of the chain lie within 64 KiB of the ROM. -/
theorem pnp_finite (start : Nat) : {pnp | Reaches (pnpStep mem rom) start pnp}.Finite := by
  have hsub : {pnp | Reaches (pnpStep mem rom) start pnp} ⊆
      insert start ((fun off => u32 (rom + off)) '' Set.Iio (2 ^ 16)) := by
    intro pnp hpnp
    rcases Relation.ReflTransGen.cases_tail hpnp with rfl | ⟨prev, -, h⟩
    · exact Set.mem_insert _ _
    · have hnext := getPnpNext_eq (pnpStep_eq_some.mp h).2
      exact Set.mem_insert_of_mem _ ⟨pnpNextoffset mem prev, le16_lt _ _, hnext.symm⟩
  have hfin : (Set.Iio (2 ^ 16) : Set Nat).Finite := Set.finite_lt_nat _
  exact ((hfin.image _).insert start).subset hsub

theorem pnpLoop_ends (start : Nat) :
    (∃ fuel r, pnpLoop mem rom fuel 0 (some start) = some r) ↔ Halts (pnpStep mem rom) start := by
  constructor
  · rintro ⟨fuel, hfuel⟩
    refine halts_of_ends (P := fun fuel pnp => ∃ n r, pnpLoop mem rom fuel n (some pnp) = some r)
      (fun pnp h => ?_) (fun fuel pnp next hnext h => ?_) ⟨0, hfuel⟩
    · obtain ⟨n, r, hr⟩ := h
      cases hr
    · obtain ⟨n, hn⟩ := h
      obtain ⟨hvec, heq⟩ := pnpStep_eq_some.mp hnext
      exact ⟨n + 1, heq ▸ ((pnpLoop_step fuel n pnp).mp hn).resolve_left hvec⟩
  · intro h
    have hall : ∃ fuel, ∀ n, ∃ r, pnpLoop mem rom fuel n (some start) = some r := by
      refine ends_of_halts (P := fun fuel pnp => ∀ n, ∃ r,
        pnpLoop mem rom fuel n (some pnp) = some r)
        (fun fuel pnp next hnext h n => ?_) (fun pnp hpnp => ⟨2, fun n => ?_⟩) h
      · exact (pnpLoop_step fuel n pnp).mpr (.inr ((pnpStep_eq_some.mp hnext).2 ▸ h (n + 1)))
      · refine (pnpLoop_step 1 n pnp).mpr ?_
        unfold pnpStep at hpnp
        split at hpnp
        case isTrue hvec => exact .inl hvec
        case isFalse => exact .inr ⟨[], by rw [hpnp]; rfl⟩
    obtain ⟨fuel, hfuel⟩ := hall
    exact ⟨fuel, hfuel 0⟩

theorem pnpChain_ends (rom : Nat) : (∀ start ∈ getPnpRom mem rom, ∃ fuel r,
    pnpLoop mem rom fuel 0 (some start) = some r) ↔ PnpAcyclic mem rom := by
  refine forall_congr' fun start => forall_congr' fun _ => ?_
  rw [pnpLoop_ends, halts_iff_acyclic (pnp_finite start)]

theorem pnpLoop_mono (h : pnpLoop mem rom fuel n pnp = some r) (hle : fuel ≤ fuel') :
    pnpLoop mem rom fuel' n pnp = some r := by
  induction fuel generalizing fuel' n pnp r with
  | zero => cases h
  | succ fuel ih =>
  cases fuel' with
  | zero => cases hle
  | succ fuel' =>
  have hle := Nat.le_of_succ_le_succ hle
  cases pnp with
  | none => exact h
  | some pnp =>
    rw [pnpLoop] at h ⊢
    split at h
    case isTrue hbev =>
      obtain ⟨rest, hrest, rfl⟩ := Option.map_eq_some_iff.mp h
      rw [if_pos hbev, ih hrest hle]
      rfl
    case isFalse hbev =>
    rw [if_neg hbev]
    split at h
    case isTrue hbcv =>
      obtain ⟨rest, hrest, rfl⟩ := Option.map_eq_some_iff.mp h
      rw [if_pos hbcv, ih hrest hle]
      rfl
    case isFalse hbcv => rwa [if_neg hbcv]

end Pnp

-- ---------------------------------------------------------------------------
-- Deployed ROMs
-- ---------------------------------------------------------------------------

/-- `offsetof(struct rom_header, initVector[0])` -/
def optionRomInitvector : Nat := 3

/-- What `optionrom_setup` starts its last loop with. The ROMs are below the BIOS. -/
structure Area where
  enforceChecksum : Bool
  postVga : Nat
  romLast : Nat
  romLast_le : romLast ≤ 0xf0000

section Setup

variable (mem : Nat → Byte) (area : Area)

def isValidRom (rom : Nat) : Bool :=
  if romSignature mem rom ≠ optionRomSignature then false
  else if romSize mem rom = 0 then false
  else sumBytes (fetch mem) rom (romSize mem rom * 512) = 0 ∨ ¬ area.enforceChecksum

/-- The vectors at a place. A ROM without a PnP header is a legacy ROM. -/
def romVectors (fuel rom : Nat) : Option (List PnpEntry) :=
  if ¬ isValidRom mem area rom then some []
  else
    match getPnpRom mem rom with
    | none => some [.bcv optionRomInitvector 0 0]
    | some pnp => pnpLoop mem rom fuel 0 (some pnp)

/-- The place after `pos`, behind a ROM. -/
def setupNext (pos : Nat) : Nat :=
  if isValidRom mem area pos then u32 (pos + align32 (romSize mem pos * 512) optionRomAlign)
  else u32 (pos + optionRomAlign)

/-- The last loop of `optionrom_setup`, with the ROM that each vector is in. -/
def setupLoop : (fuel pos : Nat) → Option (List (Nat × PnpEntry))
  | 0, _ => none
  | fuel + 1, pos =>
    if pos < area.romLast then do
      let added ← romVectors mem area fuel pos
      let rest ← setupLoop fuel (setupNext mem area pos)
      some (added.map (pos, ·) ++ rest)
    else some []

def optionromSetup (fuel : Nat) : Option (List (Nat × PnpEntry)) :=
  setupLoop mem area fuel area.postVga

def setupStep (pos : Nat) : Option Nat :=
  if pos < area.romLast then some (setupNext mem area pos) else none

/-- The ROMs that the loop comes to and that `is_valid_rom` admits. -/
def Admits (rom : Nat) : Prop :=
  Reaches (setupStep mem area) area.postVga rom ∧ rom < area.romLast ∧ isValidRom mem area rom

variable {mem area}

theorem setupStep_eq_some : setupStep mem area pos = some next ↔
    pos < area.romLast ∧ setupNext mem area pos = next := by
  simp [setupStep]

theorem setupNext_gt (hpos : pos < area.romLast) : pos < setupNext mem area pos := by
  have hlast := area.romLast_le
  have hsize : romSize mem pos < 256 := (fetch mem (pos + 2)).isLt
  unfold setupNext
  split
  case isTrue hvalid =>
    have hzero : romSize mem pos ≠ 0 := by
      intro hzero
      rw [isValidRom, if_pos hzero] at hvalid
      simp at hvalid
    simp only [align32, alignDown, optionRomAlign, u32]
    omega
  case isFalse =>
    simp only [optionRomAlign, u32]
    omega

theorem romVectors_mono (h : romVectors mem area fuel rom = some r) (hle : fuel ≤ fuel') :
    romVectors mem area fuel' rom = some r := by
  unfold romVectors at h ⊢
  split at h
  case isTrue hvalid => rwa [if_pos hvalid]
  case isFalse hvalid =>
    rw [if_neg hvalid]
    cases hpnp : getPnpRom mem rom with
    | none => rwa [hpnp] at h
    | some pnp =>
      rw [hpnp] at h
      exact pnpLoop_mono h hle

theorem romVectors_ends (rom : Nat) : (∃ fuel r, romVectors mem area fuel rom = some r) ↔
    (isValidRom mem area rom → PnpAcyclic mem rom) := by
  rw [← pnpChain_ends]
  unfold romVectors
  by_cases hvalid : isValidRom mem area rom
  case neg => exact ⟨fun _ h => absurd h hvalid, fun _ => ⟨0, [], if_pos hvalid⟩⟩
  case pos =>
    simp only [not_true_eq_false, if_false, hvalid, forall_true_left]
    cases getPnpRom mem rom with
    | none => exact ⟨fun _ _ h => absurd h (Option.not_mem_none _), fun _ => ⟨0, _, rfl⟩⟩
    | some pnp => simp

theorem setupLoop_mono (h : setupLoop mem area fuel pos = some r) (hle : fuel ≤ fuel') :
    setupLoop mem area fuel' pos = some r := by
  induction fuel generalizing fuel' pos r with
  | zero => cases h
  | succ fuel ih =>
  cases fuel' with
  | zero => cases hle
  | succ fuel' =>
  have hle := Nat.le_of_succ_le_succ hle
  rw [setupLoop] at h ⊢
  split at h
  case isFalse hlast => rwa [if_neg hlast]
  case isTrue hlast =>
    obtain ⟨added, hadded, h⟩ := Option.bind_eq_some_iff.mp h
    obtain ⟨rest, hrest, h⟩ := Option.bind_eq_some_iff.mp h
    rw [if_pos hlast, romVectors_mono hadded hle, Option.bind_eq_bind, Option.bind_some,
      ih hrest hle]
    exact h

/-- Where the loop ends, it came through the chain of every ROM on its way. -/
theorem setupLoop_vectors (h : setupLoop mem area fuel pos = some r)
    (hrom : Reaches (setupStep mem area) pos rom) (hlast : rom < area.romLast) :
    ∃ fuel r, romVectors mem area fuel rom = some r := by
  induction fuel generalizing pos r with
  | zero => cases h
  | succ fuel ih =>
    rw [setupLoop] at h
    rcases Relation.ReflTransGen.cases_head hrom with rfl | ⟨next, hnext, hrom⟩
    · rw [if_pos hlast] at h
      obtain ⟨added, hadded, -⟩ := Option.bind_eq_some_iff.mp h
      exact ⟨fuel, added, hadded⟩
    · obtain ⟨hpos, rfl⟩ := setupStep_eq_some.mp hnext
      rw [if_pos hpos] at h
      obtain ⟨added, -, h⟩ := Option.bind_eq_some_iff.mp h
      obtain ⟨rest, hrest, -⟩ := Option.bind_eq_some_iff.mp h
      exact ih hrest hrom

/-- The places grow, so only a chain of headers can keep the loop from its end. -/
theorem optionromSetup_ends : (∃ fuel r, optionromSetup mem area fuel = some r) ↔
    ∀ rom, Admits mem area rom → PnpAcyclic mem rom := by
  constructor
  · rintro ⟨fuel, r, h⟩ rom ⟨hrom, hlast, hvalid⟩
    exact (romVectors_ends rom).mp (setupLoop_vectors h hrom hlast) hvalid
  · intro h
    refine progress_induction (f := setupStep mem area)
      (motive := fun pos => ∃ fuel r, setupLoop mem area fuel pos = some r) id area.romLast ?_ ?_ ?_
    · intro pos next hpos hnext
      obtain ⟨hlast, rfl⟩ := setupStep_eq_some.mp hnext
      exact setupNext_gt hlast
    · intro pos next hpos hnext
      exact (setupStep_eq_some.mp hnext).1
    · intro pos hpos ih
      by_cases hlast : pos < area.romLast
      case neg => exact ⟨1, [], if_neg hlast⟩
      case pos =>
        obtain ⟨fuel, rest, hrest⟩ := ih _ (if_pos hlast)
        obtain ⟨fuel', added, hadded⟩ :=
          (romVectors_ends pos).mpr fun hvalid => h pos ⟨hpos, hlast, hvalid⟩
        refine ⟨max fuel fuel' + 1, added.map (pos, ·) ++ rest, ?_⟩
        rw [setupLoop, if_pos hlast, romVectors_mono hadded (Nat.le_max_right _ _),
          Option.bind_eq_bind, Option.bind_some, setupLoop_mono hrest (Nat.le_max_left _ _)]
        rfl

end Setup

/-- `map_pcirom` on what a device's ROM holds, and the end of `optionrom_setup` on what is in the
ROM area by then. -/
structure RomWalksRight (mem deployed : Nat → Byte) (pci : PciDevice) (bar : RomBar) (area : Area) :
    Prop where
  images : ScanRight mem pci bar
  headers : ∃ fuel r, optionromSetup deployed area fuel = some r

/-- The walks are right if and only if the images fit into the ROM and no PnP header of a valid
ROM leads back to itself. -/
theorem romWalksRight_iff (mem deployed : Nat → Byte) (pci : PciDevice) (bar : RomBar)
    (area : Area) : RomWalksRight mem deployed pci bar area ↔
      ImagesFit mem pci bar ∧ ∀ rom, Admits deployed area rom → PnpAcyclic deployed rom := by
  rw [← scanRight_iff, ← optionromSetup_ends]
  exact ⟨fun h => ⟨h.images, h.headers⟩, fun h => ⟨h.1, h.2⟩⟩

/-- The start of a ROM for another device, whose image has length 0. -/
def zeroLengthRom : List Byte :=
  [0x55, 0xaa, 1] ++ List.replicate 21 0 ++ [0x1c, 0, 0, 0] ++ [0x50, 0x43, 0x49, 0x52] ++
    [0x34, 0x12, 0x01, 0x00]

def zeroLengthMem (a : Nat) : Byte :=
  if a < 0x80000000 then 0 else zeroLengthRom.getD (a - 0x80000000) 0

theorem romWalks_zeroLength : ¬ ∀ (mem deployed : Nat → Byte) (pci : PciDevice) (bar : RomBar)
    (area : Area), RomWalksRight mem deployed pci bar area := by
  intro hall
  have hright := hall zeroLengthMem zeroLengthMem ⟨0x8086, 0x100e, 0⟩
    ⟨0x80000000, 16, by decide, by decide, by decide, by decide⟩
    ⟨true, 0xc0000, 0xc0000, by decide⟩
  have hstep : imageStep zeroLengthMem ⟨0x8086, 0x100e, 0⟩ 0x80000000 = some 0x80000000 := by
    decide
  exact ((mapPcirom_ends _).mp hright.images.ends 0x80000000 rfl).acyclic .refl (.single hstep)

end ItxLlama.Seabios.OptionRoms
