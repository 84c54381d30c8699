import ItxLlama.Coreboot.Allocate

/-!
# Low memory is sound where the search sees every window

`find_pci_tolm` takes the lowest base that the search finds, whatever put it
there. So the RAM the domain reports keeps clear of a memory resource that
the search finds, and of one that starts at or above one of these; it is the
RAM below the VGA hole and above it exactly where none of these bases lies
below the end of the hole.
-/

namespace ItxLlama.Coreboot

open Lib.Word

/-- The memory resources whose bases `find_pci_tolm` compares. -/
def tolmResources (h : Store) (bus : Devices) : List ResPtr :=
  searchBusResources h ioresourceMem ioresourceMem bus

mutual
/-- The resources of the enabled devices of a bus and of every bus below. -/
def enabledResources : Devices → List ResPtr
  | .nil => []
  | .cons enabled resources links sibling =>
    (if enabled then resources else []) ++ enabledBehind links ++ enabledResources sibling

def enabledBehind : Links → List ResPtr
  | .nil => []
  | .cons _ children next => enabledResources children ++ enabledBehind next
end

/-- A memory resource that has been given its address. -/
def Resource.AssignedMem (r : Resource) : Prop :=
  r.isType ioresourceMem ioresourceMem = true ∧ r.has ioresourceAssigned = true

instance (r : Resource) : Decidable r.AssignedMem := inferInstanceAs (Decidable (_ ∧ _))

def Resource.Covers (r : Resource) (a : Nat) : Prop := r.base ≤ a ∧ a < r.base + r.size

def MemoryReport.IsRam (out : MemoryReport) (a : Nat) : Prop := ∃ r ∈ out.ram, r.Covers a

def holeStart : Nat := 640 * 1024
def holeEnd : Nat := 768 * 1024

def dramSize (sizeReg : BitVec 16) : Nat := dramSizeK sizeReg * 1024

structure LowMemorySound (h : Store) (bus : Devices) (sizeReg : BitVec 16) : Prop where
  exact : ∃ top, (pciDomainSetResources h bus sizeReg).topOfRam = some top ∧
    holeEnd ≤ top ∧ top ≤ dramSize sizeReg ∧
    ∀ a, (pciDomainSetResources h bus sizeReg).IsRam a ↔ a < holeStart ∨ holeEnd ≤ a ∧ a < top
  disjoint : ∀ p ∈ enabledResources bus, (h.res p).AssignedMem →
    ∀ a, (pciDomainSetResources h bus sizeReg).IsRam a → ¬(h.res p).Covers a

/-- Nothing below the VGA hole, and past the hole only where low memory has
ended: at the end of DRAM, at the last KiB of the address space, or behind a
resource that the search finds. -/
def Clear (h : Store) (bus : Devices) (sizeReg : BitVec 16) (r : Resource) : Prop :=
  r.size = 0 ∨ holeStart ≤ r.base ∧
    (r.base + r.size ≤ holeEnd ∨ dramSize sizeReg ≤ r.base ∨ 0xfffffc00 ≤ r.base ∨
      ∃ w ∈ tolmResources h bus, (h.res w).base / 1024 * 1024 ≤ max r.base holeEnd)

structure WindowsClear (h : Store) (bus : Devices) (sizeReg : BitVec 16) : Prop where
  device : bus ≠ .nil
  found : ∀ p ∈ tolmResources h bus, holeEnd ≤ (h.res p).base
  other : ∀ p ∈ enabledResources bus, (h.res p).AssignedMem → p ∉ tolmResources h bus →
    Clear h bus sizeReg (h.res p)

-- ---------------------------------------------------------------------------
-- The lowest base
-- ---------------------------------------------------------------------------

/-- The best so far stays at or below every base compared. -/
theorem foldl_tolmTest (h : Store) (b : ResPtr) (l : List ResPtr) :
    ∃ m, l.foldl (tolmTest h) (some b) = some m ∧ m ∈ b :: l ∧
      ∀ p ∈ b :: l, (h.res m).base ≤ (h.res p).base := by
  induction l generalizing b with
  | nil => exact ⟨b, rfl, by simp, by simp⟩
  | cons p l ih =>
    by_cases hgt : (h.res b).base > (h.res p).base
    · obtain ⟨m, hm, hmem, hle⟩ := ih p
      refine ⟨m, by simpa [tolmTest, hgt] using hm, List.mem_cons_of_mem _ hmem, ?_⟩
      intro q hq
      rcases List.mem_cons.mp hq with rfl | hq
      · exact Nat.le_trans (hle p List.mem_cons_self) (Nat.le_of_lt hgt)
      · exact hle q hq
    · obtain ⟨m, hm, hmem, hle⟩ := ih b
      have hb := hle b List.mem_cons_self
      refine ⟨m, by simpa [tolmTest, hgt] using hm, ?_, ?_⟩
      · rcases List.mem_cons.mp hmem with rfl | hmem
        · exact List.mem_cons_self
        · exact List.mem_cons_of_mem _ (List.mem_cons_of_mem _ hmem)
      · intro q hq
        rcases List.mem_cons.mp hq with rfl | hq
        · exact hb
        rcases List.mem_cons.mp hq with rfl | hq
        · exact Nat.le_trans hb (Nat.le_of_not_lt hgt)
        · exact hle q (List.mem_cons_of_mem _ hq)

/-- `find_pci_tolm` is the lowest base found, or the end of the address space. -/
structure IsTolm (h : Store) (bus : Devices) (tolm : Nat) : Prop where
  le_max : tolm ≤ 0xffffffff
  le_base : ∀ p ∈ tolmResources h bus, tolm ≤ (h.res p).base
  attained : tolm = 0xffffffff ∨ ∃ w ∈ tolmResources h bus, tolm = (h.res w).base

theorem findPciTolm_spec (h : Store) (bus : Devices) : IsTolm h bus (findPciTolm h bus) := by
  unfold findPciTolm
  cases hfound : searchBusResources h ioresourceMem ioresourceMem bus with
  | nil => exact ⟨Nat.le_refl _, by simp [tolmResources, hfound], .inl rfl⟩
  | cons b l =>
    obtain ⟨m, hm, hmem, hle⟩ := foldl_tolmTest h b l
    have hfold : (b :: l).foldl (tolmTest h) none = some m := hm
    simp only [hfold]
    rw [← hfound] at hmem hle
    split
    · next hlt => exact ⟨Nat.le_of_lt hlt, hle, .inr ⟨m, hmem, rfl⟩⟩
    · next hlt =>
      exact ⟨Nat.le_refl _, fun p hp => Nat.le_trans (Nat.le_of_not_lt hlt) (hle p hp), .inl rfl⟩

-- ---------------------------------------------------------------------------
-- What is reported
-- ---------------------------------------------------------------------------

/-- The KiB of low memory: those below the lowest base, or all there are. -/
def lowMemoryK (h : Store) (bus : Devices) (sizeReg : BitVec 16) : Nat :=
  min (findPciTolm h bus / 1024) (dramSizeK sizeReg)

theorem dramSizeK_ge (sizeReg : BitVec 16) : 2048 ≤ dramSizeK sizeReg := by
  unfold dramSizeK
  rw [Nat.shiftLeft_eq]
  exact Nat.le_mul_of_pos_right _ (Nat.two_pow_pos _)

theorem lowMemoryK_lt (h : Store) (bus : Devices) (sizeReg : BitVec 16) :
    lowMemoryK h bus sizeReg < 2 ^ 22 := by
  have := (findPciTolm_spec h bus).le_max
  unfold lowMemoryK
  omega

theorem pciDomainSetResources_eq {bus : Devices} (hbus : bus ≠ .nil) (h : Store)
    (sizeReg : BitVec 16) :
    pciDomainSetResources h bus sizeReg =
      { topOfRam := some (lowMemoryK h bus sizeReg * 1024)
        ram := (ramResource 10 0 640).toList ++
          (ramResource 11 768 (u32 (lowMemoryK h bus sizeReg + 2 ^ 32 - 768))).toList
        cmos := setCmosMemorySize (lowMemoryK h bus sizeReg) } := by
  cases bus with
  | nil => exact absurd rfl hbus
  | cons enabled resources links sibling =>
    have hk := lowMemoryK_lt h (.cons enabled resources links sibling) sizeReg
    have hmin : (if findPciTolm h (.cons enabled resources links sibling) >>> 10 ≥ dramSizeK sizeReg
        then dramSizeK sizeReg else findPciTolm h (.cons enabled resources links sibling) >>> 10) =
        lowMemoryK h (.cons enabled resources links sibling) sizeReg := by
      unfold lowMemoryK
      rw [Nat.shiftRight_eq_div_pow]
      split <;> omega
    simp only [pciDomainSetResources, hmin]
    rw [u32_eq (by omega)]

/-- The RAM reported, where low memory ends past the VGA hole. -/
theorem isRam_iff {bus : Devices} (hbus : bus ≠ .nil) {h : Store} {sizeReg : BitVec 16}
    (hk : 768 ≤ lowMemoryK h bus sizeReg) (a : Nat) :
    (pciDomainSetResources h bus sizeReg).IsRam a ↔
      a < holeStart ∨ holeEnd ≤ a ∧ a < lowMemoryK h bus sizeReg * 1024 := by
  have hlt := lowMemoryK_lt h bus sizeReg
  have hsize : u32 (lowMemoryK h bus sizeReg + 2 ^ 32 - 768) = lowMemoryK h bus sizeReg - 768 := by
    unfold u32
    omega
  simp only [MemoryReport.IsRam, pciDomainSetResources_eq hbus, hsize, List.mem_append,
    Option.mem_toList, ramResource, fixedMemResource, Resource.Covers, holeStart, holeEnd]
  constructor
  · rintro ⟨r, hr | hr, hcov⟩
    · cases hr
      exact .inl hcov.2
    · split at hr
      · cases hr
      · cases hr
        simp only [u64] at hcov
        omega
  · rintro (ha | ha)
    · exact ⟨_, .inl rfl, by simpa [u64] using ha⟩
    · refine ⟨_, .inr (if_neg (by omega)), ?_⟩
      simp only [u64]
      omega

-- ---------------------------------------------------------------------------
-- Where it is sound
-- ---------------------------------------------------------------------------

/-- Low memory reaches past the hole when no base found lies below its end. -/
theorem lowMemoryK_ge_iff (h : Store) (bus : Devices) (sizeReg : BitVec 16) :
    768 ≤ lowMemoryK h bus sizeReg ↔ ∀ p ∈ tolmResources h bus, holeEnd ≤ (h.res p).base := by
  obtain ⟨-, hle, hat⟩ := findPciTolm_spec h bus
  have hdram := dramSizeK_ge sizeReg
  unfold lowMemoryK holeEnd
  constructor
  · intro hk p hp
    have := hle p hp
    omega
  · intro hfound
    rcases hat with hmax | ⟨w, hw, heq⟩
    · omega
    · have := hfound w hw
      omega

theorem lowMemory_le_iff (h : Store) (bus : Devices) (sizeReg : BitVec 16) (a : Nat) :
    lowMemoryK h bus sizeReg * 1024 ≤ a ↔ dramSize sizeReg ≤ a ∨ 0xfffffc00 ≤ a ∨
      ∃ w ∈ tolmResources h bus, (h.res w).base / 1024 * 1024 ≤ a := by
  obtain ⟨hmax, hle, hat⟩ := findPciTolm_spec h bus
  unfold lowMemoryK dramSize
  constructor
  · intro hlow
    rcases Nat.le_total (dramSizeK sizeReg) (findPciTolm h bus / 1024) with hmin | hmin
    · rw [Nat.min_eq_right hmin] at hlow
      exact .inl hlow
    · rw [Nat.min_eq_left hmin] at hlow
      rcases hat with heq | ⟨w, hw, heq⟩
      · exact .inr (.inl (by omega))
      · exact .inr (.inr ⟨w, hw, heq ▸ hlow⟩)
  · rintro (hdram | htop | ⟨w, hw, hbase⟩)
    · exact Nat.le_trans (Nat.mul_le_mul_right _ (Nat.min_le_right _ _)) hdram
    · omega
    · refine Nat.le_trans (Nat.mul_le_mul_right _ (Nat.le_trans (Nat.min_le_left _ _) ?_)) hbase
      exact Nat.div_le_div_right (hle w hw)

theorem clear_iff {bus : Devices} (hbus : bus ≠ .nil) {h : Store} {sizeReg : BitVec 16}
    (hk : 768 ≤ lowMemoryK h bus sizeReg) (r : Resource) :
    (∀ a, (pciDomainSetResources h bus sizeReg).IsRam a → ¬r.Covers a) ↔
      Clear h bus sizeReg r := by
  have hhole : holeStart < holeEnd := by decide
  simp only [isRam_iff hbus hk]
  constructor
  · intro hdis
    by_cases hsize : r.size = 0
    · exact .inl hsize
    have hstart : holeStart ≤ r.base := by
      by_contra hlt
      exact hdis r.base (.inl (Nat.lt_of_not_le hlt)) ⟨Nat.le_refl _, by omega⟩
    refine .inr ⟨hstart, ?_⟩
    by_cases hend : r.base + r.size ≤ holeEnd
    · exact .inl hend
    refine .inr ?_
    have hmax : lowMemoryK h bus sizeReg * 1024 ≤ max r.base holeEnd := by
      by_contra hlt
      exact hdis (max r.base holeEnd) (.inr ⟨Nat.le_max_right _ _, Nat.lt_of_not_le hlt⟩)
        ⟨Nat.le_max_left _ _, by omega⟩
    have hdram : holeEnd < dramSize sizeReg := by
      have := dramSizeK_ge sizeReg
      unfold holeEnd dramSize
      omega
    have htop : holeEnd < 0xfffffc00 := by decide
    rcases (lowMemory_le_iff h bus sizeReg _).mp hmax with hd | ht | hw
    · exact .inl (by omega)
    · exact .inr (.inl (by omega))
    · exact .inr (.inr hw)
  · rintro (hsize | ⟨hstart, hclear⟩) a hram ⟨hlo, hhi⟩
    · omega
    rcases hram with hlow | ⟨hhole', htop⟩
    · omega
    have hbeyond : r.base + r.size ≤ holeEnd ∨
        lowMemoryK h bus sizeReg * 1024 ≤ max r.base holeEnd := by
      refine hclear.imp_right fun hrest => ?_
      refine (lowMemory_le_iff h bus sizeReg _).mpr ?_
      rcases hrest with hd | ht | hw
      · exact .inl (Nat.le_trans hd (Nat.le_max_left _ _))
      · exact .inr (.inl (Nat.le_trans ht (Nat.le_max_left _ _)))
      · exact .inr (.inr hw)
    omega

/-- A resource that starts no lower than one the search finds is clear of the RAM. -/
theorem clear_of_window {bus : Devices} {h : Store} {sizeReg : BitVec 16} {r : Resource}
    (hw : w ∈ tolmResources h bus) (hbase : holeEnd ≤ (h.res w).base)
    (hle : (h.res w).base ≤ r.base) : Clear h bus sizeReg r := by
  have hhole : holeStart < holeEnd := by decide
  refine .inr ⟨by omega, .inr (.inr (.inr ⟨w, hw, ?_⟩))⟩
  exact (Nat.div_mul_le_self _ _).trans (hle.trans (Nat.le_max_left _ _))

/-- The search never leaves the enabled devices, so a resource it finds is
clear of the RAM by being found. -/
theorem clear_of_found {bus : Devices} {h : Store} {sizeReg : BitVec 16}
    (hfound : ∀ p ∈ tolmResources h bus, holeEnd ≤ (h.res p).base)
    (hp : p ∈ tolmResources h bus) : Clear h bus sizeReg (h.res p) :=
  clear_of_window hp (hfound p hp) (Nat.le_refl _)

/-- Low memory is sound exactly where every base the search finds is past the
VGA hole, and every other memory resource is clear of what these leave. -/
theorem lowMemorySound_iff (h : Store) (bus : Devices) (sizeReg : BitVec 16) :
    LowMemorySound h bus sizeReg ↔ WindowsClear h bus sizeReg := by
  constructor
  · rintro ⟨⟨top, htop, hge, hle, -⟩, hdis⟩
    have hbus : bus ≠ .nil := by
      rintro rfl
      cases htop
    have heq : top = lowMemoryK h bus sizeReg * 1024 := by
      rw [pciDomainSetResources_eq hbus] at htop
      exact (Option.some.inj htop).symm
    have hk : 768 ≤ lowMemoryK h bus sizeReg := by
      unfold holeEnd at hge
      omega
    refine ⟨hbus, (lowMemoryK_ge_iff h bus sizeReg).mp hk, fun p hp hassigned _ => ?_⟩
    exact (clear_iff hbus hk _).mp (hdis p hp hassigned)
  · rintro ⟨hbus, hfound, hother⟩
    have hk := (lowMemoryK_ge_iff h bus sizeReg).mpr hfound
    refine ⟨⟨lowMemoryK h bus sizeReg * 1024, ?_, ?_, ?_, isRam_iff hbus hk⟩, ?_⟩
    · rw [pciDomainSetResources_eq hbus]
    · exact Nat.mul_le_mul_right 1024 hk
    · exact Nat.mul_le_mul_right 1024 (Nat.min_le_right _ _)
    · intro p hp hassigned
      refine (clear_iff hbus hk _).mpr ?_
      by_cases hmem : p ∈ tolmResources h bus
      · exact clear_of_found hfound hmem
      · exact hother p hp hassigned hmem

/-- A device with one window of 8 GiB, as it is read. -/
def largeBarStore : Store :=
  [{ limit := 0xffff, index := 0x10000000
     flags := ioresourceIo ||| ioresourceSubtractive ||| ioresourceAssigned },
   { limit := 0xffffffff, index := 0x10000100
     flags := ioresourceMem ||| ioresourceSubtractive ||| ioresourceAssigned },
   { size := 2 ^ 33, limit := 2 ^ 64 - 1, index := 0x10, align := 33, gran := 33
     flags := ioresourceMem ||| ioresourcePrefetch ||| 1 }]

def largeBarDomain : Domain := ⟨[0, 1], .cons true [] .nil (.cons true [2] .nil .nil)⟩

/-- The window does not fit, and keeps the base 0 of the sizing pass. Low
memory ends there, and the RAM reported above the hole reaches up to 4 TiB. -/
theorem largeBar_unsound : ∃ h, devConfigure largeBarDomain largeBarStore = some h ∧
    (pciDomainSetResources h largeBarDomain.bus 0x0800).topOfRam = some 0 ∧
    (pciDomainSetResources h largeBarDomain.bus 0x0800).IsRam (2 ^ 41) ∧
    ¬ LowMemorySound h largeBarDomain.bus 0x0800 := by
  have hconf : ∃ h, devConfigure largeBarDomain largeBarStore = some h ∧
      (pciDomainSetResources h largeBarDomain.bus 0x0800).topOfRam = some 0 ∧
      (ramResource 11 768 (2 ^ 32 - 768)).toList ⊆
        (pciDomainSetResources h largeBarDomain.bus 0x0800).ram := by
    refine ⟨(devConfigure largeBarDomain largeBarStore).get (by decide +kernel), ?_, ?_, ?_⟩
    · exact (Option.some_get _).symm
    · decide +kernel
    · decide +kernel
  obtain ⟨h, hsome, htop, hram⟩ := hconf
  refine ⟨h, hsome, htop, ⟨_, hram List.mem_cons_self, by decide, by decide⟩, fun hsound => ?_⟩
  obtain ⟨top, htop', hge, -⟩ := hsound.exact
  rw [htop] at htop'
  cases htop'
  exact absurd hge (by decide)

end ItxLlama.Coreboot
