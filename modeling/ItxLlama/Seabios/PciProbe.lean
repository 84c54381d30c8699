import ItxLlama.Seabios.BootOrder
import Mathlib.Data.List.Intervals

/-!
# PCI enumeration

The walk of `pci_probe_devices` over configuration space, and the chains of
parents that `build_pci_path` follows.
-/

namespace ItxLlama.Seabios.PciProbe

/-- The byte at an address of a function's configuration space. -/
abbrev ConfigSpace := (bdf addr : Nat) → BitVec 8

def pciConfigReadb (cfg : ConfigSpace) (bdf addr : Nat) : Nat := (cfg bdf addr).toNat

def pciConfigReadw (cfg : ConfigSpace) (bdf addr : Nat) : Nat :=
  pciConfigReadb cfg bdf addr + 0x100 * pciConfigReadb cfg bdf (addr + 1)

def pciConfigReadl (cfg : ConfigSpace) (bdf addr : Nat) : Nat :=
  pciConfigReadw cfg bdf addr + 0x10000 * pciConfigReadw cfg bdf (addr + 2)

def pciVendorId : Nat := 0x00
def pciClassRevision : Nat := 0x08
def pciHeaderType : Nat := 0x0e
def pciSecondaryBus : Nat := 0x19

def pciHeaderTypeBridge : Nat := 1
def pciHeaderTypeCardbus : Nat := 2

/-- An `int` passed for a `u16`. -/
def toU16 (bdf : Int) : Nat := (bdf % 0x10000).toNat

def pciBdfToBus (bdf : Int) : Nat := toU16 bdf / 0x100
def pciBdfToFn (bdf : Int) : Nat := toU16 bdf % 8

/-- The loop of `pci_next`; without a result when the fuel is used up. -/
def pciNextLoop (cfg : ConfigSpace) (bus : Nat) : (fuel : Nat) → (bdf : Int) → Option Int
  | 0, _ => none
  | fuel + 1, bdf =>
    if pciBdfToBus bdf ≠ bus then some (-1)
    else
      let v := pciConfigReadw cfg (toU16 bdf) pciVendorId
      if v ≠ 0x0000 ∧ v ≠ 0xffff then some bdf
      else if pciBdfToFn bdf = 0 then pciNextLoop cfg bus fuel (bdf + 8)
      else pciNextLoop cfg bus fuel (bdf + 1)

def busFuel : Nat := 257

def pciNext (cfg : ConfigSpace) (bdf : Int) (bus : Nat) : Option Int :=
  if pciBdfToFn bdf = 0 ∧ pciConfigReadb cfg (toU16 bdf) pciHeaderType &&& 0x80 = 0 then
    -- last found device wasn't a multi-function device
    pciNextLoop cfg bus busFuel (bdf + 8)
  else pciNextLoop cfg bus busFuel (bdf + 1)

/-- `parent` is a place in the list of devices. -/
structure PciDevice where
  bdf : Nat
  rootbus : Nat
  parent : Option Nat
  vendor : Nat
  device : Nat
  classId : Nat
  progIf : Nat
  revision : Nat
  headerType : Nat
  secondaryBus : Nat
  deriving DecidableEq, Repr

def IsBridge (headerType : Nat) : Prop :=
  headerType &&& 0x7f = pciHeaderTypeBridge ∨ headerType &&& 0x7f = pciHeaderTypeCardbus

instance (headerType : Nat) : Decidable (IsBridge headerType) := inferInstanceAs (Decidable (_ ∨ _))

/-- The variables of `pci_probe_devices`. -/
structure Probe where
  devices : List PciDevice
  busdevs : Nat → Option Nat
  maxPciBus : Int
  lastbus : Nat
  rootbuses : Nat

/-- Populate the device's info. -/
def readDevice (cfg : ConfigSpace) (bdf rootbus : Nat) (parent : Option Nat) : PciDevice :=
  let vendev := pciConfigReadl cfg bdf pciVendorId
  let classrev := pciConfigReadl cfg bdf pciClassRevision
  let headerType := pciConfigReadb cfg bdf pciHeaderType
  { bdf, parent, headerType
    rootbus := rootbus % 0x100
    vendor := vendev % 0x10000
    device := vendev / 0x10000
    classId := classrev / 0x10000
    progIf := classrev / 0x100 % 0x100
    revision := classrev % 0x100
    secondaryBus := if IsBridge headerType then pciConfigReadb cfg bdf pciSecondaryBus else 0 }

/-- A device without a parent is on a root bus. -/
def noteRoot (bus : Nat) (st : Probe) : Probe :=
  { st with
    rootbuses := if bus ≠ st.lastbus then st.rootbuses + 1 else st.rootbuses
    lastbus := bus
    maxPciBus := if bus > st.maxPciBus then bus else st.maxPciBus }

/-- The bus behind a bridge. -/
def noteBridge (bus secbus place : Nat) (st : Probe) : Probe :=
  { st with
    busdevs := if secbus > bus ∧ st.busdevs secbus = none
      then Function.update st.busdevs secbus (some place) else st.busdevs
    maxPciBus := if secbus > st.maxPciBus then secbus else st.maxPciBus }

def rootbusOf (devices : List PciDevice) (place : Nat) : Nat :=
  (devices[place]?.map PciDevice.rootbus).getD 0

/-- The loop body, once `malloc_tmp` has given a `pci_device`. -/
def addDevice (cfg : ConfigSpace) (bus bdf : Nat) (st : Probe) : Probe :=
  let parent := st.busdevs bus
  let st := if parent = none then noteRoot bus st else st
  let rootbus := parent.elim st.rootbuses (rootbusOf st.devices)
  let dev := readDevice cfg bdf rootbus parent
  let place := st.devices.length
  let st := { st with devices := st.devices ++ [dev] }
  if IsBridge dev.headerType then noteBridge bus dev.secondaryBus place st else st

/-- `foreachbdf` on a bus, with whether the memory lasted: `alloc n` says
whether the `n`-th device gets memory. -/
def probeBus (cfg : ConfigSpace) (alloc : Nat → Bool) (bus : Nat) :
    (fuel : Nat) → (bdf : Int) → Probe → Option (Probe × Bool)
  | 0, _, _ => none
  | fuel + 1, bdf, st =>
    match pciNext cfg bdf bus with
    | none => none
    | some next =>
      if next < 0 then some (st, true)
      else if alloc st.devices.length then
        probeBus cfg alloc bus fuel next (addDevice cfg bus next.toNat st)
      else some (st, false)

/-- What `pci_probe_devices` leaves; `walked` buses have been probed to their
end. -/
structure Probed where
  state : Probe
  walked : Nat
  lasted : Bool

def probeBuses (cfg : ConfigSpace) (alloc : Nat → Bool) (extraroots : Int) :
    (fuel : Nat) → (bus : Int) → Probe → Option Probed
  | 0, _, _ => none
  | fuel + 1, bus, st =>
    if bus < 0xff ∧ (bus < st.maxPciBus ∨ st.rootbuses < extraroots) then
      let bus := bus + 1
      match probeBus cfg alloc bus.toNat busFuel (bus * 0x100 - 1) st with
      | none => none
      | some (st, true) => probeBuses cfg alloc extraroots fuel bus st
      | some (st, false) => some ⟨st, bus.toNat, false⟩
    else some ⟨st, (bus + 1).toNat, true⟩

def pciProbeDevices (cfg : ConfigSpace) (alloc : Nat → Bool) (maxPciBus extraroots : Int) :
    Option Probed :=
  probeBuses cfg alloc extraroots 257 (-1)
    { devices := [], busdevs := fun _ => none, maxPciBus, lastbus := 0, rootbuses := 0 }

/-- The device of `build_pci_path` at a place of the list. -/
inductive Node (devices : List PciDevice) : (i : Nat) → Boot.PciDevice → Prop
  | root (hdev : devices[i]? = some dev) (hparent : dev.parent = none) :
      Node devices i (.root (.ofNat 8 dev.rootbus) (.ofNat 16 dev.bdf))
  | child (hdev : devices[i]? = some dev) (hparent : dev.parent = some parent)
      (h : Node devices parent pci) : Node devices i (.child pci (.ofNat 16 dev.bdf))

-- ---------------------------------------------------------------------------
-- The functions of a bus
-- ---------------------------------------------------------------------------

section

variable {cfg : ConfigSpace}

def Present (cfg : ConfigSpace) (bdf : Nat) : Prop :=
  pciConfigReadw cfg bdf pciVendorId ≠ 0x0000 ∧ pciConfigReadw cfg bdf pciVendorId ≠ 0xffff

def Multifunction (cfg : ConfigSpace) (bdf : Nat) : Prop :=
  pciConfigReadb cfg bdf pciHeaderType &&& 0x80 ≠ 0

/-- Functions 1..7 count behind a multifunction function 0 only. -/
def Counts (cfg : ConfigSpace) (bdf : Nat) : Prop :=
  bdf % 8 = 0 ∨ Present cfg (bdf - bdf % 8) ∧ Multifunction cfg (bdf - bdf % 8)

def Listed (cfg : ConfigSpace) (bdf : Nat) : Prop := Present cfg bdf ∧ Counts cfg bdf

instance (bdf : Nat) : Decidable (Present cfg bdf) := inferInstanceAs (Decidable (_ ∧ _))
instance (bdf : Nat) : Decidable (Multifunction cfg bdf) := inferInstanceAs (Decidable (_ ≠ _))
instance (bdf : Nat) : Decidable (Counts cfg bdf) := inferInstanceAs (Decidable (_ ∨ _))
instance (bdf : Nat) : Decidable (Listed cfg bdf) := inferInstanceAs (Decidable (_ ∧ _))

/-- The functions to list between two places. -/
def pending (cfg : ConfigSpace) (lo hi : Nat) : List Nat := (List.Ico lo hi).filter (Listed cfg ·)

theorem mem_pending : bdf ∈ pending cfg lo hi ↔ (lo ≤ bdf ∧ bdf < hi) ∧ Listed cfg bdf := by
  rw [pending, List.mem_filter, List.Ico.mem, decide_eq_true_iff]

theorem pending_append (hlo : lo ≤ mid) (hhi : mid ≤ hi) :
    pending cfg lo mid ++ pending cfg mid hi = pending cfg lo hi := by
  rw [pending, pending, ← List.filter_append, List.Ico.append_consecutive hlo hhi, pending]

theorem pending_skip (hlo : lo ≤ mid) (hhi : mid ≤ hi)
    (h : ∀ bdf, lo ≤ bdf → bdf < mid → ¬ Listed cfg bdf) :
      pending cfg lo hi = pending cfg mid hi := by
  have hnil : pending cfg lo mid = [] := List.eq_nil_iff_forall_not_mem.mpr fun bdf hbdf =>
    h bdf (mem_pending.mp hbdf).1.1 (mem_pending.mp hbdf).1.2 (mem_pending.mp hbdf).2
  rw [← pending_append hlo hhi, hnil, List.nil_append]

theorem pending_cons (hlt : lo < hi) (h : Listed cfg lo) :
    pending cfg lo hi = lo :: pending cfg (lo + 1) hi := by
  rw [pending, List.Ico.eq_cons hlt, List.filter_cons, if_pos (decide_eq_true h), pending]

theorem pending_self (cfg : ConfigSpace) (bdf : Nat) : pending cfg bdf bdf = [] := by
  rw [pending, List.Ico.self_empty, List.filter_nil]

theorem pending_pairwise (cfg : ConfigSpace) (lo hi : Nat) : (pending cfg lo hi).Pairwise (· < ·) :=
  (List.Ico.pairwise_lt lo hi).filter _

theorem pending_split (h : pending cfg lo hi = bdf :: left) :
    pending cfg lo bdf = [] ∧ pending cfg (bdf + 1) hi = left := by
  obtain ⟨⟨hlo, hhi⟩, hlisted⟩ := mem_pending.mp (h ▸ List.mem_cons_self)
  have hfirst := (List.pairwise_cons.mp (h ▸ pending_pairwise cfg lo hi)).1
  have hnone : pending cfg lo bdf = [] := by
    refine List.eq_nil_iff_forall_not_mem.mpr fun q hq => ?_
    obtain ⟨⟨hle, hlt⟩, hq⟩ := mem_pending.mp hq
    obtain rfl | hmem := List.mem_cons.mp (h ▸ mem_pending.mpr ⟨⟨hle, hlt.trans hhi⟩, hq⟩)
    · exact Nat.lt_irrefl _ hlt
    · exact Nat.lt_asymm hlt (hfirst q hmem)
  refine ⟨hnone, ?_⟩
  rw [← pending_append hlo (Nat.le_of_lt hhi), hnone, List.nil_append,
    pending_cons hhi hlisted] at h
  exact (List.cons.inj h).2

/-- What `pci_next` returns when these functions are left. -/
def firstOf (left : List Nat) : Int := left.head?.elim (-1) (↑·)

theorem toU16_cast (bdf : Nat) (h : bdf < 0x10000) : toU16 bdf = bdf := by
  unfold toU16
  omega

theorem base_of_within (h : base % 8 = 0) (hlo : base ≤ bdf) (hhi : bdf < base + 8) :
    bdf - bdf % 8 = base := by omega

theorem Counts.succ (h : Counts cfg bdf) (hfn : bdf % 8 ≠ 0) : Counts cfg (bdf + 1) := by
  by_cases hnext : (bdf + 1) % 8 = 0
  · exact .inl hnext
  · have hbase : bdf + 1 - (bdf + 1) % 8 = bdf - bdf % 8 := by omega
    rw [Counts, hbase]
    exact .inr (h.resolve_left hfn)

theorem Counts.of_multifunction (h : Present cfg bdf) (hmulti : Multifunction cfg bdf)
    (hfn : bdf % 8 = 0) : Counts cfg (bdf + 1) := by
  rw [Counts, base_of_within hfn (Nat.le_succ bdf) (by omega)]
  exact .inr ⟨h, hmulti⟩

theorem not_listed_of_absent (habsent : ¬ Present cfg base) (hfn : base % 8 = 0) (hlo : base ≤ bdf)
    (hhi : bdf < base + 8) : ¬ Listed cfg bdf := by
  rintro ⟨hpresent, hcounts⟩
  rw [Counts, base_of_within hfn hlo hhi] at hcounts
  obtain hzero | ⟨h, -⟩ := hcounts
  · exact habsent ((by omega : base = bdf) ▸ hpresent)
  · exact habsent h

theorem not_listed_of_single (hsingle : ¬ Multifunction cfg base) (hfn : base % 8 = 0)
    (hlo : base + 1 ≤ bdf) (hhi : bdf < base + 8) : ¬ Listed cfg bdf := by
  rintro ⟨-, hcounts⟩
  rw [Counts, base_of_within hfn (Nat.le_of_succ_le hlo) hhi] at hcounts
  exact hcounts.elim (fun hzero => by omega) fun h => hsingle h.2

def busEnd (bus : Nat) : Nat := (bus + 1) * 0x100

theorem bus_of_lt (hbus : bus < 0x100) {bdf : Nat} (hlo : bus * 0x100 ≤ bdf)
    (hhi : bdf < busEnd bus) :
    pciBdfToBus bdf = bus := by
  unfold busEnd at hhi
  rw [pciBdfToBus, toU16_cast bdf (by omega)]
  omega

theorem bus_of_end (bus : Nat) : pciBdfToBus (busEnd bus) ≠ bus := by
  unfold pciBdfToBus toU16 busEnd
  omega

theorem fn_of_lt (hbus : bus < 0x100) {bdf : Nat} (hhi : bdf < busEnd bus) :
    pciBdfToFn bdf = bdf % 8 := by
  unfold busEnd at hhi
  rw [pciBdfToFn, toU16_cast bdf (by omega)]

theorem pciNextLoop_eq (hbus : bus < 0x100) (hfuel : busEnd bus < bdf + fuel)
    (hlo : bus * 0x100 ≤ bdf) (hhi : bdf ≤ busEnd bus) (hcounts : Counts cfg bdf) :
    pciNextLoop cfg bus fuel bdf = some (firstOf (pending cfg bdf (busEnd bus))) := by
  induction fuel generalizing bdf with
  | zero => omega
  | succ fuel ih =>
    rw [pciNextLoop]
    obtain rfl | hlt := Nat.eq_or_lt_of_le hhi
    · rw [if_pos (bus_of_end bus), pending_self]
      rfl
    · have hu16 : toU16 bdf = bdf := toU16_cast bdf (by unfold busEnd at hlt; omega)
      have hend : busEnd bus % 8 = 0 := by unfold busEnd; omega
      rw [if_neg (not_not.mpr (bus_of_lt hbus hlo hlt)), hu16, fn_of_lt hbus hlt]
      show (if Present cfg bdf then _ else _) = _
      by_cases hpresent : Present cfg bdf
      · rw [if_pos hpresent, pending_cons hlt ⟨hpresent, hcounts⟩]
        rfl
      · rw [if_neg hpresent]
        by_cases hfn : bdf % 8 = 0
        · have hle : bdf + 8 ≤ busEnd bus := by omega
          rw [if_pos hfn, pending_skip (Nat.le_add_right bdf 8) hle fun q hq hq' =>
            not_listed_of_absent hpresent hfn hq hq']
          show pciNextLoop cfg bus fuel ((bdf + 8 : Nat) : Int) = _
          exact ih (by omega) (by omega) hle (.inl (by omega))
        · rw [if_neg hfn, pending_skip (Nat.le_succ bdf) hlt fun q hq hq' hlisted =>
            hpresent ((by omega : q = bdf) ▸ hlisted.1)]
          show pciNextLoop cfg bus fuel ((bdf + 1 : Nat) : Int) = _
          exact ih (by omega) (by omega) hlt (hcounts.succ hfn)

theorem pciNext_eq (hbus : bus < 0x100) (hlo : bus * 0x100 ≤ bdf) (hhi : bdf < busEnd bus)
    (hlisted : Listed cfg bdf) :
    pciNext cfg (bdf : Nat) bus = some (firstOf (pending cfg (bdf + 1) (busEnd bus))) := by
  have hu16 : toU16 bdf = bdf := toU16_cast bdf (by unfold busEnd at hhi; omega)
  have hend : busEnd bus = bus * 0x100 + 0x100 := Nat.succ_mul bus 0x100
  rw [pciNext, hu16, fn_of_lt hbus hhi]
  by_cases hskip : bdf % 8 = 0 ∧ pciConfigReadb cfg bdf pciHeaderType &&& 0x80 = 0
  · have hle : bdf + 8 ≤ busEnd bus := by omega
    rw [if_pos hskip, pending_skip (Nat.add_le_add_left (by decide) bdf) hle fun q hq hq' =>
      not_listed_of_single (not_not.mpr hskip.2) hskip.1 hq hq']
    show pciNextLoop cfg bus busFuel ((bdf + 8 : Nat) : Int) = _
    exact pciNextLoop_eq hbus (by unfold busFuel; omega) (by omega) (by omega) (.inl (by omega))
  · rw [if_neg hskip]
    show pciNextLoop cfg bus busFuel ((bdf + 1 : Nat) : Int) = _
    refine pciNextLoop_eq hbus (by unfold busFuel; omega) (by omega) hhi ?_
    by_cases hfn : bdf % 8 = 0
    · exact .of_multifunction hlisted.1 (fun hzero => hskip ⟨hfn, hzero⟩) hfn
    · exact hlisted.2.succ hfn

theorem pciNext_start {bus : Nat} (hbus : bus < 0x100) :
    pciNext cfg ((bus : Int) * 0x100 - 1) bus =
      some (firstOf (pending cfg (bus * 0x100) (busEnd bus))) := by
  have hfn : ¬ pciBdfToFn ((bus : Int) * 0x100 - 1) = 0 := by
    unfold pciBdfToFn toU16
    omega
  have hend : busEnd bus = bus * 0x100 + 0x100 := Nat.succ_mul bus 0x100
  have hstart : (bus : Int) * 0x100 - 1 + 1 = (bus * 0x100 : Nat) := by omega
  rw [pciNext, if_neg fun h => hfn h.1, hstart]
  exact pciNextLoop_eq hbus (by unfold busFuel; omega) (Nat.le_refl _) (by omega) (.inl (by omega))

-- ---------------------------------------------------------------------------
-- A bus
-- ---------------------------------------------------------------------------

/-- The devices of a bus one after the other. -/
def addDevices (cfg : ConfigSpace) (alloc : Nat → Bool) (bus : Nat) :
    List Nat → Probe → Probe × Bool
  | [], st => (st, true)
  | bdf :: left, st =>
    if alloc st.devices.length then addDevices cfg alloc bus left (addDevice cfg bus bdf st)
    else (st, false)

theorem probeBus_eq (hbus : bus < 0x100) (hlo : bus * 0x100 ≤ bdf)
    (hnext : pciNext cfg last bus = some (firstOf (pending cfg bdf (busEnd bus))))
    (hfuel : (pending cfg bdf (busEnd bus)).length < fuel) :
    probeBus cfg alloc bus fuel last st = some
      (addDevices cfg alloc bus (pending cfg bdf (busEnd bus)) st) := by
  induction fuel generalizing bdf last st with
  | zero => exact absurd hfuel (Nat.not_lt_zero _)
  | succ fuel ih =>
    rw [probeBus, hnext]
    match hleft : pending cfg bdf (busEnd bus) with
    | [] => rfl
    | next :: left =>
      obtain ⟨⟨hle, hlt⟩, hlisted⟩ : (bdf ≤ next ∧ next < busEnd bus) ∧ Listed cfg next :=
        mem_pending.mp (hleft ▸ List.mem_cons_self)
      have hrest : pending cfg (next + 1) (busEnd bus) = left := (pending_split hleft).2
      have hnonneg : ¬ (next : Int) < 0 := by omega
      show (if (next : Int) < 0 then _ else if alloc st.devices.length then
        probeBus cfg alloc bus fuel next (addDevice cfg bus next st) else _) = _
      rw [if_neg hnonneg, addDevices]
      by_cases halloc : alloc st.devices.length = true
      · rw [if_pos halloc, if_pos halloc, ← hrest]
        refine ih (by omega) (pciNext_eq hbus (by omega) hlt hlisted) ?_
        rw [hleft, ← hrest] at hfuel
        exact Nat.lt_of_succ_lt_succ hfuel
      · rw [if_neg halloc, if_neg halloc]

-- ---------------------------------------------------------------------------
-- The devices
-- ---------------------------------------------------------------------------

def PciDevice.bus (dev : PciDevice) : Nat := dev.bdf / 0x100

/-- A bridge to a bus behind its own. -/
def LeadsTo (devices : List PciDevice) (i bus : Nat) : Prop :=
  ∃ dev, devices[i]? = some dev ∧ IsBridge dev.headerType ∧ dev.secondaryBus = bus ∧ dev.bus < bus

theorem LeadsTo.append (h : LeadsTo devices i bus) (more : List PciDevice) :
    LeadsTo (devices ++ more) i bus := by
  obtain ⟨dev, hdev, h⟩ := h
  obtain ⟨hlt, -⟩ := List.getElem?_eq_some_iff.mp hdev
  exact ⟨dev, (List.getElem?_append_left hlt).trans hdev, h⟩

/-- What `PCIDevices` and `busdevs` keep: the functions below `next` are in
the list, each as configuration space describes it. -/
structure Inv (cfg : ConfigSpace) (next : Nat) (st : Probe) : Prop where
  listed : st.devices.map PciDevice.bdf = pending cfg 0 next
  described : ∀ dev ∈ st.devices, ∃ rootbus, dev = readDevice cfg dev.bdf rootbus dev.parent
  parents : ∀ i dev, st.devices[i]? = some dev → ∀ j, dev.parent = some j →
    j < i ∧ LeadsTo st.devices j dev.bus
  busdevs : ∀ bus j, st.busdevs bus = some j → LeadsTo st.devices j bus

theorem addDevice_cases (cfg : ConfigSpace) (bus bdf : Nat) (st : Probe) :
    ∃ dev rootbus, dev = readDevice cfg bdf rootbus (st.busdevs bus) ∧
      (addDevice cfg bus bdf st).devices = st.devices ++ [dev] ∧
      ((addDevice cfg bus bdf st).busdevs = st.busdevs ∨
        IsBridge dev.headerType ∧ bus < dev.secondaryBus ∧
          (addDevice cfg bus bdf st).busdevs =
            Function.update st.busdevs dev.secondaryBus (some st.devices.length)) := by
  obtain ⟨st', hst', hdevices, hbusdevs⟩ : ∃ st',
      (if st.busdevs bus = none then noteRoot bus st else st) = st' ∧
      st'.devices = st.devices ∧ st'.busdevs = st.busdevs := by
    by_cases hroot : st.busdevs bus = none
    · exact ⟨_, if_pos hroot, rfl, rfl⟩
    · exact ⟨_, if_neg hroot, rfl, rfl⟩
  refine ⟨_, (st.busdevs bus).elim st'.rootbuses (rootbusOf st.devices), rfl, ?_⟩
  simp only [addDevice, hst', hdevices]
  by_cases hbridge : IsBridge (readDevice cfg bdf ((st.busdevs bus).elim st'.rootbuses
      (rootbusOf st.devices)) (st.busdevs bus)).headerType
  · rw [if_pos hbridge]
    refine ⟨rfl, ?_⟩
    simp only [noteBridge, hbusdevs]
    split
    case isTrue h => exact .inr ⟨hbridge, h.1, rfl⟩
    case isFalse h => exact .inl rfl
  · rw [if_neg hbridge]
    exact ⟨rfl, .inl hbusdevs⟩

theorem pending_snoc (h : Listed cfg bdf) :
    pending cfg 0 (bdf + 1) = pending cfg 0 bdf ++ [bdf] := by
  rw [← pending_append (Nat.zero_le bdf) (Nat.le_succ bdf), pending_cons (Nat.lt_succ_self bdf) h,
    pending_self]

theorem inv_addDevice (h : Inv cfg bdf st) (hlisted : Listed cfg bdf) (hbus : bdf / 0x100 = bus) :
    Inv cfg (bdf + 1) (addDevice cfg bus bdf st) := by
  obtain ⟨dev, rootbus, hdev, hdevices, hbusdevs⟩ := addDevice_cases cfg bus bdf st
  have hbdf : dev.bdf = bdf := hdev ▸ rfl
  have hself : (st.devices ++ [dev])[st.devices.length]? = some dev := List.getElem?_concat_length
  constructor
  · rw [hdevices, List.map_append, h.listed, pending_snoc hlisted, List.map_singleton, hbdf]
  · intro d hd
    rw [hdevices] at hd
    obtain hd | hd := List.mem_append.mp hd
    · exact h.described d hd
    · obtain rfl := List.mem_singleton.mp hd
      exact ⟨rootbus, hdev ▸ rfl⟩
  · intro i d hd j hj
    rw [hdevices] at hd ⊢
    obtain ⟨hlt, hget⟩ | ⟨rfl, rfl⟩ : i < st.devices.length ∧ st.devices[i]? = some d ∨
        i = st.devices.length ∧ d = dev := by
      obtain hlt | rfl | hgt := Nat.lt_trichotomy i st.devices.length
      · exact .inl ⟨hlt, (List.getElem?_append_left hlt).symm.trans hd⟩
      · exact .inr ⟨rfl, Option.some.inj (hd.symm.trans hself)⟩
      · rw [List.getElem?_eq_none (by rw [List.length_append, List.length_singleton]; omega)] at hd
        exact absurd hd nofun
    · obtain ⟨hji, hleads⟩ := h.parents i d hget j hj
      exact ⟨hji, hleads.append _⟩
    · have hparent : st.busdevs bus = some j := by
        rw [hdev] at hj
        exact hj
      have hleads := h.busdevs bus j hparent
      refine ⟨?_, ?_⟩
      · obtain ⟨e, he, -⟩ := hleads
        exact (List.getElem?_eq_some_iff.mp he).1
      · rw [PciDevice.bus, hbdf, hbus]
        exact hleads.append _
  · intro secbus j hj
    rw [hdevices]
    obtain hsame | ⟨hbridge, hlt, hupdate⟩ := hbusdevs
    · rw [hsame] at hj
      exact (h.busdevs secbus j hj).append _
    · rw [hupdate, Function.update_apply] at hj
      by_cases hsec : secbus = dev.secondaryBus
      · rw [if_pos hsec] at hj
        obtain rfl := Option.some.inj hj
        refine ⟨dev, hself, hbridge, hsec.symm, ?_⟩
        rw [PciDevice.bus, hbdf, hbus, hsec]
        exact hlt
      · rw [if_neg hsec] at hj
        exact (h.busdevs secbus j hj).append _

theorem Inv.skip (h : Inv cfg lo st) (hle : lo ≤ hi) (hnone : pending cfg lo hi = []) :
    Inv cfg hi st := by
  refine ⟨?_, h.described, h.parents, h.busdevs⟩
  rw [h.listed, ← pending_append (Nat.zero_le lo) hle, hnone, List.append_nil]

/-- Every device of the list got memory. -/
def Given (alloc : Nat → Bool) (st : Probe) : Prop := ∀ i < st.devices.length, alloc i = true

theorem Given.addDevice (h : Given alloc st) (halloc : alloc st.devices.length = true) :
    Given alloc (addDevice cfg bus bdf st) := by
  obtain ⟨dev, -, -, hdevices, -⟩ := addDevice_cases cfg bus bdf st
  intro i hi
  rw [hdevices, List.length_append, List.length_singleton] at hi
  rcases Nat.lt_succ_iff_lt_or_eq.mp hi with hlt | rfl
  · exact h i hlt
  · exact halloc

/-- There is no memory for the function at `next`. -/
def Refused (cfg : ConfigSpace) (alloc : Nat → Bool) (bus next : Nat) (st : Probe) : Prop :=
  alloc st.devices.length = false ∧ Listed cfg next ∧ next < busEnd bus

/-- How far the loop over a bus comes. -/
structure Walked (cfg : ConfigSpace) (alloc : Nat → Bool) (bus next : Nat) (st : Probe)
    (lasted : Bool) : Prop where
  le : next ≤ busEnd bus
  inv : Inv cfg next st
  given : Given alloc st
  done : lasted = true → next = busEnd bus
  refused : lasted = false → Refused cfg alloc bus next st

theorem addDevices_inv (hlo : bus * 0x100 ≤ lo) (hhi : lo ≤ busEnd bus)
    (h : Inv cfg lo st) (hgiven : Given alloc st) :
    ∃ next st' lasted, addDevices cfg alloc bus (pending cfg lo (busEnd bus)) st = (st', lasted) ∧
      lo ≤ next ∧ Walked cfg alloc bus next st' lasted := by
  generalize hleft : pending cfg lo (busEnd bus) = left
  induction left generalizing lo st with
  | nil =>
    exact ⟨busEnd bus, st, true, rfl, hhi, Nat.le_refl _, h.skip hhi hleft, hgiven, fun _ => rfl,
      nofun⟩
  | cons bdf left ih =>
    obtain ⟨⟨hle, hlt⟩, hlisted⟩ := mem_pending.mp (hleft ▸ List.mem_cons_self)
    obtain ⟨hnone, hrest⟩ := pending_split hleft
    have hbdf := h.skip hle hnone
    rw [addDevices]
    cases halloc : alloc st.devices.length with
    | true =>
      rw [if_pos rfl]
      have hbus : bdf / 0x100 = bus := by unfold busEnd at hlt; omega
      have hstart : bus * 0x100 ≤ bdf + 1 := by omega
      obtain ⟨next, st', lasted, heq, hnext, hwalked⟩ :=
        ih hstart hlt (inv_addDevice hbdf hlisted hbus) (hgiven.addDevice halloc) hrest
      exact ⟨next, st', lasted, heq, by omega, hwalked⟩
    | false =>
      rw [if_neg (Bool.false_ne_true)]
      exact ⟨bdf, st, false, rfl, hle, Nat.le_of_lt hlt, hbdf, hgiven, nofun,
        fun _ => ⟨halloc, hlisted, hlt⟩⟩

theorem probeBus_inv (hbus : bus < 0x100) (h : Inv cfg (bus * 0x100) st) (hgiven : Given alloc st) :
    ∃ next st' lasted,
      probeBus cfg alloc bus busFuel ((bus : Int) * 0x100 - 1) st = some (st', lasted) ∧
      bus * 0x100 ≤ next ∧ Walked cfg alloc bus next st' lasted := by
  have hend : busEnd bus = bus * 0x100 + 0x100 := Nat.succ_mul bus 0x100
  have hlength : (pending cfg (bus * 0x100) (busEnd bus)).length < busFuel := by
    have hle := List.length_filter_le (Listed cfg ·) (List.Ico (bus * 0x100) (busEnd bus))
    rw [List.Ico.length] at hle
    unfold pending busFuel
    omega
  obtain ⟨next, st', lasted, heq, h⟩ := addDevices_inv (Nat.le_refl _) (by omega) h hgiven
  exact ⟨next, st', lasted, (probeBus_eq hbus (Nat.le_refl _) (pciNext_start hbus) hlength).trans
    (congrArg some heq), h⟩

/-- Why the walk ends: every bus is done, no bridge leads on, or no memory is
left. -/
def Ended (extraroots : Int) (r : Probed) : Prop :=
  r.lasted = true → r.walked = 0x100 ∨ r.state.maxPciBus < r.walked ∧ extraroots ≤ r.state.rootbuses

/-- How far the loop over the buses comes. -/
structure Probed.Reached (cfg : ConfigSpace) (alloc : Nat → Bool) (r : Probed) (next : Nat) :
    Prop where
  within : r.walked ≤ 0x100
  le : r.walked * 0x100 ≤ next
  inv : Inv cfg next r.state
  given : Given alloc r.state
  lasted : r.lasted = true → next = r.walked * 0x100
  refused : r.lasted = false → Refused cfg alloc r.walked next r.state

theorem probeBuses_inv (extraroots : Int) (fuel : Nat)
    (hfuel : 0x100 < walked + fuel) (hwalked : walked ≤ 0x100) (h : Inv cfg (walked * 0x100) st)
    (hgiven : Given alloc st) :
    ∃ r next, probeBuses cfg alloc extraroots fuel ((walked : Int) - 1) st = some r ∧
      r.Reached cfg alloc next ∧ Ended extraroots r := by
  induction fuel generalizing walked st with
  | zero => omega
  | succ fuel ih =>
    have hnext : (walked : Int) - 1 + 1 = walked := Int.sub_add_cancel _ _
    rw [probeBuses]
    by_cases hmore : ((walked : Int) - 1 < 0xff) ∧
        ((walked : Int) - 1 < st.maxPciBus ∨ st.rootbuses < extraroots)
    · have hbus : walked < 0x100 := by omega
      rw [if_pos hmore]
      simp only [hnext, Int.toNat_natCast]
      obtain ⟨next, st', lasted, heq, hlo, hstop⟩ := probeBus_inv hbus h hgiven
      rw [heq]
      cases lasted with
      | true =>
        have hinv := hstop.inv
        rw [hstop.done rfl] at hinv
        have hcast : (walked : Int) = (walked + 1 : Nat) - 1 := by omega
        have hfuel' : 0x100 < walked + 1 + fuel := by omega
        obtain ⟨r, next, hr, h⟩ := ih hfuel' hbus hinv hstop.given
        exact ⟨r, next, hcast ▸ hr, h⟩
      | false =>
        exact ⟨_, next, rfl, ⟨hwalked, hlo, hstop.inv, hstop.given, nofun, hstop.refused⟩, nofun⟩
    · rw [if_neg hmore]
      simp only [hnext, Int.toNat_natCast]
      refine ⟨_, walked * 0x100, rfl, ⟨hwalked, Nat.le_refl _, h, hgiven, fun _ => rfl, nofun⟩,
        fun _ => ?_⟩
      dsimp only
      omega

-- ---------------------------------------------------------------------------
-- The enumeration
-- ---------------------------------------------------------------------------

/-- What `pci_probe_devices` leaves: the functions in the order of their
places, all those of the walked buses, each behind its parent. -/
structure ProbeRight (cfg : ConfigSpace) (alloc : Nat → Bool) (extraroots : Int) (r : Probed) :
    Prop where
  sorted : (r.state.devices.map PciDevice.bdf).Pairwise (· < ·)
  sound : ∀ dev ∈ r.state.devices, Listed cfg dev.bdf ∧
    ∃ rootbus, dev = readDevice cfg dev.bdf rootbus dev.parent
  complete : ∀ bdf, bdf / 0x100 < r.walked → Listed cfg bdf →
    bdf ∈ r.state.devices.map PciDevice.bdf
  walked : r.lasted = true → ∀ dev ∈ r.state.devices, dev.bus < r.walked
  given : Given alloc r.state
  refused : r.lasted = false → alloc r.state.devices.length = false ∧
    ∃ next, next / 0x100 = r.walked ∧ Listed cfg next ∧
      ∀ bdf, bdf ∈ r.state.devices.map PciDevice.bdf ↔ bdf < next ∧ Listed cfg bdf
  ended : Ended extraroots r
  parents : ∀ i dev, r.state.devices[i]? = some dev → ∀ j, dev.parent = some j →
    j < i ∧ LeadsTo r.state.devices j dev.bus
  chains : ∀ i < r.state.devices.length, ∃ pci, Node r.state.devices i pci

/-- A chain of parents ends, since each parent stands further in front. -/
theorem Inv.node (h : Inv cfg next st) : ∀ i < st.devices.length, ∃ pci, Node st.devices i pci := by
  intro i hi
  induction i using Nat.strong_induction_on with
  | _ i ih =>
    have hdev : st.devices[i]? = some st.devices[i] := List.getElem?_eq_getElem hi
    match hparent : st.devices[i].parent with
    | none => exact ⟨_, .root hdev hparent⟩
    | some j =>
      obtain ⟨hji, -⟩ := h.parents i _ hdev j hparent
      obtain ⟨pci, hpci⟩ := ih j hji (hji.trans hi)
      exact ⟨_, .child hdev hparent hpci⟩

theorem inv_start (cfg : ConfigSpace) (maxPciBus : Int) :
    Inv cfg (0 * 0x100) ⟨[], fun _ => none, maxPciBus, 0, 0⟩ :=
  ⟨(pending_self cfg 0).symm, nofun, nofun, nofun⟩

/-- As long as there is memory the walk goes on; and it lists all functions up
to one that got none. -/
theorem pciProbeDevices_right (cfg : ConfigSpace) (alloc : Nat → Bool) (maxPciBus extraroots : Int)
    :
    ∃ r, pciProbeDevices cfg alloc maxPciBus extraroots = some r ∧
      ((∀ n, alloc n = true) → r.lasted = true) ∧ ProbeRight cfg alloc extraroots r := by
  obtain ⟨r, next, heq, ⟨-, hlo, hinv, hgiven, hlasted, hrefused⟩, hended⟩ :=
    probeBuses_inv extraroots 257 (by decide) (Nat.zero_le _) (inv_start cfg maxPciBus)
      (fun i hi => absurd hi (Nat.not_lt_zero i))
  have hlisted (bdf : Nat) :
      bdf ∈ r.state.devices.map PciDevice.bdf ↔ bdf < next ∧ Listed cfg bdf := by
    rw [hinv.listed, mem_pending]
    exact and_congr_left fun _ => and_iff_right (Nat.zero_le bdf)
  have hmem (dev : PciDevice) (hdev : dev ∈ r.state.devices) :
      dev.bdf < next ∧ Listed cfg dev.bdf := (hlisted _).mp (List.mem_map_of_mem hdev)
  refine ⟨r, heq, fun hall => ?_, ?_⟩
  · cases hl : r.lasted with
    | true => rfl
    | false => exact (hrefused hl).1.symm.trans (hall _)
  constructor
  · rw [hinv.listed]
    exact pending_pairwise cfg 0 next
  · exact fun dev hdev => ⟨(hmem dev hdev).2, hinv.described dev hdev⟩
  · intro bdf hbus hbdf
    exact (hlisted bdf).mpr ⟨by omega, hbdf⟩
  · intro hl dev hdev
    have hlt := (hmem dev hdev).1
    rw [hlasted hl] at hlt
    exact Nat.div_lt_of_lt_mul (Nat.mul_comm _ _ ▸ hlt)
  · exact hgiven
  · intro hl
    obtain ⟨halloc, hnext, hlt⟩ := hrefused hl
    refine ⟨halloc, next, ?_, hnext, hlisted⟩
    unfold busEnd at hlt
    omega
  · exact hended
  · exact hinv.parents
  · exact hinv.node

/-- A bridge at 00:01.0, and two functions of one device behind it. -/
def bridged : ConfigSpace := fun bdf addr =>
  if bdf = 0x008 then
    if addr = pciHeaderType then 1 else if addr = pciSecondaryBus then 1 else 0x86
  else if bdf = 0x100 then
    if addr = pciHeaderType then 0x80 else 0x10
  else if bdf = 0x103 then
    if addr = pciHeaderType then 0 else 0x10
  else 0xff

/-- What is listed behind the bridge has it for a parent. -/
theorem pciProbeDevices_right_bridged :
    ∃ r, pciProbeDevices bridged (fun _ => true) 0 0 = some r ∧ r.lasted = true ∧ r.walked = 2 ∧
      r.state.devices.map (fun dev => (dev.bdf, dev.parent)) =
        [(0x008, none), (0x100, some 0), (0x103, some 0)] ∧
      ProbeRight bridged (fun _ => true) 0 r := by
  obtain ⟨r, hr, hlasted, hright⟩ := pciProbeDevices_right bridged (fun _ => true) 0 0
  have hrun : (pciProbeDevices bridged (fun _ => true) 0 0).map (fun r =>
      (r.walked, r.state.devices.map fun dev => (dev.bdf, dev.parent))) =
        some (2, [(0x008, none), (0x100, some 0), (0x103, some 0)]) := by
    decide
  rw [hr, Option.map_some, Option.some.injEq, Prod.mk.injEq] at hrun
  exact ⟨r, hr, hlasted fun _ => rfl, hrun.1, hrun.2, hright⟩

end

end ItxLlama.Seabios.PciProbe
