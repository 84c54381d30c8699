import ItxLlama.Coreboot.PciBars

/-!
# Bridge windows

A window is a base and a limit register with the same address bits, of which a
16 bit or a 32 bit window has the upper ones hard-wired to zero. Programming a
resource makes the bridge forward its addresses, rounded up to the granularity,
and an empty one makes it forward nothing.
-/

namespace ItxLlama.Coreboot

open Lib.Word
open Lib.Registers

inductive Window where
  | io
  | mem
  | pref

def Window.index : Window → BitVec 32
  | .io => pciIoBase
  | .mem => pciMemoryBase
  | .pref => pciPrefMemoryBase

/-- The bits of the registers, the upper ones included. -/
def Window.bits : Window → Nat
  | .io => 24
  | .mem => 16
  | .pref => 48

/-- The address bit that is the lowest bit of the registers. -/
def Window.shift : Window → Nat
  | .io => 8
  | .mem => 16
  | .pref => 16

def Window.type : Window → BitVec 32
  | .io => ioresourceIo
  | .mem => ioresourceMem
  | .pref => ioresourceMem ||| ioresourcePrefetch

def Window.baseReg : (w : Window) → Register ConfigSpace w.bits
  | .io => (config16 pciIoBaseUpper16).append (config8 pciIoBase.toNat)
    (apart_config8_config16 (by decide)).symm
  | .mem => config16 pciMemoryBase.toNat
  | .pref => (config32 pciPrefBaseUpper32).append (config16 pciPrefMemoryBase.toNat)
    (apart_config16_config32 (by decide)).symm

def Window.limitReg : (w : Window) → Register ConfigSpace w.bits
  | .io => (config16 pciIoLimitUpper16).append (config8 pciIoLimit)
    (apart_config8_config16 (by decide)).symm
  | .mem => config16 pciMemoryLimit
  | .pref => (config32 pciPrefLimitUpper32).append (config16 pciPrefMemoryLimit)
    (apart_config16_config32 (by decide)).symm

theorem Window.apart (w : Window) : Apart w.limitReg w.baseReg := by
  cases w with
  | io =>
    refine Apart.append_append ?_ ?_ ?_ ?_ (apart_config8_config16 (by decide)).symm
      (apart_config8_config16 (by decide)).symm
    · exact apart_config16 (by decide)
    · exact (apart_config8_config16 (by decide)).symm
    · exact apart_config8_config16 (by decide)
    · exact apart_config8 (by decide)
  | mem => exact apart_config16 (by decide)
  | pref =>
    refine Apart.append_append ?_ ?_ ?_ ?_ (apart_config16_config32 (by decide)).symm
      (apart_config16_config32 (by decide)).symm
    · exact apart_config32 (by decide)
    · exact (apart_config16_config32 (by decide)).symm
    · exact apart_config16_config32 (by decide)
    · exact apart_config16 (by decide)

/-- The address bits below `top` can be written, but for the lowest, and no other one is set. -/
structure Window.Regular (w : Window) (c : ConfigSpace) (top : Nat) : Prop where
  some : 4 < top
  le : top ≤ w.bits
  base : IsField (w.baseReg.mask c) 4 top
  limit : IsField (w.limitReg.mask c) 4 top
  baseFixed : w.baseReg.read c &&& ~~~w.baseReg.mask c &&& ~~~BitVec.ofNat w.bits (2 ^ 4 - 1) = 0#w.bits
  limitFixed : w.limitReg.read c &&& ~~~w.limitReg.mask c &&&
    ~~~BitVec.ofNat w.bits (2 ^ 4 - 1) = 0#w.bits

def Window.gran (w : Window) : Nat := 4 + w.shift

def Window.first (w : Window) (c : ConfigSpace) : Nat :=
  (w.baseReg.read c &&& ~~~BitVec.ofNat w.bits (2 ^ 4 - 1)).toNat * 2 ^ w.shift

/-- The last one: the bits that the limit register does not have are ones. -/
def Window.last (w : Window) (c : ConfigSpace) : Nat :=
  (w.limitReg.read c &&& ~~~BitVec.ofNat w.bits (2 ^ 4 - 1)).toNat * 2 ^ w.shift + (2 ^ w.gran - 1)

def Window.Forwards (w : Window) (c : ConfigSpace) (a : Nat) : Prop := w.first c ≤ a ∧ a ≤ w.last c

/-- What is reported, where `prior` is what the device had for the index. -/
def Window.resource (w : Window) (top : Nat) (prior : Resource) : Resource :=
  { newResource prior w.index with
    size := 0
    gran := w.gran
    align := w.gran
    limit := 2 ^ (top + w.shift) - 1
    flags := w.type ||| ioresourcePciBridge ||| ioresourceBridge }

-- ---------------------------------------------------------------------------
-- Sizing
-- ---------------------------------------------------------------------------

/-- The address bits that move in both registers. -/
def Window.moving (w : Window) (c : ConfigSpace) : BitVec 64 :=
  (w.baseReg.mask c).zeroExtend 64 <<< w.shift &&& (w.limitReg.mask c).zeroExtend 64 <<< w.shift

theorem pciBridgeReadBases_eq (c : ConfigSpace) (io pref mem : Resource) :
    pciBridgeReadBases c io pref mem = (do
      let io ← pciRecordBridgeResource io (Window.io.moving c) pciIoBase ioresourceIo
      let pref ← pciRecordBridgeResource pref (Window.pref.moving c) pciPrefMemoryBase
        (ioresourceMem ||| ioresourcePrefetch)
      let mem ← pciRecordBridgeResource mem (Window.mem.moving c) pciMemoryBase ioresourceMem
      pure (⟨io, pref, mem⟩, c)) := by
  unfold pciBridgeReadBases
  simp only [pciMovingConfig8_eq, pciMovingConfig16_eq, pciMovingConfig32_eq]
  have hio (hi : BitVec 16) (lo : BitVec 8) : lo.zeroExtend 64 <<< 8 ||| hi.zeroExtend 64 <<< 16 =
      (hi ++ lo).zeroExtend 64 <<< 8 := zeroExtend_append hi lo 8
  have hpref (hi : BitVec 32) (lo : BitVec 16) :
      lo.zeroExtend 64 <<< 16 ||| hi.zeroExtend 64 <<< 32 = (hi ++ lo).zeroExtend 64 <<< 16 :=
    zeroExtend_append hi lo 16
  simp only [hio, hpref]
  rfl

theorem pciRecordBridgeResource_isSome (prior : Resource) (moving : BitVec 64)
    (index type : BitVec 32) : ∃ r, pciRecordBridgeResource prior moving index type = some r := by
  unfold pciRecordBridgeResource
  split
  case isTrue => exact ⟨_, rfl⟩
  case isFalse hne =>
    obtain ⟨⟨step, gran⟩, hr⟩ := lowestBit_isSome hne
    rw [hr]
    exact ⟨_, rfl⟩

theorem pciRecordBridgeResource_regular {w : Window} (h : w.Regular c top) (prior : Resource) :
    pciRecordBridgeResource prior (w.moving c) w.index w.type = some (some (w.resource top prior)) := by
  have hwide : w.bits + w.shift ≤ 64 := by
    cases w <;> decide
  have htop : top + w.shift ≤ 64 := Nat.le_trans (Nat.add_le_add_right h.le _) hwide
  have hfield : IsField (w.moving c) (4 + w.shift) (top + w.shift) :=
    (h.base.shift w.shift htop).and (h.limit.shift w.shift htop)
  have hlt : 4 + w.shift < top + w.shift := Nat.add_lt_add_right h.some _
  unfold pciRecordBridgeResource
  rw [if_neg (hfield.ne_zero hlt), lowestBit_field hfield hlt htop]
  simp only [Option.bind_eq_bind, Option.bind_some, Option.pure_def, limit_toNat hfield hlt htop]
  rfl

def BridgeBases.get (bases : BridgeBases) : Window → Option Resource
  | .io => bases.io
  | .mem => bases.mem
  | .pref => bases.pref

/-- The probe reports each regular window and leaves the configuration space as it was. -/
theorem pciBridgeReadBases_regular (c : ConfigSpace) (prior : Window → Resource) :
    ∃ bases, pciBridgeReadBases c (prior .io) (prior .pref) (prior .mem) = some (bases, c) ∧
      ∀ w top, Window.Regular w c top → bases.get w = some (w.resource top (prior w)) := by
  obtain ⟨io, hio⟩ := pciRecordBridgeResource_isSome (prior .io) (Window.io.moving c) pciIoBase
    ioresourceIo
  obtain ⟨pref, hpref⟩ := pciRecordBridgeResource_isSome (prior .pref) (Window.pref.moving c)
    pciPrefMemoryBase (ioresourceMem ||| ioresourcePrefetch)
  obtain ⟨mem, hmem⟩ := pciRecordBridgeResource_isSome (prior .mem) (Window.mem.moving c)
    pciMemoryBase ioresourceMem
  refine ⟨⟨io, pref, mem⟩, ?_, fun w top hw => ?_⟩
  · rw [pciBridgeReadBases_eq, hio, hpref, hmem]
    rfl
  · have hrecord := pciRecordBridgeResource_regular hw (prior w)
    cases w with
    | io => exact Option.some.inj (hio.symm.trans hrecord)
    | mem => exact Option.some.inj (hmem.symm.trans hrecord)
    | pref => exact Option.some.inj (hpref.symm.trans hrecord)

-- ---------------------------------------------------------------------------
-- Programming
-- ---------------------------------------------------------------------------

theorem setWindow_eq (w : Window) (c : ConfigSpace) (base fin : Nat) :
    setWindow c w.index base fin = some (w.limitReg.write
      (w.baseReg.write c (BitVec.ofNat w.bits (base >>> w.shift)))
      (BitVec.ofNat w.bits (fin >>> w.shift))) := by
  have hlow (n : Nat) : (BitVec.ofNat 24 (n >>> 8)).extractLsb' 0 8 = BitVec.ofNat 8 (n >>> 8) :=
    extract_ofNat _ (by decide)
  have hhigh (n : Nat) :
    (BitVec.ofNat 24 (n >>> 8)).extractLsb' 8 16 = BitVec.ofNat 16 (n >>> 16) :=
    (extract_ofNat _ (by decide)).trans (by rw [← Nat.shiftRight_add])
  have hlow' (n : Nat) :
      (BitVec.ofNat 48 (n >>> 16)).extractLsb' 0 16 = BitVec.ofNat 16 (n >>> 16) :=
    extract_ofNat _ (by decide)
  have hhigh' (n : Nat) :
      (BitVec.ofNat 48 (n >>> 16)).extractLsb' 16 32 = BitVec.ofNat 32 (n >>> 32) :=
    (extract_ofNat _ (by decide)).trans (by rw [← Nat.shiftRight_add])
  cases w with
  | io =>
    simp only [Window.limitReg, Window.baseReg, Window.bits, Window.shift, append_write, hlow,
      hhigh]
    rfl
  | mem => rfl
  | pref =>
    simp only [Window.limitReg, Window.baseReg, Window.bits, Window.shift, append_write, hlow',
      hhigh']
    rfl

theorem fieldAddress {mask old : BitVec n} (h : IsField mask 4 top)
    (hfixed : old &&& ~~~mask &&& ~~~BitVec.ofNat n (2 ^ 4 - 1) = 0#n) (htop : top ≤ n)
    (hx : x < 2 ^ (top + s)) :
    (masked mask old (BitVec.ofNat n (x >>> s)) &&& ~~~BitVec.ofNat n (2 ^ 4 - 1)).toNat * 2 ^ s =
      x / 2 ^ (4 + s) * 2 ^ (4 + s) := by
  have hshift : x >>> s < 2 ^ top := by
    rw [Nat.shiftRight_eq_div_pow]
    refine Nat.div_lt_of_lt_mul ?_
    rw [← Nat.pow_add, Nat.add_comm s top]
    exact hx
  have hn : 2 ^ top ≤ 2 ^ n := Nat.pow_le_pow_right (by decide) htop
  rw [h.masked_high (Nat.le_refl 4) hfixed, h.and_toNat, BitVec.toNat_ofNat,
    Nat.mod_eq_of_lt (Nat.lt_of_lt_of_le hshift hn), Nat.mod_eq_of_lt hshift,
    Nat.shiftRight_eq_div_pow, Nat.div_div_eq_div_mul, ← Nat.pow_add, Nat.mul_assoc, ← Nat.pow_add,
    Nat.add_comm s 4]

theorem forwards_setWindow {w : Window} (h : w.Regular c top) (hbase : base < 2 ^ (top + w.shift))
    (hfin : fin < 2 ^ (top + w.shift)) (hset : setWindow c w.index base fin = some c') (a : Nat) :
    w.Forwards c' a ↔ base / 2 ^ w.gran * 2 ^ w.gran ≤ a ∧
      a ≤ fin / 2 ^ w.gran * 2 ^ w.gran + (2 ^ w.gran - 1) := by
  rw [setWindow_eq, Option.some.injEq] at hset
  subst hset
  have hfirst := fieldAddress h.base h.baseFixed h.le hbase
  have hlast := fieldAddress h.limit h.limitFixed h.le hfin
  rw [Window.Forwards, Window.first, Window.last, w.apart.read_right, w.baseReg.read_write,
    w.limitReg.read_write, w.apart.read_left, w.apart.mask_left, hfirst, hlast]
  rfl

theorem alignUp64_eq (val : Nat) (h : gran ≤ 64) :
    alignUp64 val gran = alignUp val (2 ^ gran) % 2 ^ 64 := by
  obtain ⟨q, hq⟩ : 2 ^ gran ∣ 2 ^ 64 := Nat.pow_dvd_pow 2 h
  have hmod : u64 (val + (2 ^ gran - 1)) % 2 ^ gran = (val + (2 ^ gran - 1)) % 2 ^ gran :=
    Nat.mod_mod_of_dvd _ ⟨q, hq⟩
  have hle := Nat.mod_le (u64 (val + (2 ^ gran - 1))) (2 ^ gran)
  unfold alignUp64 alignUp alignDown
  rw [hmod] at hle ⊢
  unfold u64 at hle ⊢
  omega

theorem resourceEnd_eq {r : Resource} (hgran : r.gran ≤ 64) (hsize : 0 < r.size)
    (hle : r.base + alignUp r.size (2 ^ r.gran) ≤ 2 ^ 64) :
    resourceEnd r = r.base + alignUp r.size (2 ^ r.gran) - 1 := by
  have hup := le_alignUp r.size (Nat.two_pow_pos r.gran)
  rw [resourceEnd, alignUp64_eq r.size hgran]
  unfold u64
  omega

/-- The resource of a window that the allocator has placed: the size is that of what is behind the
bridge, and the alignment the largest there. -/
def Resource.placed (resource : Resource) (base size align : Nat) : Resource :=
  { resource with
    base := base
    size := size
    align := align
    flags := resource.flags ||| ioresourceAssigned }

section

variable {resource : Resource} {w : Window}
  (h : resource.flags = w.type ||| ioresourcePciBridge ||| ioresourceBridge ||| ioresourceAssigned)

include h

theorem stores_window : resource.Stores := by
  constructor <;> rw [Resource.has, h] <;> cases w <;> decide

theorem markStored_window : resource.markStored.has ioresourcePciBridge = true := by
  simp only [Resource.has, Resource.markStored, h]
  cases w <;> decide

end

theorem Window.gran_le (w : Window) : w.gran ≤ 64 := by
  cases w <;> decide

theorem Window.Regular.word {w : Window} (h : w.Regular c top) : 2 ^ (top + w.shift) ≤ 2 ^ 64 := by
  refine Nat.pow_le_pow_right (by decide) (Nat.le_trans (Nat.add_le_add_right h.le _) ?_)
  cases w <;> decide

theorem intShift_gran (w : Window) : intShift w.gran = 2 ^ w.gran := by
  cases w <;> decide

theorem pciSetResource_forwards {w : Window} {resource : Resource} (h : w.Regular dev.config top)
    (hflags : resource.flags =
      w.type ||| ioresourcePciBridge ||| ioresourceBridge ||| ioresourceAssigned)
    (hrange : storedRange resource.markStored = (base, fin, r)) (hr : r.has ioresourcePciBridge = true)
    (hri : r.index = w.index)
    (hbase : base < 2 ^ (top + w.shift)) (hfin : fin < 2 ^ (top + w.shift)) (a : Nat) :
    w.Forwards (pciSetResource dev resource).1.config a ↔
      base / 2 ^ w.gran * 2 ^ w.gran ≤ a ∧
        a ≤ fin / 2 ^ w.gran * 2 ^ w.gran + (2 ^ w.gran - 1) := by
  have hset := setWindow_eq w dev.config base fin
  have hstore : storeRange dev.config r base fin = setWindow dev.config w.index base fin := by
    rw [storeRange, hr, hri]
    rfl
  rw [pciSetResource_config (stores_window hflags) hrange (hstore.trans hset)]
  exact forwards_setWindow h hbase hfin hset a

theorem pred_div_mul (hg : 0 < g) (hq : 0 < q) : (g * q - 1) / g * g + (g - 1) = g * q - 1 := by
  obtain ⟨q, rfl⟩ := Nat.exists_eq_succ_of_ne_zero (Nat.ne_of_gt hq)
  have hdiv : (g * q + (g - 1)) / g = q := by
    rw [Nat.mul_add_div hg, Nat.div_eq_of_lt (Nat.sub_lt hg Nat.one_pos), Nat.add_zero]
  have hpred : g * (q + 1) - 1 = g * q + (g - 1) := by
    rw [Nat.mul_succ]
    omega
  rw [Nat.succ_eq_add_one, hpred, hdiv, Nat.mul_comm]

theorem pciSetResource_empty {w : Window} (h : w.Regular dev.config top) (prior : Resource)
    (base align a : Nat) :
    ¬ w.Forwards (pciSetResource dev ((w.resource top prior).placed base 0 align)).1.config a := by
  have hgran : 0 < 2 ^ w.gran := Nat.two_pow_pos w.gran
  have hword := h.word
  obtain ⟨q, hq, htop⟩ : ∃ q, 2 ≤ q ∧ 2 ^ (top + w.shift) = 2 ^ w.gran * q := by
    refine ⟨2 ^ (top - 4), Nat.le_self_pow (Nat.sub_ne_zero_of_lt h.some) 2, ?_⟩
    have hsum : w.gran + (top - 4) = top + w.shift := by
      have hlt := h.some
      unfold Window.gran
      omega
    rw [← Nat.pow_add, hsum]
  have hroom : 2 ^ w.gran * 2 ≤ 2 ^ w.gran * q := Nat.mul_le_mul_left _ hq
  have hmul : 2 ^ w.gran * (q - 1) = 2 ^ w.gran * q - 2 ^ w.gran := Nat.mul_sub_one _ _
  have hfin : u64 (2 ^ (top + w.shift) - 1 + (2 ^ 64 - 2 ^ w.gran)) = 2 ^ w.gran * (q - 1) - 1 := by
    unfold u64
    omega
  have hrange : storedRange ((w.resource top prior).placed base 0 align).markStored =
      (2 ^ (top + w.shift) - 1, u64 (2 ^ (top + w.shift) - 1 + (2 ^ 64 - 2 ^ w.gran)),
        { ((w.resource top prior).placed base 0 align).markStored with
          base := 2 ^ (top + w.shift) - 1 }) := by
    have hbridge :
        ((w.resource top prior).placed base 0 align).markStored.has ioresourcePciBridge = true :=
      markStored_window rfl
    rw [storedRange, if_pos ⟨rfl, hbridge⟩, ← intShift_gran]
    rfl
  rw [pciSetResource_forwards h rfl hrange (markStored_window rfl) rfl (by omega) (by omega), hfin, htop]
  have hfirst := pred_div_mul hgran (Nat.lt_of_lt_of_le Nat.two_pos hq)
  have hlast := @pred_div_mul (2 ^ w.gran) (q - 1) hgran (by omega)
  omega

theorem pciSetResource_placed {w : Window} (h : w.Regular dev.config top) (prior : Resource)
    (hsize : 0 < size) (hbase : 2 ^ w.gran ∣ base)
    (hle : base + alignUp size (2 ^ w.gran) ≤ (w.resource top prior).limit + 1) (a : Nat) :
    w.Forwards (pciSetResource dev ((w.resource top prior).placed base size align)).1.config a ↔
      base ≤ a ∧ a < base + alignUp size (2 ^ w.gran) := by
  have hgran : 0 < 2 ^ w.gran := Nat.two_pow_pos w.gran
  have hword := h.word
  have hup := le_alignUp size hgran
  have hlimit : (w.resource top prior).limit + 1 = 2 ^ (top + w.shift) :=
    Nat.sub_add_cancel (Nat.two_pow_pos _)
  have hend : resourceEnd ((w.resource top prior).placed base size align).markStored =
      base + alignUp size (2 ^ w.gran) - 1 := by
    exact resourceEnd_eq w.gran_le hsize (Nat.le_trans hle (hlimit ▸ hword))
  have hrange : storedRange ((w.resource top prior).placed base size align).markStored =
      (base, base + alignUp size (2 ^ w.gran) - 1,
        ((w.resource top prior).placed base size align).markStored) := by
    have hpos : ¬ ((w.resource top prior).placed base size align).markStored.size = 0 :=
      Nat.ne_of_gt hsize
    rw [storedRange, if_neg fun hzero => hpos hzero.1, hend]
    rfl
  obtain ⟨q, hq⟩ : 2 ^ w.gran ∣ base + alignUp size (2 ^ w.gran) :=
    Nat.dvd_add hbase (dvd_alignUp size (2 ^ w.gran))
  have hlast := @pred_div_mul (2 ^ w.gran) q hgran (by
    refine Nat.pos_of_ne_zero ?_
    rintro rfl
    omega)
  rw [pciSetResource_forwards h rfl hrange (markStored_window rfl) rfl (by omega) (by omega),
    Nat.div_mul_cancel hbase, hq, hlast]
  omega

-- ---------------------------------------------------------------------------
-- Functions and bridges
-- ---------------------------------------------------------------------------

/-- A regular base address register is reported as it is, without a change of the configuration
space, and decodes the aligned range that is stored; a regular window is reported as well, forwards
the range that is stored, rounded up to its granularity, and an empty one forwards nothing. -/
theorem pci_resources_right (dev : PciDev) :
    (∀ (bar : Bar) (index : BitVec 32) (prior : Resource), bar.Regular dev.config index.toNat →
      pciGetResource dev.config prior index = some (bar.resource prior index, dev.config) ∧
      ∀ base, prior.has ioresourceFixed = false → 2 ^ bar.sizeLog ∣ base →
        base + 2 ^ bar.sizeLog ≤ (bar.resource prior index).limit + 1 → ∀ a,
        bar.Decodes (pciSetResource dev ((bar.resource prior index).assigned base)).1.config
          index.toNat a ↔ base ≤ a ∧ a < base + (bar.resource prior index).size) ∧
    ∀ prior : Window → Resource, ∃ bases,
      pciBridgeReadBases dev.config (prior .io) (prior .pref) (prior .mem) = some (bases, dev.config) ∧
      ∀ (w : Window) (top : Nat), w.Regular dev.config top →
        bases.get w = some (w.resource top (prior w)) ∧
        ∀ base size align, (size ≠ 0 → 2 ^ w.gran ∣ base ∧
          base + alignUp size (2 ^ w.gran) ≤ (w.resource top (prior w)).limit + 1) → ∀ a,
          w.Forwards (pciSetResource dev ((w.resource top (prior w)).placed base size align)).1.config a ↔
            size ≠ 0 ∧ base ≤ a ∧ a < base + alignUp size (2 ^ w.gran) := by
  refine ⟨fun bar index prior h => ⟨pciGetResource_regular h prior, ?_⟩, fun prior => ?_⟩
  · intro base hprior hbase hle a
    exact pciSetResource_regular h hprior hbase hle a
  · obtain ⟨bases, hread, hget⟩ := pciBridgeReadBases_regular dev.config prior
    refine ⟨bases, hread, fun w top h => ⟨hget w top h, ?_⟩⟩
    intro base size align hplace a
    cases size with
    | zero =>
      exact iff_of_false (pciSetResource_empty h (prior w) base align a) fun hin => hin.1 rfl
    | succ size =>
      obtain ⟨hbase, hle⟩ := hplace (Nat.succ_ne_zero size)
      rw [and_iff_right (Nat.succ_ne_zero size)]
      exact pciSetResource_placed h (prior w) (Nat.succ_pos size) hbase hle a

/-- A function with a prefetchable 64 bit register of 8 GiB, which is a bridge as well. -/
def wideFunction : ConfigSpace where
  bytes reg := if reg = 0x10 then 0x0c else 0
  writable reg :=
    if reg = 0x14 then 0xfe
    else if 0x15 ≤ reg ∧ reg < 0x18 then 0xff
    else if reg = 0x20 ∨ reg = 0x22 then 0xf0
    else if reg = 0x21 ∨ reg = 0x23 then 0xff
    else 0

theorem pci_resources_right_8GiB :
    let bar : Bar := ⟨.mem .anywhere64 true, 33, 64⟩
    let dev : PciDev := ⟨wideFunction, 0⟩
    pciGetResource wideFunction {} 0x10 = some (bar.resource {} 0x10, wideFunction) ∧
    (∀ a, bar.Decodes (pciSetResource dev ((bar.resource {} 0x10).assigned (2 ^ 34))).1.config 0x10 a ↔
      2 ^ 34 ≤ a ∧ a < 2 ^ 34 + 2 ^ 33) ∧
    (∀ a, Window.mem.Forwards (pciSetResource dev
      ((Window.mem.resource 16 {}).placed 0xe0000000 0x180000 20)).1.config a ↔
      0xe0000000 ≤ a ∧ a < 0xe0200000) ∧
    ¬ Window.mem.Forwards (pciSetResource dev
      ((Window.mem.resource 16 {}).placed 0 0 20)).1.config 0xfff00000 := by
  intro bar dev
  have hbar : bar.Regular wideFunction 0x10 :=
    ⟨by decide, by decide, by decide, isField_of_bounded (by decide) (by decide +kernel),
      by decide +kernel⟩
  have hwindow : Window.mem.Regular wideFunction 16 :=
    ⟨by decide, by decide, isField_of_bounded (by decide) (by decide +kernel),
      isField_of_bounded (by decide) (by decide +kernel), by decide +kernel, by decide +kernel⟩
  obtain ⟨hbars, hwindows⟩ := pci_resources_right dev
  obtain ⟨hget, hdecodes⟩ := hbars bar 0x10 {} hbar
  obtain ⟨bases, -, hall⟩ := hwindows fun _ => {}
  have hforwards := (hall .mem 16 hwindow).2
  refine ⟨hget, fun a => ?_, fun a => ?_, fun h => ((hforwards 0 0 20 (absurd rfl) _).mp h).1 rfl⟩
  · exact hdecodes (2 ^ 34) rfl ⟨2, rfl⟩ (by decide +kernel) a
  · refine (hforwards 0xe0000000 0x180000 20 (fun _ => ⟨⟨0xe00, rfl⟩, by decide +kernel⟩) a).trans ?_
    exact and_iff_right (by decide)

end ItxLlama.Coreboot
