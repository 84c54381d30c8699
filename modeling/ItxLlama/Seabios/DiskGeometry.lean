import ItxLlama.Lib.Digits
import ItxLlama.Seabios.DiskBounds
import ItxLlama.Seabios.Translation

/-!
# The geometry that INT 13h reports

Functions 08h and 15h of `disk.c`, and the triples of cylinder, head and
sector that `basic_access` takes. A cylinder has ten bits in CH and CL, a
head eight and a sector six.
-/

namespace ItxLlama.Seabios

open Lib.Word Lib.MixedRadix

def extstartHd : UInt8 := 0x80
def extstartCd : UInt8 := 0xE0
def segBios : UInt16 := 0xf000

/-- The registers of functions 08h and 15h. -/
structure ParamRegs where
  al : UInt8
  ah : UInt8
  bx : UInt16
  ch : UInt8
  cl : UInt8
  dh : UInt8
  dl : UInt8
  es : UInt16
  di : UInt16
  deriving DecidableEq, Repr

/-- What `disk_1308` reads besides the geometry: the drive counts, the
floppy type, the offset of the diskette table and the emulated CD drive. -/
structure DriveGlobals where
  floppyCount : UInt8
  hdcount : UInt8
  floppyType : UInt8
  paramTable : UInt16
  cdemuMedia : UInt8
  cdemuDrive : UInt8
  deriving DecidableEq, Repr

/-- The drives of one class, with the extra one of an emulation. -/
def driveCount (g : DriveGlobals) (dl : UInt8) : UInt8 :=
  let count := if dl < extstartHd then g.floppyCount else g.hdcount
  if g.cdemuMedia = 0 then count
  else
    let count := if (g.cdemuDrive ^^^ dl) &&& 0x80 = 0 then count + 1 else count
    if dl < extstartHd ∧ count > 2 then 2 else count

/-- A 16-bit `n--`. -/
def dec16 (n : Nat) : Nat := u16 (n + (2 ^ 16 - 1))

def disk1308 (g : DriveGlobals) (lchs : Chs) (regs : ParamRegs) : ParamRegs :=
  let nlc := dec16 lchs.cylinder
  let nlh := dec16 lchs.head
  let nls := lchs.sector
  if regs.dl ≥ extstartCd then { regs with ah := UInt8.ofNat diskRetEparam }
  else
    let count := driveCount g regs.dl
    -- last sector reserved
    let nlc := if regs.dl < extstartHd then nlc else dec16 nlc
    let regs := if regs.dl < extstartHd then
        { regs with bx := g.floppyType.toUInt16, es := segBios, di := g.paramTable }
      else regs
    { regs with
      al := 0
      ah := UInt8.ofNat diskRetSuccess
      ch := UInt8.ofNat (nlc &&& 0xff)
      cl := UInt8.ofNat (((nlc >>> 2) &&& 0xc0) ||| (nls &&& 0x3f))
      dh := UInt8.ofNat nlh
      dl := count }

/-- AH and the sector count in CX and DX. -/
def disk1315 (lchs : Chs) (dl : UInt8) : Nat × Option (Nat × Nat) :=
  if dl < extstartHd ∨ dl ≥ extstartCd then (1, none)
  else
    let lba := u32 (u32 (lchs.cylinder + 2 ^ 32 - 1) * lchs.head * lchs.sector)
    (3, some (lba >>> 16, lba &&& 0xffff))

-- ---------------------------------------------------------------------------
-- Triples in registers
-- ---------------------------------------------------------------------------

/-- The triple that the registers of a call hold. -/
def Bregs.chs (regs : Bregs) : Chs :=
  { head := regs.dh.toNat, cylinder := regs.cylinder, sector := regs.sector }

/-- The largest triple, as a caller reads the registers. -/
def ParamRegs.chs (regs : ParamRegs) : Chs :=
  { head := regs.dh.toNat
    cylinder := regs.ch.toNat ||| ((regs.cl.toNat <<< 2) &&& 0x300)
    sector := regs.cl.toNat &&& 0x3f }

/-- `basic_access` takes the triple for block `n`. -/
def Addresses (d : Drive) (t : Chs) (n : Nat) : Prop :=
  ∃ regs command op, regs.chs = t ∧ basicOp regs d command = some op ∧ op.lba = n

/-- The triples and the blocks correspond, and those up to the reported
triple are all there. -/
structure ChsAgreement (d : Drive) (top : Chs) : Prop where
  bound : ∀ t n, Addresses d t n → n < d.lchs.total
  function : ∀ t n n', Addresses d t n → Addresses d t n' → n = n'
  injective : ∀ t t' n, Addresses d t n → Addresses d t' n → t = t'
  onto : ∀ n < d.lchs.total, ∃ t, Addresses d t n
  reported : ∃ n, Addresses d top n
  within : ∀ t : Chs, t.cylinder ≤ top.cylinder → t.head ≤ top.head → 0 < t.sector →
    t.sector ≤ top.sector → ∃ n, Addresses d t n

theorem toNat_ofNat (h : n < 256) : (UInt8.ofNat n).toNat = n := UInt8.toNat_ofNat_of_lt h

theorem high_bits (hw : w < 256) : w &&& 0xc0 = w / 64 * 64 := by
  have h : ∀ q < 4, ∀ r < 64, (q * 64 + r) &&& 0xc0 = q * 64 := by decide
  have := h (w / 64) (by omega) (w % 64) (by omega)
  rwa [Nat.div_add_mod'] at this

theorem packed_cl : ∀ q < 4, ∀ s < 64, (q * 64 ||| s) < 256 ∧
    ((q * 64 ||| s) <<< 2) &&& 0x300 = q * 256 ∧ (q * 64 ||| s) &&& 0x3f = s := by
  decide

theorem unpack (hc : c < 1024) (hs : s < 64) :
    let ch := UInt8.ofNat (c &&& 0xff)
    let cl := UInt8.ofNat (((c >>> 2) &&& 0xc0) ||| (s &&& 0x3f))
    ch.toNat ||| ((cl.toNat <<< 2) &&& 0x300) = c ∧ cl.toNat &&& 0x3f = s := by
  have hlow : c &&& 0xff = c % 256 := Nat.and_two_pow_sub_one_eq_mod c 8
  have hsect : s &&& 0x3f = s := by
    rw [Nat.and_two_pow_sub_one_eq_mod s 6, Nat.mod_eq_of_lt hs]
  have hhigh : (c >>> 2) &&& 0xc0 = c / 256 * 64 := by
    have hw : c >>> 2 < 256 := by
      rw [Nat.shiftRight_eq_div_pow]
      omega
    rw [high_bits hw, Nat.shiftRight_eq_div_pow, Nat.div_div_eq_div_mul]
  obtain ⟨h256, h1, h2⟩ := packed_cl (c / 256) (by omega) s hs
  simp only [hlow, hsect, hhigh, toNat_ofNat h256, toNat_ofNat (Nat.mod_lt c (by decide : 0 < 256))]
  refine ⟨?_, h2⟩
  rw [h1, Nat.or_comm, Nat.mul_comm,
    ← Nat.two_pow_add_eq_or_of_lt (i := 8) (Nat.mod_lt c (by decide)),
    Nat.div_add_mod]

/-- The registers of a call for the triple. -/
def chsRegs (t : Chs) : Bregs :=
  { al := 1
    ch := UInt8.ofNat (t.cylinder &&& 0xff)
    cl := UInt8.ofNat (((t.cylinder >>> 2) &&& 0xc0) ||| (t.sector &&& 0x3f))
    dh := UInt8.ofNat t.head
    es := 0
    bx := 0 }

theorem chsRegs_chs (hc : t.cylinder < 1024) (hh : t.head < 256) (hs : t.sector < 64) :
    (chsRegs t).chs = t := by
  obtain ⟨h1, h2⟩ := unpack hc hs
  simp only [Bregs.chs, Bregs.cylinder, Bregs.sector, chsRegs, h1, h2, toNat_ofNat hh]

/-- The triples that are taken: those of the geometry that fit the registers. -/
structure Chs.Within (t lchs : Chs) : Prop where
  cylinder : t.cylinder < lchs.cylinder
  head : t.head < lchs.head
  head8 : t.head < 256
  first : 0 < t.sector
  sector : t.sector ≤ lchs.sector
  sector6 : t.sector < 64

def Chs.block (lchs t : Chs) : Nat :=
  index lchs.head lchs.sector t.cylinder t.head (t.sector - 1)

section Triples

variable {d : Drive} {lchs t t' : Chs} {n : Nat}

theorem block_lt (h : t.Within lchs) : lchs.block t < lchs.total :=
  index_lt h.cylinder h.head (Nat.lt_of_lt_of_le (Nat.sub_lt h.first Nat.one_pos) h.sector)

theorem block_inj (h : t.Within lchs) (h' : t'.Within lchs) (heq : lchs.block t = lchs.block t') :
    t = t' := by
  have hs := h.first
  have hs' := h'.first
  obtain ⟨h1, h2, h3⟩ := index_inj h.head (Nat.lt_of_lt_of_le (Nat.sub_lt hs Nat.one_pos) h.sector)
    h'.head (Nat.lt_of_lt_of_le (Nat.sub_lt hs' Nat.one_pos) h'.sector) heq
  cases t
  cases t'
  simp only at *
  simp only [Chs.mk.injEq]
  omega

theorem basicOp_within (command : Nat) (hal : regs.al = 1) (h : regs.chs.Within d.lchs) :
    ∃ op, basicOp regs d command = some op ∧ op.lba = u32 (d.lchs.block regs.chs) := by
  obtain ⟨hcyl, hhead, -, hpos, hsect, -⟩ := h
  simp only [Bregs.chs] at hcyl hhead hpos hsect
  have hcount : ¬ (regs.al.toNat > 128 ∨ regs.al.toNat = 0 ∨ regs.sector = 0) := by
    rw [hal]
    simp only [UInt8.toNat_one]
    omega
  have hin : ¬ (regs.cylinder ≥ d.lchs.cylinder ∨ regs.dh.toNat ≥ d.lchs.head ∨
      regs.sector > d.lchs.sector) := by omega
  refine ⟨_, by simp only [basicOp, if_neg hcount, if_neg hin]; rfl, ?_⟩
  simp only [Chs.block, index, Bregs.chs]
  rw [Nat.add_sub_assoc hpos]

theorem addresses_iff (hc : d.lchs.cylinder ≤ 1024) :
    Addresses d t n ↔ t.Within d.lchs ∧ n = u32 (d.lchs.block t) := by
  constructor
  · rintro ⟨regs, command, op, rfl, hop, rfl⟩
    obtain ⟨-, ⟨hcyl, hhead, hpos, hsect⟩, rfl⟩ := basicOp_spec (w := false) hop
    refine ⟨⟨hcyl, hhead, regs.dh.toNat_lt, hpos, hsect, ?_⟩, ?_⟩
    · exact Nat.lt_of_le_of_lt Nat.and_le_right (by decide : 0x3f < 64)
    · simp only [Int13Access.requested, Chs.block, index, Bregs.chs]
      rw [Nat.add_sub_assoc hpos]
  · rintro ⟨h, rfl⟩
    have hregs := chsRegs_chs (Nat.lt_of_lt_of_le h.cylinder hc) h.head8 h.sector6
    have hw : (chsRegs t).chs.Within d.lchs := by rwa [hregs]
    obtain ⟨op, hop, hlba⟩ := basicOp_within cmdRead rfl hw
    exact ⟨chsRegs t, cmdRead, op, hregs, hop, by rw [hlba, hregs]⟩

theorem addressed_iff (hc : d.lchs.cylinder ≤ 1024) :
    (∃ n, Addresses d t n) ↔ t.Within d.lchs := by
  simp only [addresses_iff hc, exists_and_left, exists_eq, and_true]

/-- A geometry that fits the registers, and leaves a cylinder to report. -/
structure Chs.Fits (lchs : Chs) : Prop where
  cylinder : 2 ≤ lchs.cylinder
  heads : 0 < lchs.head
  head : lchs.head ≤ 256
  sectors : 0 < lchs.sector
  sector : lchs.sector ≤ 63

theorem within_of_fits (hfits : d.lchs.Fits) (hc : t.cylinder < d.lchs.cylinder)
    (hh : t.head < d.lchs.head) (hpos : 0 < t.sector) (hs : t.sector ≤ d.lchs.sector) :
    t.Within d.lchs :=
  ⟨hc, hh, Nat.lt_of_lt_of_le hh hfits.head, hpos, hs,
    Nat.lt_of_le_of_lt (Nat.le_trans hs hfits.sector) (by decide)⟩

theorem total_lt (hc : lchs.cylinder ≤ 1024) (hfits : lchs.Fits) : lchs.total < 2 ^ 32 :=
  calc lchs.total
      ≤ 1024 * 256 * 63 := Nat.mul_le_mul (Nat.mul_le_mul hc hfits.head) hfits.sector
    _ < 2 ^ 32 := by decide

theorem last_of_onto (hc : d.lchs.cylinder ≤ 1024) (hpos : 0 < d.lchs.total)
    (h : Addresses d t (d.lchs.total - 1)) : d.lchs.head ≤ 256 ∧ d.lchs.sector ≤ 63 := by
  obtain ⟨hw, hn⟩ := (addresses_iff hc).mp h
  have hlt := block_lt hw
  have hle : u32 (d.lchs.block t) ≤ d.lchs.block t := Nat.mod_le _ _
  have hlast : d.lchs.block t + 1 = d.lchs.total := by omega
  have hs := hw.first
  have hs' := hw.sector
  -- a larger head or sector would be behind it
  constructor
  · by_contra hgt
    have hhead : t.head + 1 < d.lchs.head := Nat.lt_of_le_of_lt hw.head8 (by omega)
    have hnext := index_lt hw.cylinder hhead
      (Nat.lt_of_lt_of_le (Nat.sub_lt hs Nat.one_pos) hw.sector)
    simp only [Chs.block, index, Nat.add_mul, Chs.total] at *
    omega
  · by_contra hgt
    have hsect : t.sector < d.lchs.sector := Nat.lt_of_lt_of_le hw.sector6 (by omega)
    have hnext := index_lt hw.cylinder hw.head hsect
    simp only [Chs.block, index, Chs.total] at *
    omega

theorem fits_of_agreement (hc : d.lchs.cylinder ≤ 1024)
    (htop : d.lchs.cylinder = 1 → 1 ≤ top.cylinder) (h : ChsAgreement d top) : d.lchs.Fits := by
  have hw := (addressed_iff hc).mp h.reported
  have h1 := hw.cylinder
  have h2 := hw.head
  have h3 := hw.first
  have h4 := hw.sector
  have hpos : 0 < d.lchs.total := Nat.lt_of_le_of_lt (Nat.zero_le _) (block_lt hw)
  obtain ⟨t, ht⟩ := h.onto (d.lchs.total - 1) (Nat.sub_lt hpos Nat.one_pos)
  obtain ⟨h5, h6⟩ := last_of_onto hc hpos ht
  exact ⟨by omega, by omega, h5, by omega, h6⟩

theorem agreement_of_fits (hc : d.lchs.cylinder ≤ 1024) (hfits : d.lchs.Fits)
    (h1 : top.cylinder + 2 = d.lchs.cylinder) (h2 : top.head + 1 = d.lchs.head)
    (h3 : top.sector = d.lchs.sector) : ChsAgreement d top := by
  have hblock : ∀ t : Chs, t.Within d.lchs → u32 (d.lchs.block t) = d.lchs.block t := fun t ht =>
    u32_eq (Nat.lt_trans (block_lt ht) (total_lt hc hfits))
  have hsectors := hfits.sectors
  refine ⟨fun t n h => ?_, fun t n n' h h' => ?_, fun t t' n h h' => ?_, fun n hn => ?_, ?_, ?_⟩
  · obtain ⟨ht, rfl⟩ := (addresses_iff hc).mp h
    rw [hblock t ht]
    exact block_lt ht
  · rw [((addresses_iff hc).mp h).2, ((addresses_iff hc).mp h').2]
  · obtain ⟨ht, hn⟩ := (addresses_iff hc).mp h
    obtain ⟨ht', hn'⟩ := (addresses_iff hc).mp h'
    rw [hblock t ht] at hn
    rw [hblock t' ht'] at hn'
    exact block_inj ht ht' (hn.symm.trans hn')
  · obtain ⟨a, ha, b, hb, c, hcs, hindex⟩ := exists_index hn
    have ht : Chs.Within ⟨b, a, c + 1⟩ d.lchs := within_of_fits hfits ha hb (Nat.succ_pos c) hcs
    exact ⟨_, (addresses_iff hc).mpr ⟨ht, by rw [hblock _ ht, ← hindex]; rfl⟩⟩
  · exact (addressed_iff hc).mpr (within_of_fits hfits (by omega) (by omega) (by omega) (by omega))
  · intro t h4 h5 h6 h7
    exact (addressed_iff hc).mpr (within_of_fits hfits (by omega) (by omega) h6 (by omega))

/-- The registers that function 08h returns for a hard disk. -/
theorem disk1308_chs (g : DriveGlobals) (lchs : Chs) (hd : ¬ regs.dl < extstartHd)
    (cd : ¬ regs.dl ≥ extstartCd) :
    (disk1308 g lchs regs).ch = UInt8.ofNat (dec16 (dec16 lchs.cylinder) &&& 0xff) ∧
      (disk1308 g lchs regs).cl =
        UInt8.ofNat (((dec16 (dec16 lchs.cylinder) >>> 2) &&& 0xc0) ||| (lchs.sector &&& 0x3f)) ∧
      (disk1308 g lchs regs).dh = UInt8.ofNat (dec16 lchs.head) := by
  simp only [disk1308, if_neg hd, if_neg cd, and_self]

theorem dec16_pos (h0 : 0 < n) (h : n ≤ 2 ^ 16) : dec16 n = n - 1 := by
  simp only [dec16, u16]
  omega

/-- For every geometry that `setup_translation` stores, the triples that
`basic_access` takes and those that function 08h reports agree just when the
geometry fits the registers and has two cylinders. -/
theorem chs_agreement_iff (g : DriveGlobals) (regs : ParamRegs)
    (hset : setupTranslation pchs sectors = some (tr, d.lchs)) (hd : ¬ regs.dl < extstartHd)
    (cd : ¬ regs.dl ≥ extstartCd) :
    ChsAgreement d (disk1308 g d.lchs regs).chs ↔ d.lchs.Fits := by
  have hc := setupTranslation_cylinder hset
  obtain ⟨h1, h2, h3⟩ := disk1308_chs g d.lchs hd cd
  constructor
  · refine fits_of_agreement hc fun hone => ?_
    -- the last cylinder minus one wraps
    simp only [ParamRegs.chs, h1, hone]
    exact Nat.le_trans (by decide) Nat.left_le_or
  · intro hfits
    obtain ⟨f1, f2, f3, f4, f5⟩ := hfits
    have hcyl : dec16 (dec16 d.lchs.cylinder) = d.lchs.cylinder - 2 := by
      rw [dec16_pos (n := d.lchs.cylinder) (by omega) (by omega), dec16_pos (by omega) (by omega)]
      omega
    obtain ⟨hu1, hu2⟩ := unpack (c := d.lchs.cylinder - 2) (s := d.lchs.sector) (by omega) (by omega)
    refine agreement_of_fits hc ⟨f1, f2, f3, f4, f5⟩ ?_ ?_ ?_
    · simp only [ParamRegs.chs, h1, h2, hcyl, hu1]
      omega
    · simp only [ParamRegs.chs, h3, dec16_pos f2 (Nat.le_trans f3 (by decide))]
      rw [toNat_ofNat (by omega)]
      omega
    · simp only [ParamRegs.chs, h2, hcyl, hu2]

end Triples

/-- Function 15h counts the sectors up to the reported triple. -/
theorem disk1315_counts (hc : lchs.cylinder ≤ 1024) (hfits : lchs.Fits) (hd : ¬ dl < extstartHd)
    (cd : ¬ dl ≥ extstartCd) :
    ∃ cx dx, disk1315 lchs dl = (3, some (cx, dx)) ∧
      cx * 2 ^ 16 + dx = (lchs.cylinder - 1) * lchs.head * lchs.sector := by
  have hsub : u32 (lchs.cylinder + 2 ^ 32 - 1) = lchs.cylinder - 1 := by
    have := hfits.cylinder
    simp only [u32]
    omega
  have hlt : (lchs.cylinder - 1) * lchs.head * lchs.sector < 2 ^ 32 :=
    Nat.lt_of_le_of_lt (Nat.mul_le_mul_right _ (Nat.mul_le_mul_right _ (Nat.sub_le _ 1)))
      (total_lt hc hfits)
  refine ⟨_, _, by simp only [disk1315, hd, cd, or_self, if_false, hsub, u32_eq hlt]; rfl, ?_⟩
  rw [Nat.shiftRight_eq_div_pow, Nat.and_two_pow_sub_one_eq_mod _ 16, Nat.div_add_mod']

def testRegs : ParamRegs := ⟨0, 0, 0, 0, 0, 0, 0x80, 0, 0⟩

def testGlobals : DriveGlobals := ⟨0, 1, 0, 0, 0, 0⟩

theorem chs_agreement_iff_1024 :
    ChsAgreement ⟨.ata 0, ⟨255, 1024, 63⟩, 312581808, 0, 512⟩
        (disk1308 testGlobals ⟨255, 1024, 63⟩ testRegs).chs ↔
      Chs.Fits ⟨255, 1024, 63⟩ :=
  chs_agreement_iff testGlobals testRegs
    (show setupTranslation ⟨16, 16383, 63⟩ 312581808 = some (.lba, ⟨255, 1024, 63⟩) by decide)
    (by decide) (by decide)

/-- A disk of one cylinder is reported with 1024. -/
theorem one_cylinder_reported :
    setupTranslation ⟨16, 1, 63⟩ 1008 = some (.none, ⟨16, 1, 63⟩) ∧
      (disk1308 testGlobals ⟨16, 1, 63⟩ testRegs).chs = ⟨15, 1023, 63⟩ ∧
      ∀ d : Drive, d.lchs = ⟨16, 1, 63⟩ → ¬ ∃ n, Addresses d ⟨15, 1023, 63⟩ n := by
  refine ⟨by decide, by decide, fun d hd h => ?_⟩
  have hw := (addressed_iff (by rw [hd]; decide)).mp h
  have hlt := hw.cylinder
  rw [hd] at hlt
  exact absurd hlt (by decide)

end ItxLlama.Seabios
