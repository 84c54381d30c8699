import Mathlib.Data.List.Basic
import ItxLlama.Seabios.DiskDrivers

/-!
# INT 13h and the end of the medium

The front ends check where a transfer starts, not where it ends. A call's
device is told to transfer the requested sectors, all of them on the medium,
exactly where the request ends within the drive's capacity and its numbers
fit the fields they go through.
-/

namespace ItxLlama.Seabios

open Lib.Word

-- ---------------------------------------------------------------------------
-- Requests
-- ---------------------------------------------------------------------------

/-- The sector that the call names: CHS registers through the drive's
logical geometry, or the packet's block number. -/
def Int13Access.requested (d : Drive) : Int13Access → Nat
  | basic regs _ =>
    (regs.cylinder * d.lchs.head + regs.dh.toNat) * d.lchs.sector + regs.sector - 1
  | extended param _ => param.lba.toNat

def Int13Access.count : Int13Access → Nat
  | basic regs _ => regs.al.toNat
  | extended param _ => param.count.toNat

/-- `basic_access` computes the sector in 32 bits. -/
def Int13Access.lbaBits : Int13Access → Nat
  | basic .. => 32
  | extended .. => 64

/-- The bits of a sector number that the driver's command has room for. -/
def Drive.lbaBits (d : Drive) : Nat :=
  match d.type with
  | .ata _ | .ahci => 48
  | .virtioBlk => 64
  | .floppy | .ramdisk | .scsi _ => 32

/-- The sectors of the medium: a floppy's count says that it is unknown, but
a ramdisk's image has its geometry's size. -/
def Drive.capacity (d : Drive) : Nat :=
  match d.type with
  | .ramdisk => d.lchs.total
  | _ => d.sectors

structure OnMedium (d : Drive) (requested : Nat) (op : DiskOp) : Prop where
  sectors : ∀ l ∈ sentSectors d op,
    l = List.range' requested op.count ∧ ∀ s ∈ l, s < d.sectors
  memory : ∀ m ∈ touchedMemory d op,
    m.1 = d.cntlId + requested * diskSectorSize ∧
      m.2 ≤ d.cntlId + d.lchs.total * diskSectorSize

/-- The request ends within the medium, and its numbers fit. -/
structure Int13Access.Fits (d : Drive) (acc : Int13Access) : Prop where
  inside : acc.requested d + acc.count ≤ d.capacity
  width : acc.requested d + acc.count ≤ 2 ^ d.lbaBits
  front : acc.requested d < 2 ^ acc.lbaBits

theorem mem_range'_lt (hn : 0 < n) :
    (∀ s ∈ List.range' r n, s < S) ↔ r + n ≤ S := by
  constructor
  · intro h
    have := h (r + (n - 1)) (List.mem_range'_1.mpr ⟨by omega, by omega⟩)
    omega
  · intro h s hs
    have := (List.mem_range'_1.mp hs).2
    omega

theorem map_mod_eq_range' (hn : 0 < n) (ha : a = r ∨ a < 2 ^ b) :
    ((List.range n).map fun i => (a + i) % 2 ^ b) = List.range' r n ↔
      a = r ∧ r + n ≤ 2 ^ b := by
  rw [List.range'_eq_map_range, List.map_inj_left]
  constructor
  · intro h
    have h0 := h 0 (List.mem_range.mpr hn)
    have hl := h (n - 1) (List.mem_range.mpr (by omega))
    have hlt := Nat.mod_lt (a + (n - 1)) (Nat.two_pow_pos b)
    have har : a = r := by
      rcases ha with ha | ha
      · exact ha
      · rw [Nat.add_zero, Nat.mod_eq_of_lt ha] at h0
        exact h0
    exact ⟨har, by omega⟩
  · rintro ⟨rfl, hle⟩ i hi
    have := List.mem_range.mp hi
    exact Nat.mod_eq_of_lt (by omega)

-- ---------------------------------------------------------------------------
-- What the commands say
-- ---------------------------------------------------------------------------

section

variable (op : DiskOp) (iswrite usepio : Bool)

theorem ataCommand_isExt (h : op.NeedsExt) : (ataCommand op iswrite usepio).isExt = true := by
  have hall : ∀ n ∈ [ataCmdReadSectorsExt, ataCmdReadDmaExt, ataCmdWriteSectorsExt,
      ataCmdWriteDmaExt], decide (n &&& 0xee = ataCmdReadSectorsExt) = true := by decide
  rw [ataCommand, if_pos h]
  refine hall _ ?_
  cases iswrite <;> cases usepio <;> simp

theorem ataCommand_not_isExt (h : ¬ op.NeedsExt) :
    (ataCommand op iswrite usepio).isExt = false := by
  have hall : ∀ n ∈ [ataCmdReadSectors, ataCmdReadDma, ataCmdWriteSectors, ataCmdWriteDma],
      decide (n &&& 0xee = ataCmdReadSectorsExt) = false := by decide
  rw [ataCommand, if_neg h]
  refine hall _ ?_
  cases iswrite <;> cases usepio <;> simp

theorem device_lba (x : Nat) : (x % 16 ||| ataCbDhLba) &&& 0xf = x % 16 := by
  have hall : ∀ y < 16, (y ||| ataCbDhLba) &&& 0xf = y := by decide
  exact hall _ (Nat.mod_lt _ (by decide))

theorem ataCommand_lba (hfit : op.lba + op.count < 2 ^ 64) :
    (ataCommand op iswrite usepio).lba = op.lba % 2 ^ 48 := by
  by_cases h : op.NeedsExt
  · rw [AtaPioCommand.lba, if_pos (ataCommand_isExt op iswrite usepio h), ataCommand, if_pos h]
    simp only [u8]
    omega
  · rw [AtaPioCommand.lba, ataCommand_not_isExt op iswrite usepio h, ataCommand, if_neg h]
    simp only [DiskOp.NeedsExt, u64_eq hfit] at h
    rw [if_neg Bool.false_ne_true, device_lba]
    simp only [u8]
    omega

theorem ataCommand_count (hpos : 0 < op.count) (hcount : op.count < 2 ^ 16) :
    (ataCommand op iswrite usepio).count = op.count := by
  by_cases h : op.NeedsExt
  · rw [AtaPioCommand.count, if_pos (ataCommand_isExt op iswrite usepio h), ataCommand, if_pos h]
    have hn : u8 op.count + u8 (op.count / 2 ^ 8) * 2 ^ 8 = op.count := by
      simp only [u8]
      omega
    simp only [hn]
    exact if_neg (by omega)
  · rw [AtaPioCommand.count, ataCommand_not_isExt op iswrite usepio h, ataCommand, if_neg h]
    simp only [DiskOp.NeedsExt] at h
    simp only [Bool.false_eq_true, if_false, u8_eq (show op.count < 2 ^ 8 by omega)]
    exact if_neg (by omega)

theorem ataCommand_sectors (hfit : op.lba + op.count < 2 ^ 64) (hpos : 0 < op.count)
    (hcount : op.count < 2 ^ 16) :
    (ataCommand op iswrite usepio).sectors =
      (List.range op.count).map fun i => (op.lba + i) % 2 ^ 48 := by
  rw [AtaPioCommand.sectors, ataCommand_lba op iswrite usepio hfit,
    ataCommand_count op iswrite usepio hpos hcount]
  exact List.map_congr_left fun i _ => Nat.mod_add_mod _ _ _

theorem ahciCommands_sectors (hfit : op.lba + op.count < 2 ^ 64) (hpos : 0 < op.count)
    (hcount : op.count < 2 ^ 16) :
    (ahciCommands op).flatMap AtaPioCommand.sectors =
      (List.range op.count).map fun i => (op.lba + i) % 2 ^ 48 := by
  unfold ahciCommands
  split
  · rw [List.flatMap_singleton, ataCommand_sectors op _ _ hfit hpos hcount]
  · rw [List.flatMap_map, List.map_eq_flatMap]
    refine List.flatMap_congr fun i hi => ?_
    have hlt := List.mem_range.mp hi
    have hu : u64 (op.lba + i) = op.lba + i := u64_eq (by omega)
    rw [ataCommand_sectors _ _ _ (by simp only [hu]; omega) (by simp) (by simp), hu]
    simp

end

-- ---------------------------------------------------------------------------
-- What the front ends send
-- ---------------------------------------------------------------------------

theorem basicOp_spec (h : basicOp regs d command = some op) :
    (0 < regs.al.toNat ∧ regs.al.toNat ≤ 128) ∧
      (regs.cylinder < d.lchs.cylinder ∧ regs.dh.toNat < d.lchs.head ∧
        0 < regs.sector ∧ regs.sector ≤ d.lchs.sector) ∧
      op = ⟨u32 ((Int13Access.basic regs w).requested d), regs.es.toNat * 16 + regs.bx.toNat,
        regs.al.toNat, command⟩ := by
  unfold basicOp at h
  dsimp only at h
  split at h
  · cases h
  · split at h
    · cases h
    · obtain rfl := Option.some.inj h
      exact ⟨by omega, by omega, rfl⟩

theorem extendedOp_spec (h : extendedOp param d command = some op) :
    0 < param.count.toNat ∧ param.lba.toNat < d.sectors ∧
      op = ⟨param.lba.toNat, param.seg.toNat * 16 + param.offset.toNat, param.count.toNat,
        command⟩ := by
  unfold extendedOp at h
  split at h
  · cases h
  · split at h
    · cases h
    next hz =>
      obtain rfl := Option.some.inj h
      refine ⟨?_, by omega, rfl⟩
      rw [← UInt16.toNat_inj] at hz
      exact Nat.pos_of_ne_zero hz

/-- Every op has some sectors to transfer, from the requested one on as far
as the front end's arithmetic goes. -/
theorem int13Op_spec {acc : Int13Access} (h : acc.op d = some op) :
    op.count = acc.count ∧ 0 < op.count ∧ op.count < 2 ^ 16 ∧
      op.lba = acc.requested d % 2 ^ acc.lbaBits := by
  cases acc with
  | basic regs w =>
    obtain ⟨⟨hpos, hle⟩, -, rfl⟩ := basicOp_spec (w := w) h
    exact ⟨rfl, hpos, by simp only; omega, rfl⟩
  | extended param w =>
    rw [Int13Access.op] at h
    split at h
    · cases h
    · obtain ⟨hpos, -, rfl⟩ := extendedOp_spec h
      exact ⟨rfl, hpos, param.count.toNat_lt, (Nat.mod_eq_of_lt param.lba.toNat_lt).symm⟩

/-- Drives in the floppy table get CHS calls only. -/
theorem basic_of_isFloppy {acc : Int13Access} (h : acc.op d = some op)
    (hf : d.isFloppy) : ∃ regs w, acc = .basic regs w := by
  cases acc with
  | basic regs w => exact ⟨regs, w, rfl⟩
  | extended param w => simp [Int13Access.op, hf] at h

-- ---------------------------------------------------------------------------
-- Hard disks
-- ---------------------------------------------------------------------------

section

variable {d : Drive} {acc : Int13Access} {op : DiskOp} {l : List Nat}

/-- A hard disk is told of the right sectors exactly where they fit, given
that this is so of the numbers in its command. -/
theorem onMedium_iff_of_sent (hop : acc.op d = some op) (hs : sentSectors d op = some l)
    (hm : touchedMemory d op = none) (hcap : d.capacity = d.sectors) (h64 : d.sectors < 2 ^ 64)
    (hl : op.lba + op.count < 2 ^ 64 → acc.requested d + op.count ≤ d.sectors →
      (l = List.range' (acc.requested d) op.count ↔
        acc.requested d + op.count ≤ 2 ^ d.lbaBits ∧ acc.requested d < 2 ^ acc.lbaBits)) :
    OnMedium d (acc.requested d) op ↔ acc.Fits d := by
  obtain ⟨hcount, hpos, -, hlba⟩ := int13Op_spec hop
  have hle : op.lba ≤ acc.requested d := hlba ▸ Nat.mod_le _ _
  constructor
  · rintro ⟨hsec, -⟩
    obtain ⟨heq, hlt⟩ := hsec l hs
    rw [heq, mem_range'_lt hpos] at hlt
    obtain ⟨hwidth, hfront⟩ := (hl (by omega) hlt).mp heq
    exact ⟨by omega, by omega, hfront⟩
  · rintro ⟨hin, hwidth, hfront⟩
    rw [hcap, ← hcount] at hin
    have heq := (hl (by omega) hin).mpr ⟨by omega, hfront⟩
    refine ⟨fun l' hl' => ?_, by simp [hm]⟩
    obtain rfl : l = l' := by simpa [hs] using hl'
    exact ⟨heq, by rw [heq, mem_range'_lt hpos]; exact hin⟩

theorem requested_eq_iff (hop : acc.op d = some op) :
    op.lba = acc.requested d ↔ acc.requested d < 2 ^ acc.lbaBits := by
  obtain ⟨-, -, -, hlba⟩ := int13Op_spec hop
  rw [hlba]
  exact ⟨fun h => h ▸ Nat.mod_lt _ (Nat.two_pow_pos _), Nat.mod_eq_of_lt⟩

theorem map_mod_48_iff (hop : acc.op d = some op) :
    ((List.range op.count).map fun i => (op.lba + i) % 2 ^ 48) =
        List.range' (acc.requested d) op.count ↔
      acc.requested d + op.count ≤ 2 ^ 48 ∧ acc.requested d < 2 ^ acc.lbaBits := by
  obtain ⟨-, hpos, -, hlba⟩ := int13Op_spec hop
  have hbound : op.lba = acc.requested d ∨ op.lba < 2 ^ 48 := by
    cases acc with
    | basic regs w =>
      have : op.lba < 2 ^ 32 := hlba ▸ Nat.mod_lt _ (Nat.two_pow_pos 32)
      omega
    | extended param w => exact .inl ((requested_eq_iff hop).mpr param.lba.toNat_lt)
  rw [map_mod_eq_range' hpos hbound, requested_eq_iff hop, and_comm]

theorem range'_inj_start (hn : 0 < n) : List.range' a n = List.range' b n ↔ a = b := by
  constructor
  · intro h
    cases n with
    | zero => omega
    | succ n => exact (List.cons.inj h).1
  · rintro rfl
    rfl

theorem identifySectors_lt {buffer : Nat → Nat} (h : ∀ i, buffer i < 2 ^ 16) :
    identifySectors buffer < 2 ^ 64 := by
  have := h 60; have := h 61; have := h 100; have := h 101; have := h 102; have := h 103
  unfold identifySectors
  split <;> omega

theorem onMedium_ata (hop : acc.op d = some op) (htype : d.type = .ata iomaster)
    (h64 : d.sectors < 2 ^ 64) : OnMedium d (acc.requested d) op ↔ acc.Fits d := by
  obtain ⟨-, hpos, hcount, -⟩ := int13Op_spec hop
  refine onMedium_iff_of_sent hop (by rw [sentSectors, htype]) (by rw [touchedMemory, htype])
    (by rw [Drive.capacity, htype]) h64 fun hfit _ => ?_
  rw [ataCommand_sectors op _ _ hfit hpos hcount, show d.lbaBits = 48 by rw [Drive.lbaBits, htype]]
  exact map_mod_48_iff hop

theorem onMedium_ahci (hop : acc.op d = some op) (htype : d.type = .ahci)
    (h64 : d.sectors < 2 ^ 64) : OnMedium d (acc.requested d) op ↔ acc.Fits d := by
  obtain ⟨-, hpos, hcount, -⟩ := int13Op_spec hop
  refine onMedium_iff_of_sent hop (by rw [sentSectors, htype]) (by rw [touchedMemory, htype])
    (by rw [Drive.capacity, htype]) h64 fun hfit _ => ?_
  rw [ahciCommands_sectors op hfit hpos hcount, show d.lbaBits = 48 by rw [Drive.lbaBits, htype]]
  exact map_mod_48_iff hop

theorem onMedium_virtioBlk (hop : acc.op d = some op) (htype : d.type = .virtioBlk)
    (hblk : d.blksize = diskSectorSize) (h64 : d.sectors < 2 ^ 64) :
    OnMedium d (acc.requested d) op ↔ acc.Fits d := by
  obtain ⟨-, hpos, -, -⟩ := int13Op_spec hop
  refine onMedium_iff_of_sent hop (by rw [sentSectors, htype]) (by rw [touchedMemory, htype])
    (by rw [Drive.capacity, htype]) h64 fun _ hin => ?_
  have hlen : d.blksize * op.count / diskSectorSize = op.count := by
    rw [hblk]
    exact Nat.mul_div_cancel_left _ (by decide)
  simp only [virtioBlkOp, hlen]
  rw [range'_inj_start hpos, requested_eq_iff hop]
  have hbits : d.lbaBits = 64 := by rw [Drive.lbaBits, htype]
  exact ⟨fun h => ⟨by rw [hbits]; omega, h⟩, And.right⟩

/-- READ(10) has room for every sector that READ CAPACITY(10) can report. -/
theorem onMedium_scsi (hop : acc.op d = some op) (htype : d.type = .scsi transport)
    (h32 : d.sectors ≤ 2 ^ 32) : OnMedium d (acc.requested d) op ↔ acc.Fits d := by
  obtain ⟨-, hpos, hcount, hlba⟩ := int13Op_spec hop
  refine onMedium_iff_of_sent hop (by rw [sentSectors, htype]) (by rw [touchedMemory, htype])
    (by rw [Drive.capacity, htype]) (by omega) fun _ hin => ?_
  have hle : op.lba ≤ acc.requested d := hlba ▸ Nat.mod_le _ _
  simp only [cdbRwdata, u32_eq (show op.lba < 2 ^ 32 by omega), u16_eq hcount]
  rw [range'_inj_start hpos, requested_eq_iff hop]
  have hbits : d.lbaBits = 32 := by rw [Drive.lbaBits, htype]
  exact ⟨fun h => ⟨by rw [hbits]; omega, h⟩, And.right⟩

end

-- ---------------------------------------------------------------------------
-- Floppies and ramdisks
-- ---------------------------------------------------------------------------

structure FloppyGeometry (c : Chs) : Prop where
  head : 0 < c.head ∧ c.head ≤ 2
  cylinder : c.cylinder ≤ 80
  sector : 0 < c.sector ∧ c.sector ≤ 36

theorem initFloppy_spec (h : initFloppy floppyid ftype = some d) :
    FloppyGeometry d.lchs ∧ floppyInfo[ftype]? = some d.lchs ∧
      d = ⟨.floppy, d.lchs, 2 ^ 64 - 1, floppyid, diskSectorSize⟩ := by
  unfold initFloppy at h
  split at h
  · cases h
  next hz =>
    obtain ⟨chs, hchs, rfl⟩ := Option.map_eq_some_iff.mp h
    have hall : ∀ c ∈ floppyInfo.tail, (0 < c.head ∧ c.head ≤ 2) ∧ c.cylinder ≤ 80 ∧
        0 < c.sector ∧ c.sector ≤ 36 := by decide
    obtain ⟨n, rfl⟩ := Nat.exists_eq_succ_of_ne_zero hz
    have hmem : chs ∈ floppyInfo.tail := by
      refine List.mem_of_getElem? (i := n) ?_
      rw [List.getElem?_tail]
      exact hchs
    obtain ⟨h1, h2, h3⟩ := hall chs hmem
    exact ⟨⟨h1, h2, h3⟩, hchs, rfl⟩

theorem ramdiskSetup_spec (h : ramdiskSetup pos size = some d) :
    FloppyGeometry d.lchs ∧ d.lchs.total * diskSectorSize = size ∧
      d = ⟨.ramdisk, d.lchs, 2 ^ 64 - 1, pos, diskSectorSize⟩ := by
  unfold ramdiskSetup at h
  split at h
  · cases h
  next ftype hf =>
    obtain ⟨d', hd', rfl⟩ := Option.map_eq_some_iff.mp h
    obtain ⟨hgeo, hinfo, heq⟩ := initFloppy_spec hd'
    have hsize := List.find?_some hf
    rw [hinfo] at hsize
    exact ⟨hgeo, by simpa using hsize, by rw [heq]⟩

section

variable {d : Drive} {acc : Int13Access} {op : DiskOp}

/-- A CHS call within a floppy's geometry names one of its sectors. -/
theorem requested_lt_total (h : basicOp regs d command = some op) :
    (Int13Access.basic regs w).requested d < d.lchs.total := by
  obtain ⟨-, ⟨hc, hh, hs, hs'⟩, -⟩ := basicOp_spec (w := w) h
  have h1 : (regs.cylinder * d.lchs.head + regs.dh.toNat + 1) * d.lchs.sector ≤
      d.lchs.cylinder * d.lchs.head * d.lchs.sector := by
    refine Nat.mul_le_mul_right _ ?_
    calc regs.cylinder * d.lchs.head + regs.dh.toNat + 1
        ≤ (regs.cylinder + 1) * d.lchs.head := by
          rw [Nat.add_mul, Nat.one_mul]
          omega
      _ ≤ d.lchs.cylinder * d.lchs.head := Nat.mul_le_mul_right _ hc
  rw [Nat.add_mul, Nat.one_mul] at h1
  unfold Int13Access.requested Chs.total
  dsimp only
  omega

theorem FloppyGeometry.total_le (h : FloppyGeometry c) : c.total ≤ 5760 := by
  unfold Chs.total
  exact Nat.mul_le_mul (Nat.mul_le_mul h.cylinder h.head.2) h.sector.2

theorem lba2chs_sectors (hgeo : FloppyGeometry d.lchs) (hlba : op.lba < d.lchs.total)
    (hpos : 0 < op.count) (hcount : op.count ≤ 128) :
    (floppyParam d op).sectors d = List.range' op.lba op.count := by
  have htotal := hgeo.total_le
  obtain ⟨⟨hh, hh'⟩, hc, hs, hs'⟩ := hgeo
  have hsec := Nat.mod_lt op.lba hs
  have hhead := Nat.mod_lt (op.lba / d.lchs.sector) hh
  have hcyl : op.lba / d.lchs.sector / d.lchs.head < d.lchs.cylinder := by
    rw [Nat.div_div_eq_div_mul, Nat.div_lt_iff_lt_mul (Nat.mul_pos hs hh),
      Nat.mul_comm d.lchs.sector,
      ← Nat.mul_assoc]
    exact hlba
  have hu : u32 op.lba = op.lba := u32_eq (by omega)
  have hparam : floppyParam d op = ⟨op.lba / d.lchs.sector / d.lchs.head,
      op.lba / d.lchs.sector % d.lchs.head, op.lba % d.lchs.sector + 1,
      op.lba % d.lchs.sector + op.count⟩ := by
    simp only [floppyParam, lba2chs, hu, u8, u16, FloppyParam.mk.injEq]
    generalize op.lba / d.lchs.sector / d.lchs.head = c at *
    generalize op.lba / d.lchs.sector % d.lchs.head = h at *
    generalize op.lba % d.lchs.sector = s at *
    omega
  have hsplit : (op.lba / d.lchs.sector / d.lchs.head * d.lchs.head +
      op.lba / d.lchs.sector % d.lchs.head) * d.lchs.sector + op.lba % d.lchs.sector = op.lba := by
    rw [Nat.div_add_mod', Nat.div_add_mod']
  rw [hparam]
  simp only [FloppyParam.sectors]
  rw [← Nat.add_assoc, Nat.add_sub_cancel, hsplit]
  congr 1
  omega

theorem onMedium_floppy (hop : acc.op d = some op) (hgeo : FloppyGeometry d.lchs)
    (htype : d.type = .floppy) (hsec : d.sectors = 2 ^ 64 - 1) :
    OnMedium d (acc.requested d) op ↔ acc.Fits d := by
  obtain ⟨regs, w, rfl⟩ := basic_of_isFloppy hop (by simp [Drive.isFloppy, htype])
  obtain ⟨hcount, hpos, -, -⟩ := int13Op_spec hop
  obtain ⟨⟨-, h128⟩, -, heq⟩ := basicOp_spec (w := w) hop
  have hlt := requested_lt_total (w := w) hop
  have htotal := hgeo.total_le
  have hlba : op.lba = (Int13Access.basic regs w).requested d := by
    rw [heq]
    exact u32_eq (by omega)
  have hle : op.count ≤ 128 := by rw [heq]; exact h128
  refine iff_of_true ⟨fun l hl => ?_, by simp [touchedMemory, htype]⟩ ⟨?_, ?_, ?_⟩
  · rw [sentSectors, htype] at hl
    dsimp only at hl
    split at hl
    · obtain rfl := Option.some.inj hl
      rw [lba2chs_sectors hgeo (by omega) hpos hle, hlba]
      exact ⟨rfl, (mem_range'_lt hpos).mpr (by omega)⟩
    · cases hl
  · rw [Drive.capacity, htype]
    simp only
    omega
  · rw [Drive.lbaBits, htype, ← hcount]
    simp only
    omega
  · exact Nat.lt_of_lt_of_le hlt (Nat.le_trans htotal (by simp [Int13Access.lbaBits]))

/-- A copy touches the image only, exactly where the request ends in it. -/
theorem onMedium_ramdisk (hop : acc.op d = some op) (hgeo : FloppyGeometry d.lchs)
    (htype : d.type = .ramdisk) (hpos' : d.cntlId + d.lchs.total * diskSectorSize ≤ 2 ^ 32) :
    OnMedium d (acc.requested d) op ↔ acc.Fits d := by
  obtain ⟨regs, w, rfl⟩ := basic_of_isFloppy hop (by simp [Drive.isFloppy, htype])
  obtain ⟨hcount, hpos, -, -⟩ := int13Op_spec hop
  obtain ⟨⟨-, h128⟩, -, heq⟩ := basicOp_spec (w := w) hop
  have hlt := requested_lt_total (w := w) hop
  have htotal := hgeo.total_le
  have hlba : op.lba = (Int13Access.basic regs w).requested d := by
    rw [heq]
    exact u32_eq (by omega)
  have hle : op.count ≤ 128 := by rw [heq]; exact h128
  have hoff : ramdiskOffset d op = d.cntlId + op.lba * diskSectorSize := by
    unfold ramdiskOffset diskSectorSize at *
    rw [u32_eq (show op.lba < 2 ^ 32 by omega), u32_eq (show op.lba * 512 < 2 ^ 32 by omega),
      u32_eq (by omega)]
  have hspan : movswSpan (ramdiskWords op) = op.count * diskSectorSize := by
    unfold movswSpan ramdiskWords diskSectorSize
    rw [u16_eq (by omega)]
    omega
  have hmem : touchedMemory d op = some (d.cntlId + op.lba * diskSectorSize,
      d.cntlId + op.lba * diskSectorSize + op.count * diskSectorSize) := by
    rw [touchedMemory, htype, hoff, hspan]
  constructor
  · rintro ⟨-, hm⟩
    obtain ⟨-, hend⟩ := hm _ hmem
    simp only [diskSectorSize] at hend
    refine ⟨?_, ?_, ?_⟩
    · rw [Drive.capacity, htype]
      simp only
      omega
    · rw [Drive.lbaBits, htype, ← hcount]
      simp only
      omega
    · exact Nat.lt_of_lt_of_le hlt (Nat.le_trans htotal (by simp [Int13Access.lbaBits]))
  · rintro ⟨hin, -, -⟩
    rw [Drive.capacity, htype] at hin
    simp only at hin
    refine ⟨by simp [sentSectors, htype], fun m hm => ?_⟩
    obtain rfl := Option.some.inj (hmem.symm.trans hm)
    simp only [diskSectorSize]
    exact ⟨by rw [hlba], by omega⟩

end

/-- A call of INT 13h that gets as far as the driver of a mapped drive has
the device transfer exactly the sectors it names, all of them on the medium
(for a ramdisk: copy within the image), if and only if they end there and
their numbers fit. -/
theorem int13_on_medium_iff (hd : Mapped d) (hop : Int13Access.op d acc = some op) :
    OnMedium d (acc.requested d) op ↔ acc.Fits d := by
  cases hd with
  | floppy h hid =>
    obtain ⟨hgeo, -, heq⟩ := initFloppy_spec h
    exact onMedium_floppy hop hgeo (by rw [heq]) (by rw [heq])
  | ramdisk h hpos =>
    obtain ⟨hgeo, hsize, heq⟩ := ramdiskSetup_spec h
    refine onMedium_ramdisk hop hgeo (by rw [heq]) ?_
    rw [hsize, heq]
    exact hpos
  | ata iomaster lchs cntlId buffer hbuf => exact onMedium_ata hop rfl (identifySectors_lt hbuf)
  | ahci lchs cntlId buffer hbuf => exact onMedium_ahci hop rfl (identifySectors_lt hbuf)
  | virtioBlk lchs cntlId capacity hcap => exact onMedium_virtioBlk hop rfl rfl hcap
  | scsi transport lchs cntlId last hlast =>
    exact onMedium_scsi hop rfl (by simp only; omega)

/-- The drive of a 1.44 MB floppy image. -/
def ramdisk1440 : Drive := ⟨.ramdisk, ⟨2, 80, 18⟩, 2 ^ 64 - 1, 0x7f000000, diskSectorSize⟩

theorem ramdisk1440_mapped : Mapped ramdisk1440 :=
  .ramdisk (show ramdiskSetup 0x7f000000 1474560 = some ramdisk1440 by decide) (by decide)

/-- Read `al` sectors from the last one of a 1.44 MB floppy on. -/
def readLast (al : UInt8) : Int13Access :=
  .basic { al, ch := 79, cl := 18, dh := 1, es := 0x1000, bx := 0 } false

/-- The last sector of an image alone. -/
theorem int13_on_medium_readLast :
    ∃ op, (readLast 1).op ramdisk1440 = some op ∧
      OnMedium ramdisk1440 ((readLast 1).requested ramdisk1440) op :=
  ⟨⟨2879, 0x10000, 1, cmdRead⟩, by decide,
    (int13_on_medium_iff ramdisk1440_mapped (by decide)).mpr ⟨by decide, by decide, by decide⟩⟩

/-- Two sectors from there on: the copy reads 512 bytes behind the image. -/
theorem readLast_two_off_medium :
    ∃ op, (readLast 2).op ramdisk1440 = some op ∧
      touchedMemory ramdisk1440 op = some (0x7f167e00, 0x7f168200) ∧
      0x7f168200 > ramdisk1440.cntlId + 1474560 ∧
      ¬ OnMedium ramdisk1440 ((readLast 2).requested ramdisk1440) op := by
  refine ⟨⟨2879, 0x10000, 2, cmdRead⟩, by decide, by decide, by decide, fun h => ?_⟩
  have := (h.memory (0x7f167e00, 0x7f168200) (by decide)).2
  revert this
  decide

end ItxLlama.Seabios
