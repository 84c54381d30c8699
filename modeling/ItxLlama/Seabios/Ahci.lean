import ItxLlama.Seabios.AtaTaskFile
import ItxLlama.Seabios.Malloc
import ItxLlama.Lib.Blit

/-!
# AHCI transfers

`sata_prep_readwrite`, `ahci_command` and `ahci_disk_readwrite` of `hw/ahci.c`,
with a controller and a disk that do what a command's FIS and its one PRD
entry say. The caller's buffer and the bounce buffer are two objects; memory
has 32 address bits, and a disk of 48-bit sector numbers has 57.
-/

namespace ItxLlama.Seabios

open Lib.Word Lib.Blit

/-- Where a transfer's data is. -/
inductive AhciBuf where
  | caller (addr : Nat)
  | bounce (addr : Nat)
  deriving DecidableEq, Repr

def AhciBuf.addr : AhciBuf → Nat
  | .caller addr => addr
  | .bounce addr => addr

/-- A command as it is issued: the FIS, the flags of the command list entry
and the PRD entry. -/
structure AhciIssue where
  fis : AtaTaskFile
  listFlags : Nat
  base : AhciBuf
  prdFlags : Nat
  deriving DecidableEq, Repr

structure AhciWorld where
  mem : BitVec 32 → UInt8
  bounce : BitVec 32 → UInt8
  disk : BitVec 57 → UInt8

def AhciWorld.load (w : AhciWorld) : AhciBuf → Nat → UInt8
  | .caller addr => slice w.mem (BitVec.ofNat 32 addr)
  | .bounce addr => slice w.bounce (BitVec.ofNat 32 addr)

def AhciWorld.store (w : AhciWorld) (n : Nat) (src : Nat → UInt8) : AhciBuf → AhciWorld
  | .caller addr => { w with mem := blit w.mem (BitVec.ofNat 32 addr) n src }
  | .bounce addr => { w with bounce := blit w.bounce (BitVec.ofNat 32 addr) n src }

def sectorAddr (lba : Nat) : BitVec 57 := BitVec.ofNat 57 (lba * diskSectorSize)

-- ---------------------------------------------------------------------------
-- The controller and the disk
-- ---------------------------------------------------------------------------

/-- The FIS as a SATA device reads it. -/
def sataRequest (fis : AtaTaskFile) : Option AtaRequest :=
  (ataOpcode fis.command).map fun o =>
    let low := fis.lbaLow + fis.lbaMid * 2 ^ 8 + fis.lbaHigh * 2 ^ 16
    let n := if o.ext then fis.sectorCount + fis.sectorCount2 * 2 ^ 8 else fis.sectorCount
    { slave := false
      lba :=
        if o.ext then low + fis.lbaLow2 * 2 ^ 24 + fis.lbaMid2 * 2 ^ 32 + fis.lbaHigh2 * 2 ^ 40
        else low + (fis.device &&& 0xf) * 2 ^ 24
      count := if n = 0 then if o.ext then 2 ^ 16 else 2 ^ 8 else n
      iswrite := o.iswrite
      dma := o.dma }

/-- The data byte count has 22 bits and is one too small. -/
def AhciIssue.prdBytes (i : AhciIssue) : Nat := i.prdFlags % 2 ^ 22 + 1

/-- No byte moves that the PRD entry has no room for. -/
def AhciIssue.exec (i : AhciIssue) (w : AhciWorld) : AhciWorld :=
  match sataRequest i.fis with
  | none => w
  | some r =>
    let n := min i.prdBytes (r.count * diskSectorSize)
    if r.iswrite then { w with disk := blit w.disk (sectorAddr r.lba) n (w.load i.base) }
    else w.store n (slice w.disk (sectorAddr r.lba)) i.base

-- ---------------------------------------------------------------------------
-- The driver
-- ---------------------------------------------------------------------------

def sataPrepReadwrite (op : DiskOp) (iswrite : Bool) : AtaTaskFile :=
  -- `feature`: dma
  { ataCommand op iswrite false with feature := 1 }

def ahciIssue (fis : AtaTaskFile) (iswrite : Bool) (buffer : AhciBuf) (bsize : Nat) : AhciIssue :=
  { fis
    -- one prd entry, the direction, and the length of the fis in dwords
    listFlags := (1 <<< 16) ||| (if iswrite then 1 <<< 6 else 0) ||| 5
    base := buffer
    prdFlags := u32 (bsize + 2 ^ 32 - 1) }

/-- The return code, the commands issued and what they leave. -/
structure AhciResult where
  ret : Nat
  issues : List AhciIssue
  world : AhciWorld

/-- `ok` is whether the command comes to a good end; what a failed one leaves
is not said. -/
def ahciDiskReadwriteAligned (op : DiskOp) (iswrite : Bool) (buf : AhciBuf) (ok : Bool)
    (w : AhciWorld) : AhciResult :=
  let i := ahciIssue (sataPrepReadwrite op iswrite) iswrite buf (op.count * diskSectorSize)
  if ok then ⟨diskRetSuccess, [i], i.exec w⟩ else ⟨diskRetEbadtrack, [i], w⟩

/-- `n` more sectors through the bounce buffer, from `position` and `lba` on. -/
def ahciBounced (op : DiskOp) (iswrite : Bool) (bounce : AhciBuf) (ok : Nat → Bool) :
    (n position lba : Nat) → AhciWorld → AhciResult
  | 0, _, _, w => ⟨diskRetSuccess, [], w⟩
  | n + 1, position, lba, w =>
    let localop := { op with lba := lba, count := 1 }
    if iswrite then
      let w := w.store diskSectorSize (w.load (.caller position)) bounce
      let r := ahciDiskReadwriteAligned localop true bounce (ok n) w
      if r.ret ≠ 0 then r
      else
        let rest := ahciBounced op iswrite bounce ok n (u32 (position + diskSectorSize))
          (u64 (lba + 1)) r.world
        { rest with issues := r.issues ++ rest.issues }
    else
      let r := ahciDiskReadwriteAligned localop false bounce (ok n) w
      if r.ret ≠ 0 then r
      else
        let w := r.world.store diskSectorSize (r.world.load bounce) (.caller position)
        let rest := ahciBounced op iswrite bounce ok n (u32 (position + diskSectorSize))
          (u64 (lba + 1)) w
        { rest with issues := r.issues ++ rest.issues }

/-- `bounce` is the number of the allocation unit that `bounce_buf_fl` has. -/
def ahciDiskReadwrite (op : DiskOp) (iswrite : Bool) (bounce : Nat) (ok : Nat → Bool)
    (w : AhciWorld) : AhciResult :=
  if op.buf % 2 = 0 then ahciDiskReadwriteAligned op iswrite (.caller op.buf) (ok 0) w
  else
    ahciBounced op iswrite (.bounce (bounce * mallocMinAlign)) ok op.count op.buf op.lba w

-- ---------------------------------------------------------------------------
-- What a transfer should do
-- ---------------------------------------------------------------------------

/-- The sectors and the buffer's bytes, directly. -/
def directTransfer (op : DiskOp) (iswrite : Bool) (w : AhciWorld) : AhciWorld :=
  let n := op.count * diskSectorSize
  if iswrite then
    { w with disk := blit w.disk (sectorAddr op.lba) n (w.load (.caller op.buf)) }
  else w.store n (slice w.disk (sectorAddr op.lba)) (.caller op.buf)

/-- A PRD entry for exactly the bytes of a request. -/
structure AhciIssue.Exact (i : AhciIssue) (iswrite : Bool) (r : AtaRequest) : Prop where
  request : sataRequest i.fis = some r
  direction : r.iswrite = iswrite ∧ i.listFlags.testBit 6 = iswrite
  even : i.base.addr % 2 = 0
  fits : i.prdFlags < 2 ^ 22
  bytes : i.prdFlags + 1 = r.count * diskSectorSize

structure AhciDone (op : DiskOp) (iswrite : Bool) (w : AhciWorld) (r : AhciResult) : Prop where
  exact : ∀ i ∈ r.issues, ∃ q, i.Exact iswrite q
  sectors : (r.issues.flatMap fun i =>
    (sataRequest i.fis).elim [] fun q => List.range' q.lba q.count) = List.range' op.lba op.count
  mem : r.world.mem = (directTransfer op iswrite w).mem
  disk : r.world.disk = (directTransfer op iswrite w).disk

/-- Whatever becomes of the commands, and whatever is in memory and on the disk. -/
def AhciRight (op : DiskOp) (iswrite : Bool) (bounce : Nat) : Prop :=
  ∀ ok w, (ahciDiskReadwrite op iswrite bounce ok w).ret ≠ diskRetSuccess ∨
    AhciDone op iswrite w (ahciDiskReadwrite op iswrite bounce ok w)

-- ---------------------------------------------------------------------------
-- One command
-- ---------------------------------------------------------------------------

theorem sataRequest_prep (hlba : op.lba + op.count ≤ 2 ^ 48) (hpos : 0 < op.count)
    (hcount : op.count < 2 ^ 16) (iswrite : Bool) :
    sataRequest (sataPrepReadwrite op iswrite) = some ⟨false, op.lba, op.count, iswrite, true⟩ := by
  have hop := ataCommand_opcode op iswrite false
  have hext := ataOpcode_ext hop
  have hl := ataCommand_lba op iswrite false (by omega : op.lba + op.count < 2 ^ 64)
  have hc := ataCommand_count op iswrite false hpos hcount
  rw [AtaPioCommand.lba, ← hext, Nat.mod_eq_of_lt (by omega)] at hl
  rw [AtaPioCommand.count, ← hext] at hc
  simp only [sataRequest, sataPrepReadwrite, hop, Option.map_some]
  congr 2
  cases h : decide op.NeedsExt with
  | true =>
    rw [h] at hc
    exact hc
  | false =>
    rw [h] at hc
    exact hc

theorem listFlags_direction (fis : AtaTaskFile) (iswrite : Bool) (buf : AhciBuf) (bsize : Nat) :
    (ahciIssue fis iswrite buf bsize).listFlags.testBit 6 = iswrite := by
  have hall : ∀ b : Bool, ((1 <<< 16) ||| (if b then 1 <<< 6 else 0) ||| 5).testBit 6 = b := by
    decide
  exact hall iswrite

theorem prdFlags_eq (fis : AtaTaskFile) (iswrite : Bool) (buf : AhciBuf) (hpos : 0 < n)
    (h : n < 2 ^ 16) :
    (ahciIssue fis iswrite buf (n * diskSectorSize)).prdFlags = n * diskSectorSize - 1 := by
  simp only [ahciIssue, u32, diskSectorSize]
  omega

/-- The command for `op` says what is wanted of it where the PRD entry has
room for its bytes. -/
theorem ahciIssue_exact (op : DiskOp) (buf : AhciBuf) (hlba : op.lba + op.count ≤ 2 ^ 48)
    (hpos : 0 < op.count) (hcount : op.count ≤ 8192) (heven : buf.addr % 2 = 0) (iswrite : Bool) :
    (ahciIssue (sataPrepReadwrite op iswrite) iswrite buf (op.count * diskSectorSize)).Exact iswrite
      ⟨false, op.lba, op.count, iswrite, true⟩ := by
  have hflags := prdFlags_eq (sataPrepReadwrite op iswrite) iswrite buf hpos
    (Nat.lt_of_le_of_lt hcount (by decide))
  have hbytes : op.count * diskSectorSize ≤ 2 ^ 22 := Nat.mul_le_mul_right diskSectorSize hcount
  have hfull : 0 < op.count * diskSectorSize := Nat.mul_pos hpos (by decide)
  refine ⟨sataRequest_prep hlba hpos (by omega) iswrite, ⟨rfl, listFlags_direction _ _ _ _⟩, heven,
    ?_, ?_⟩
  · rw [hflags]
    omega
  · rw [hflags]
    exact Nat.sub_add_cancel hfull

theorem AhciIssue.Exact.exec {i : AhciIssue} (h : i.Exact iswrite r) (w : AhciWorld) :
    i.exec w =
      if iswrite then
        { w with disk := blit w.disk (sectorAddr r.lba) (r.count * diskSectorSize) (w.load i.base) }
      else w.store (r.count * diskSectorSize) (slice w.disk (sectorAddr r.lba)) i.base := by
  have hbytes : i.prdBytes = r.count * diskSectorSize := by
    rw [AhciIssue.prdBytes, Nat.mod_eq_of_lt h.fits, h.bytes]
  simp only [AhciIssue.exec, h.request, hbytes, Nat.min_self, h.direction.1]

-- ---------------------------------------------------------------------------
-- Sector by sector
-- ---------------------------------------------------------------------------

theorem sectorAddr_add (lba n : Nat) :
    sectorAddr (lba + n) = sectorAddr lba + BitVec.ofNat 57 (n * diskSectorSize) := by
  rw [sectorAddr, sectorAddr, Nat.add_mul, BitVec.ofNat_add]

theorem directTransfer_succ {op : DiskOp} {w w' : AhciWorld} (hn : n + 1 < 2 ^ 16)
    (hmem : w'.mem = (directTransfer { op with count := 1 } iswrite w).mem)
    (hdisk : w'.disk = (directTransfer { op with count := 1 } iswrite w).disk) :
    let next := { op with buf := u32 (op.buf + diskSectorSize), lba := op.lba + 1, count := n }
    (directTransfer next iswrite w').mem =
        (directTransfer { op with count := n + 1 } iswrite w).mem ∧
      (directTransfer next iswrite w').disk =
        (directTransfer { op with count := n + 1 } iswrite w).disk := by
  have hbuf : BitVec.ofNat 32 (u32 (op.buf + diskSectorSize)) =
      BitVec.ofNat 32 op.buf + BitVec.ofNat 32 diskSectorSize := by
    rw [← BitVec.ofNat_add]
    exact BitVec.eq_of_toNat_eq (by simp [u32])
  have hsucc : (n + 1) * diskSectorSize = diskSectorSize + n * diskSectorSize := by
    rw [Nat.succ_mul, Nat.add_comm]
  have hsize : diskSectorSize + n * diskSectorSize ≤ 2 ^ 32 := by
    simp only [diskSectorSize]
    omega
  have hsector := sectorAddr_add op.lba 1
  rw [Nat.one_mul] at hsector
  cases iswrite with
  | true =>
    simp only [directTransfer, if_true, AhciWorld.load, Nat.one_mul] at hmem hdisk ⊢
    refine ⟨hmem, ?_⟩
    rw [hdisk, hmem, hbuf, hsector, hsucc, ← blit_blit _ _ _ (Nat.le_trans hsize (by decide))]
    exact blit_congr fun i _ => slice_add _ _ _ _
  | false =>
    simp only [directTransfer, Bool.false_eq_true, if_false, AhciWorld.store, Nat.one_mul]
      at hmem hdisk ⊢
    refine ⟨?_, hdisk⟩
    rw [hmem, hdisk, hbuf, hsector, hsucc, ← blit_blit _ _ _ hsize]
    exact blit_congr fun i _ => slice_add _ _ _ _

theorem AhciDone.nil (op : DiskOp) (iswrite : Bool) (w : AhciWorld) :
    AhciDone { op with count := 0 } iswrite w ⟨diskRetSuccess, [], w⟩ := by
  refine ⟨by simp, rfl, ?_, ?_⟩
  · cases iswrite <;> simp [directTransfer, AhciWorld.store, blit_zero]
  · cases iswrite <;> simp [directTransfer, AhciWorld.store, blit_zero]

theorem AhciDone.cons (op : DiskOp) {w w' : AhciWorld} {i : AhciIssue} {rest : AhciResult}
    (hn : n + 1 < 2 ^ 16) (hi : i.Exact iswrite ⟨false, op.lba, 1, iswrite, true⟩)
    (hmem : w'.mem = (directTransfer { op with count := 1 } iswrite w).mem)
    (hdisk : w'.disk = (directTransfer { op with count := 1 } iswrite w).disk)
    (hrest : AhciDone
      { op with buf := u32 (op.buf + diskSectorSize), lba := op.lba + 1, count := n } iswrite w' rest) :
    AhciDone { op with count := n + 1 } iswrite w { rest with issues := i :: rest.issues } := by
  have hsucc := directTransfer_succ hn hmem hdisk
  refine ⟨List.forall_mem_cons.mpr ⟨⟨_, hi⟩, hrest.exact⟩, ?_, hrest.mem.trans hsucc.1,
    hrest.disk.trans hsucc.2⟩
  rw [List.flatMap_cons, hrest.sectors, hi.request, Nat.add_comm n 1]
  exact List.range'_append_1

theorem exec_bounce_read {i : AhciIssue} (hi : i.Exact false r) (hone : r.count = 1)
    (hbase : i.base = .bounce addr) (w : AhciWorld) (position : Nat) :
    ((i.exec w).store diskSectorSize ((i.exec w).load (.bounce addr)) (.caller position)).mem =
        blit w.mem (BitVec.ofNat 32 position) diskSectorSize (slice w.disk (sectorAddr r.lba)) ∧
      ((i.exec w).store diskSectorSize ((i.exec w).load (.bounce addr)) (.caller position)).disk =
        w.disk := by
  have hexec : i.exec w =
      w.store diskSectorSize (slice w.disk (sectorAddr r.lba)) (.bounce addr) := by
    simp only [hi.exec, Bool.false_eq_true, if_false, hone, Nat.one_mul, hbase]
  rw [hexec]
  exact ⟨blit_congr fun k hk => slice_blit (by decide) hk, rfl⟩

theorem exec_bounce_write {i : AhciIssue} (hi : i.Exact true r) (hone : r.count = 1)
    (hbase : i.base = .bounce addr) (w : AhciWorld) (src : Nat → UInt8) :
    (i.exec (w.store diskSectorSize src (.bounce addr))).mem = w.mem ∧
      (i.exec (w.store diskSectorSize src (.bounce addr))).disk =
        blit w.disk (sectorAddr r.lba) diskSectorSize src := by
  rw [hi.exec, if_pos rfl, hone, Nat.one_mul, hbase]
  exact ⟨rfl, blit_congr fun k hk => slice_blit (by decide) hk⟩

theorem ahciBounced_done (op : DiskOp) (iswrite : Bool) (ok : Nat → Bool) (heven : addr % 2 = 0)
    (hn : n < 2 ^ 16) (hlba : lba + n ≤ 2 ^ 48) (position : Nat) (w : AhciWorld) :
    (ahciBounced op iswrite (.bounce addr) ok n position lba w).ret ≠ diskRetSuccess ∨
      AhciDone { op with buf := position, lba := lba, count := n } iswrite w
        (ahciBounced op iswrite (.bounce addr) ok n position lba w) := by
  induction n generalizing position lba w with
  | zero => exact .inr (AhciDone.nil { op with buf := position, lba := lba } iswrite w)
  | succ n ih =>
    have hnext : u64 (lba + 1) = lba + 1 := Nat.mod_eq_of_lt (by omega)
    have hexact : (ahciIssue (sataPrepReadwrite { op with lba := lba, count := 1 } iswrite) iswrite
        (.bounce addr) (1 * diskSectorSize)).Exact iswrite ⟨false, lba, 1, iswrite, true⟩ := by
      refine ahciIssue_exact { op with lba := lba, count := 1 } (.bounce addr) ?_ Nat.one_pos ?_
        heven iswrite
      · simp only
        omega
      · simp only
        decide
    cases hok : ok n with
    | false =>
      refine .inl ?_
      cases iswrite <;>
        simp [ahciBounced, ahciDiskReadwriteAligned, hok, diskRetEbadtrack, diskRetSuccess]
    | true =>
      cases iswrite with
      | true =>
        simp only [ahciBounced, ahciDiskReadwriteAligned, hok, if_true, hnext]
        rw [if_neg (by decide)]
        obtain ⟨hmem, hdisk⟩ := exec_bounce_write hexact rfl rfl w (w.load (.caller position))
        refine (ih (by omega) (by omega) _ _).imp_right fun hrest => ?_
        refine AhciDone.cons { op with buf := position, lba := lba } hn hexact ?_ ?_ hrest
        · exact hmem
        · simpa only [directTransfer, if_true, Nat.one_mul] using hdisk
      | false =>
        simp only [ahciBounced, ahciDiskReadwriteAligned, hok, if_true, Bool.false_eq_true,
          if_false,
          hnext]
        rw [if_neg (by decide)]
        obtain ⟨hmem, hdisk⟩ := exec_bounce_read hexact rfl rfl w position
        refine (ih (by omega) (by omega) _ _).imp_right fun hrest => ?_
        refine AhciDone.cons { op with buf := position, lba := lba } hn hexact ?_ ?_ hrest
        · simpa only [directTransfer, Bool.false_eq_true, if_false, Nat.one_mul, AhciWorld.store]
            using hmem
        · exact hdisk

-- ---------------------------------------------------------------------------
-- Both paths
-- ---------------------------------------------------------------------------

theorem ahciAligned_done (heven : op.buf % 2 = 0) (hlba : op.lba + op.count ≤ 2 ^ 48)
    (hpos : 0 < op.count) (hcount : op.count ≤ 8192) (iswrite : Bool) (w : AhciWorld) :
    AhciDone op iswrite w (ahciDiskReadwriteAligned op iswrite (.caller op.buf) true w) := by
  have hexact := ahciIssue_exact op (.caller op.buf) hlba hpos hcount heven iswrite
  have hworld : (ahciDiskReadwriteAligned op iswrite (.caller op.buf) true w).world =
      directTransfer op iswrite w := hexact.exec w
  refine ⟨by simpa [ahciDiskReadwriteAligned] using ⟨_, hexact⟩, ?_, congrArg _ hworld,
    congrArg _ hworld⟩
  simp [ahciDiskReadwriteAligned, hexact.request]

theorem AhciRight.count_le (h : AhciRight op iswrite bounce) (heven : op.buf % 2 = 0)
    (hpos : 0 < op.count) (hcount : op.count < 2 ^ 16) : op.count ≤ 8192 := by
  let w : AhciWorld := ⟨fun _ => 0, fun _ => 0, fun _ => 0⟩
  rcases h (fun _ => true) w with hret | hdone
  · simp [ahciDiskReadwrite, heven, ahciDiskReadwriteAligned] at hret
  · simp only [ahciDiskReadwrite, if_pos heven, ahciDiskReadwriteAligned, if_true] at hdone
    obtain ⟨q, hq⟩ := hdone.exact _ (List.mem_singleton_self _)
    have hfits := hq.fits
    rw [prdFlags_eq _ _ _ hpos hcount, diskSectorSize] at hfits
    omega

/-- A buffer that is not word aligned goes sector by sector, and one command
may go as far as its PRD entry does. -/
theorem ahciRight_iff (hlba : op.lba + op.count ≤ 2 ^ 48) (hpos : 0 < op.count)
    (hcount : op.count < 2 ^ 16) (iswrite : Bool) (bounce : Nat) :
    AhciRight op iswrite bounce ↔ op.buf % 2 = 1 ∨ op.count ≤ 8192 := by
  rcases Nat.mod_two_eq_zero_or_one op.buf with heven | hodd
  · constructor
    · exact fun h => .inr (h.count_le heven hpos hcount)
    · rintro (hodd | hle)
      · omega
      intro ok w
      simp only [ahciDiskReadwrite, if_pos heven]
      cases ok 0 with
      | true => exact .inr (ahciAligned_done heven hlba hpos hle iswrite w)
      | false => exact .inl (by simp [ahciDiskReadwriteAligned, diskRetEbadtrack, diskRetSuccess])
  · refine iff_of_true (fun ok w => ?_) (.inl hodd)
    have hbounce : bounce * mallocMinAlign % 2 = 0 := by
      rw [mallocMinAlign]
      omega
    simp only [ahciDiskReadwrite, if_neg (show ¬ op.buf % 2 = 0 by omega)]
    exact ahciBounced_done op iswrite ok hbounce hcount hlba op.buf w

def largestDirect : DiskOp := { lba := 0, buf := 0x10000, count := 8192, command := cmdRead }

theorem ahciRight_iff_8192 :
    AhciRight largestDirect false 0x7f00 ↔ largestDirect.buf % 2 = 1 ∨ largestDirect.count ≤ 8192 :=
  ahciRight_iff (by decide) (by decide) (by decide) false 0x7f00

def oneMore : DiskOp := { largestDirect with count := 8193 }

/-- One sector more, and the PRD entry is for 512 bytes. -/
theorem ahci_8193_sectors :
    (ahciIssue (sataPrepReadwrite oneMore false) false (.caller oneMore.buf)
        (oneMore.count * diskSectorSize)).prdBytes = 512 ∧
      ¬ AhciRight oneMore false 0x7f00 := by
  refine ⟨?_, fun h => ?_⟩
  · rw [AhciIssue.prdBytes, prdFlags_eq _ _ _ (by decide) (by decide)]
    rfl
  · exact absurd (h.count_le (by decide) (by decide) (by decide)) (by decide)

-- ---------------------------------------------------------------------------
-- The commands sent elsewhere
-- ---------------------------------------------------------------------------

theorem ahciBounced_issues (op : DiskOp) (iswrite : Bool) (bounce : AhciBuf) (hlba : lba < 2 ^ 64)
    (n position : Nat) (w : AhciWorld) :
    (ahciBounced op iswrite bounce (fun _ => true) n position lba w).issues.map
        (·.fis.toAtaPioCommand) =
      (List.range n).map fun block =>
        ataCommand { op with lba := u64 (lba + block), count := 1 } iswrite false := by
  induction n generalizing position lba w with
  | zero => rfl
  | succ n ih =>
    have hshift : ∀ block, u64 (u64 (lba + 1) + block) = u64 (lba + (block + 1)) := fun block => by
      simp only [u64]
      omega
    have hfirst : u64 (lba + 0) = lba := Nat.mod_eq_of_lt hlba
    rw [List.range_succ_eq_map, List.map_cons, List.map_map, hfirst]
    have hrest : ∀ position w, (ahciBounced op iswrite bounce (fun _ => true) n position
        (u64 (lba + 1)) w).issues.map (·.fis.toAtaPioCommand) =
          (List.range n).map fun block =>
            ataCommand { op with lba := u64 (lba + (block + 1)), count := 1 } iswrite false := by
      intro position w
      rw [ih (show u64 (lba + 1) < 2 ^ 64 from Nat.mod_lt _ (by decide))]
      exact List.map_congr_left fun block _ => by rw [hshift]
    cases iswrite <;> exact congrArg _ (hrest _ _)

theorem ahciDiskReadwrite_issues (hlba : op.lba < 2 ^ 64) (bounce : Nat) (w : AhciWorld) :
    (ahciDiskReadwrite op op.iswrite bounce (fun _ => true) w).issues.map (·.fis.toAtaPioCommand) =
      ahciCommands op := by
  simp only [ahciDiskReadwrite, ahciCommands]
  split
  · rfl
  · exact ahciBounced_issues op op.iswrite _ hlba op.count op.buf w

end ItxLlama.Seabios
