import ItxLlama.Lib.Digits
import ItxLlama.Seabios.FloppyTrack

/-!
# Every transfer starts on its cylinder

Over any calls of INT 13h for the two drives, the heads of recalibrated drives
are where the BDA says, and every transfer command is the one that its caller
asks for, as long as no started movement fails.
-/

namespace ItxLlama.Seabios.Floppy

open Lib.Word Lib.Failing Lib.MixedRadix

section

variable {s s₁ s' s'' : State} {world : Nat → Answers} {R : Issue → Prop} {command : FloppyCommand}

/-- If the movements so far meet the condition, the heads are known and the
transfers so far are right. -/
def Kept (world : Nat → Answers) (R : Issue → Prop) (s : State) : Prop :=
  (∀ i ∈ s.log, i.Meets world) → Tracked s ∧ ∀ i ∈ s.log, i.command.Transfers → R i

def At (world : Nat → Answers) (floppyid cylinder : Nat) (s : State) : Prop :=
  (∀ i ∈ s.log, i.Meets world) → s.head floppyid = cylinder

theorem Quiet.earlier {P : Issue → Prop} (h : Quiet s s') (hP : ∀ i ∈ s'.log, P i) :
    ∀ i ∈ s.log, P i := by
  obtain ⟨new, hnew, -⟩ := h.log
  rw [hnew] at hP
  exact (List.forall_mem_append.mp hP).1

theorem Kept.quiet (h : Kept world R s) (hq : Quiet s s') : Kept world R s' := by
  intro hmeets
  obtain ⟨htracked, hright⟩ := h (hq.earlier hmeets)
  refine ⟨fun id hid hrec => ?_, ?_⟩
  · rw [hq.head, hq.track]
    exact htracked id hid ((hq.recalibrated id hid).mp hrec)
  · obtain ⟨new, hnew, hharmless⟩ := hq.log
    rw [hnew]
    exact List.forall_mem_append.mpr
      ⟨hright, fun i hi htransfers => absurd htransfers (hharmless i hi).not_transfers⟩

theorem At.quiet (h : At world floppyid cylinder s) (hq : Quiet s s') :
    At world floppyid cylinder s' :=
  fun hmeets => by rw [hq.head]; exact h (hq.earlier hmeets)

theorem Kept.run (h : Kept world R s) {x : FloppyM α} (hx : QuietRun x) :
    Triple x s (fun _ s' => Kept world R s') fun _ s' => Kept world R s' :=
  (hx s).mono (fun _ _ => h.quiet) fun _ _ => h.quiet

-- ---------------------------------------------------------------------------
-- Movements
-- ---------------------------------------------------------------------------

theorem not_transfers_of_target (h : target command param = some cylinder) :
    ¬ command.Transfers := by
  rintro (rfl | rfl | rfl)
  · exact nomatch h
  · exact nomatch h
  · exact nomatch h

/-- What a movement leaves of `Kept`, before the driver has noted anything. -/
theorem Kept.issue (h : Kept world R s) (htarget : target command param = some cylinder)
    (hmeets : ∀ i ∈ (issue (world s.turn) command param s).log, i.Meets world) :
    Tracked s ∧
      (∀ i ∈ (Floppy.issue (world s.turn) command param s).log, i.command.Transfers → R i) ∧
      if Done world command s.turn then (world s.turn).completed = true
      else ¬ s.Recalibrated (unit param) := by
  obtain ⟨hold, hnew⟩ := List.forall_mem_append.mp hmeets
  obtain ⟨htracked, hright⟩ := h hold
  have hmove := List.forall_mem_singleton.mp hnew (by rw [htarget]; rfl)
  refine ⟨htracked, List.forall_mem_append.mpr ⟨hright, ?_⟩, ?_⟩
  · exact List.forall_mem_singleton.mpr fun ht => absurd ht (not_transfers_of_target htarget)
  · dsimp only at hmove
    split
    next hdone => rwa [if_pos hdone] at hmove
    next hdone =>
      rw [if_neg hdone] at hmove
      exact of_decide_eq_false hmove

theorem issue_head (a : Answers) (htarget : target command param = some cylinder) (s : State) :
    (issue a command param s).head =
      Function.update s.head (unit param) (if a.completed then cylinder else a.head) := by
  rw [issue, htarget]

theorem Kept.stopped (h : Kept world R s) (hi : Issued world command param s s₁ s')
    (htarget : target command param = some cylinder) (hdone : ¬ Done world command s₁.turn) :
    Kept world R s' := by
  refine Kept.quiet (fun hmeets => ?_) hi.after
  obtain ⟨htracked, hright, hrec⟩ := (h.quiet hi.before).issue htarget hmeets
  rw [if_neg hdone] at hrec
  refine ⟨fun id hid hid' => ?_, hright⟩
  have hne : id ≠ unit param := by
    rintro rfl
    exact hrec hid'
  rw [issue_head _ htarget, Function.update_of_ne hne]
  exact htracked id hid hid'

/-- The driver notes where the head is. -/
structure Noted (floppyid cylinder : Nat) (s s' : State) : Prop where
  track : s'.track = Function.update s.track floppyid cylinder
  head : s'.head = s.head
  log : s'.log = s.log
  recalibrated : ∀ id < 2, id ≠ floppyid → (s'.Recalibrated id ↔ s.Recalibrated id)

theorem Kept.arrived (h : Kept world R s) (hi : Issued world command param s s₁ s')
    (htarget : target command param = some cylinder) (hdone : Done world command s₁.turn)
    (hnoted : Noted (unit param) cylinder s' s'') :
    Kept world R s'' ∧ At world (unit param) cylinder s'' := by
  have hquiet := hi.after
  have hhead (hmeets : ∀ i ∈ s''.log, i.Meets world) :
      s''.head = Function.update s₁.head (unit param) cylinder := by
    rw [hnoted.log] at hmeets
    obtain ⟨-, -, hrec⟩ := (h.quiet hi.before).issue htarget (hquiet.earlier hmeets)
    rw [if_pos hdone] at hrec
    rw [hnoted.head, hquiet.head, issue_head _ htarget, if_pos hrec]
  refine ⟨fun hmeets => ⟨fun id hid hrec => ?_, ?_⟩, fun hmeets => ?_⟩
  · rw [hhead hmeets, hnoted.track, hquiet.track]
    rw [hnoted.log] at hmeets
    obtain ⟨htracked, -, -⟩ := (h.quiet hi.before).issue htarget (hquiet.earlier hmeets)
    by_cases hid' : id = unit param
    · subst hid'
      rw [Function.update_self, Function.update_self]
    · rw [Function.update_of_ne hid', Function.update_of_ne hid']
      have hrec' := (hnoted.recalibrated id hid hid').mp hrec
      exact htracked id hid ((hquiet.recalibrated id hid).mp hrec')
  · rw [hnoted.log] at hmeets ⊢
    obtain ⟨-, hright, -⟩ := (h.quiet hi.before).issue htarget (hquiet.earlier hmeets)
    obtain ⟨new, hnew, hharmless⟩ := hquiet.log
    rw [hnew]
    exact List.forall_mem_append.mpr
      ⟨hright, fun i hi htransfers => absurd htransfers (hharmless i hi).not_transfers⟩
  · rw [hhead hmeets, Function.update_self]

theorem Kept.move {g : State → State} (h : Kept world R s)
    (hmove : command.waitIrq = true ∧ command.receive = 0)
    (htarget : target command param = some cylinder) (floppyid : Nat)
    (hnoted : ∀ s, Noted (unit param) cylinder s (g s)) :
    Triple (floppyDrivePio world floppyid command param >>= fun _ => change g) s
      (fun _ s' => (Kept world R s' ∧ At world (unit param) cylinder s') ∧ ∃ s₀, s' = g s₀)
      fun _ s' => Kept world R s' := by
  refine Triple.bind ((floppyDrivePio_move hmove floppyid param s).mono (fun _ _ h => h) ?_) ?_
  · rintro _ s' (hq | ⟨s₁, hi, hdone⟩)
    · exact h.quiet hq
    · exact h.stopped hi htarget hdone
  · rintro _ s' ⟨s₁, hi, hdone⟩
    exact .change ⟨h.arrived hi htarget hdone (hnoted s'), s', rfl⟩

theorem driveBit_or : ∀ id < 2, ∀ id' < 2, ∀ frs : BitVec 8,
    (frs ||| driveBit id) &&& driveBit id' ≠ 0 ↔ id = id' ∨ frs &&& driveBit id' ≠ 0 := by
  decide

theorem unit_of_lt (hid : floppyid < 2) (param : List Nat) : unit (floppyid :: param) = floppyid :=
  Nat.mod_eq_of_lt (Nat.lt_trans hid (by decide))

theorem floppyDriveRecal_spec (h : Kept world R s) (hid : floppyid < 2) :
    Triple (floppyDriveRecal world floppyid) s
      (fun _ s' => Kept world R s' ∧ s'.Recalibrated floppyid) fun _ s' => Kept world R s' := by
  refine (h.move (by decide) (rfl : target .recalibrate [floppyid] = some 0) floppyid ?_).mono ?_
    fun _ _ h => h
  · intro s
    rw [unit_of_lt hid]
    refine ⟨rfl, rfl, rfl, fun id hid' hne => ?_⟩
    exact (driveBit_or floppyid hid id hid' _).trans (or_iff_right (Ne.symm hne))
  · rintro _ s' ⟨⟨hkept, -⟩, s₀, rfl⟩
    exact ⟨hkept, (driveBit_or floppyid hid floppyid hid _).mpr (.inl rfl)⟩

theorem seekTo_spec (h : Kept world R s) (hid : floppyid < 2) (cylinder : Nat) :
    Triple (seekTo world floppyid cylinder) s
      (fun _ s' => Kept world R s' ∧ At world floppyid cylinder s')
      fun _ s' => Kept world R s' := by
  have htarget : target .seek [floppyid, cylinder] = some cylinder := rfl
  have hmove := h.move (by decide) htarget floppyid
    (g := fun s => { s with track := Function.update s.track floppyid cylinder })
  rw [unit_of_lt hid] at hmove
  have hnoted := hmove fun s => ⟨rfl, rfl, rfl, fun _ _ _ => Iff.rfl⟩
  exact hnoted.mono (fun _ _ h => h.1) fun _ _ h => h

theorem floppyPrep_spec (h : Kept world R s) (hid : floppyid < 2) (ftype cylinder : Nat) :
    Triple (floppyPrep world floppyid ftype cylinder) s
      (fun _ s' => Kept world R s' ∧ At world floppyid cylinder s')
      fun _ s' => Kept world R s' := by
  refine .current_bind ?_
  refine Triple.bind (Q := fun _ s' => Kept world R s' ∧ s'.Recalibrated floppyid)
    (.provided (fun _ => ?_) fun hskip => ⟨h, not_not.mp (not_or.mp hskip).1⟩) ?_
  · refine Triple.bind (floppyDriveRecal_spec h hid) fun _ s₁ h₁ => ?_
    refine (floppyMediaSense_quiet floppyid ftype s₁).mono (fun _ s₂ hq => ?_) fun _ _ => h₁.1.quiet
    exact ⟨h₁.1.quiet hq, (hq.recalibrated floppyid hid).mpr h₁.2⟩
  · rintro _ s₁ ⟨h₁, hrec⟩
    refine .current_bind (.provided (fun _ => seekTo_spec h₁ hid cylinder) fun hskip => ?_)
    refine ⟨h₁, fun hmeets => ?_⟩
    rw [not_not.mp hskip]
    exact (h₁ hmeets).1 floppyid hid hrec

-- ---------------------------------------------------------------------------
-- Transfers
-- ---------------------------------------------------------------------------

/-- The DMA controller is set up for `len` bytes from `addr` on, none of
them behind a 64 KiB boundary. -/
structure Dma.Programmed (dma : Dma) (addr len : Nat) (isWrite : Bool) : Prop where
  address : dma.page * 2 ^ 16 + dma.address = addr
  count : dma.count + 1 = len
  boundary : addr / 2 ^ 16 = (addr + len - 1) / 2 ^ 16
  mode : dma.mode = if isWrite then 0x4a else 0x46

theorem dmaFloppy_spec (haddr : addr < 2 ^ 24) (hpos : 0 < count) (hcount : count ≤ 2 ^ 16)
    (isWrite : Bool) (s : State) :
    Triple (dmaFloppy addr count isWrite) s
      (fun _ s' => ∃ dma : Dma, dma.Programmed addr count isWrite ∧ s' = { s with dma := some dma })
      fun _ s' => s' = s := by
  unfold dmaFloppy
  split
  next hcheck =>
    refine .change ⟨_, ⟨?_, ?_, ?_, rfl⟩, rfl⟩
    · simp only [Nat.shiftRight_eq_div_pow, u8, u16]
      omega
    · simp only [u16]
      omega
    · have hlast : addr / 2 ^ 16 = u32 (addr + u16 (count - 1)) / 2 ^ 16 := by
        simpa [Seabios.dmaFloppy] using hcheck
      rw [u16_eq (by omega), u32_eq (by omega)] at hlast
      rw [hlast]
      congr 1
      omega
  next => exact .raise rfl

theorem Issued.kept (h : Kept world R s) (hi : Issued world command param s s₁ s')
    (htarget : target command param = none) (hright : (∀ i ∈ s.log, i.Meets world) → ∀ i : Issue,
      i.command = command → i.param = param → i.head = s.head → i.dma = s.dma → R i) :
    Kept world R s' := by
  refine Kept.quiet (fun hmeets => ?_) hi.after
  obtain ⟨hold, -⟩ := List.forall_mem_append.mp hmeets
  obtain ⟨htracked, hright'⟩ := h.quiet hi.before hold
  refine ⟨fun id hid hrec => ?_, List.forall_mem_append.mpr ⟨hright', ?_⟩⟩
  · rw [issue, htarget]
    exact htracked id hid hrec
  · exact List.forall_mem_singleton.mpr fun _ =>
      hright (hi.before.earlier hold) _ rfl rfl hi.before.head hi.before.dma

theorem floppyDmaCmd_spec (h : Kept world R s) (hat : At world floppyid cylinder s)
    (haddr : buf < 2 ^ 24) (hpos : 0 < count) (hcount : count ≤ 2 ^ 16)
    (htransfers : command.Transfers)
    (hright : ∀ i : Issue, i.command = command → i.param = param → i.head floppyid = cylinder →
      (∃ dma, i.dma = some dma ∧ dma.Programmed buf count (command != .read)) → R i) :
    Triple (floppyDmaCmd world floppyid buf count command param) s
      (fun _ s' => Kept world R s') fun _ s' => Kept world R s' := by
  refine Triple.bind ((dmaFloppy_spec haddr hpos hcount _ s).mono (fun _ _ h => h) ?_) ?_
  · rintro _ _ rfl
    exact h
  · rintro _ _ ⟨dma, hdma, rfl⟩
    have htarget : target command param = none := by
      obtain rfl | rfl | rfl := htransfers <;> rfl
    have hresponse : ¬ (command.waitIrq = true ∧ command.receive = 0) := by
      obtain rfl | rfl | rfl := htransfers <;> decide
    have hkept : ∀ s' : State, (Quiet { s with dma := some dma } s' ∨
        ∃ s₁, Issued world command param { s with dma := some dma } s₁ s') → Kept world R s' := by
      rintro s' (hq | ⟨s₁, hi⟩)
      · exact Kept.quiet (s := { s with dma := some dma }) h hq
      · refine Issued.kept (s := { s with dma := some dma }) h hi htarget ?_
        rintro hmeets i hcommand hparam hhead hd
        exact hright i hcommand hparam (hhead ▸ hat hmeets) ⟨dma, hd, hdma⟩
    refine Triple.bind ((floppyDrivePio_response hresponse floppyid param _).mono
      (fun _ => hkept) fun _ => hkept) fun param' s' h' => ?_
    split
    · exact .raise h'
    · exact .pure h'

end

-- ---------------------------------------------------------------------------
-- What the callers ask for
-- ---------------------------------------------------------------------------

def Call.command : Call → Option FloppyCommand
  | reset | verify _ => none
  | read _ => some .read
  | write _ => some .write
  | format _ => some .format

/-- Formatting has no use for the sector, nor for the high bits of the cylinder. -/
def Call.cylinder : Call → Nat
  | reset => 0
  | read regs | write regs | verify regs => regs.cylinder
  | format regs => regs.ch.toNat

def Call.bytes : Call → Nat
  | reset => 0
  | read regs | write regs | verify regs => regs.al.toNat * diskSectorSize
  | format regs => regs.al.toNat * 4

def Call.buffer : Call → Nat
  | reset => 0
  | read regs | write regs | verify regs | format regs => regs.es.toNat * 16 + regs.bx.toNat

/-- The parameters that name the drive and head and, but for formatting, the
cylinder and the sectors. -/
def Call.names (id : Nat) : Call → List Nat
  | reset => []
  | read regs | write regs | verify regs =>
    [regs.dh.toNat <<< 2 ||| id, regs.cylinder, regs.dh.toNat, regs.sector, floppySizeCode,
      regs.sector + regs.al.toNat - 1]
  | format regs => [regs.dh.toNat <<< 2 ||| id, floppySizeCode, regs.al.toNat]

/-- A transfer that is as the call asks for. -/
structure Right (d : FloppyDrive) (c : Call) (i : Issue) : Prop where
  command : c.command = some i.command
  cylinder : i.head d.id = c.cylinder
  names : c.names d.id <+: i.param
  dma : ∃ dma, i.dma = some dma ∧ dma.Programmed c.buffer c.bytes (i.command != .read)

section

variable {s : State} {world : Nat → Answers} {d : FloppyDrive} {c : Call} {op : DiskOp}

theorem FloppyDrive.geometry (d : FloppyDrive) : FloppyGeometry d.drive.lchs :=
  (initFloppy_spec d.init).1

theorem FloppyDrive.first_eq (d : FloppyDrive) (hhead : head < d.drive.lchs.head) :
    u8 ((head <<< 2) ||| d.id) = (head <<< 2) ||| d.id := by
  have hheads := d.geometry.head
  refine u8_eq (Nat.or_lt_two_pow ?_ (Nat.lt_trans d.id_lt (by decide)))
  rw [Nat.shiftLeft_eq]
  omega

theorem lba2chs_index {d : Drive} {cylinder head sector : Nat} (hgeo : FloppyGeometry d.lchs)
    (hcylinder : cylinder < d.lchs.cylinder) (hhead : head < d.lchs.head)
    (hsector : sector < d.lchs.sector)
    (hlba : op.lba = u32 (index d.lchs.head d.lchs.sector cylinder head sector)) :
    lba2chs d op = ⟨head, cylinder, sector + 1⟩ := by
  have hlt := index_lt hcylinder hhead hsector
  have htotal : d.lchs.cylinder * d.lchs.head * d.lchs.sector ≤ 5760 := hgeo.total_le
  have hcyl := hgeo.cylinder
  have hheads := hgeo.head
  have hsecs := hgeo.sector
  have hlba' : u32 op.lba = index d.lchs.head d.lchs.sector cylinder head sector := by
    rw [hlba, u32_eq (Nat.lt_of_lt_of_le hlt (Nat.le_trans htotal (by decide)))]
    exact u32_eq (Nat.lt_of_lt_of_le hlt (Nat.le_trans htotal (by decide)))
  rw [lba2chs, hlba']
  simp only [index_mod hsector, index_div hsector, digits_div hhead, Nat.mul_add_mod_of_lt hhead]
  rw [u16_eq (by omega), u16_eq (by omega), u16_eq (by omega)]

theorem buffer_lt (regs : Bregs) : regs.es.toNat * 16 + regs.bx.toNat < 2 ^ 24 := by
  have hes := regs.es.toNat_lt
  have hbx := regs.bx.toNat_lt
  omega

theorem lba2chs_basicOp (h : basicOp regs d.drive command = some op) :
    lba2chs d.drive op = ⟨regs.dh.toNat, regs.cylinder, regs.sector⟩ := by
  obtain ⟨-, ⟨hc, hh, hs, hs'⟩, rfl⟩ := basicOp_spec (w := false) h
  have hsub : regs.sector = regs.sector - 1 + 1 := by omega
  have hsector : regs.sector - 1 < d.drive.lchs.sector := by omega
  rw [lba2chs_index d.geometry hc hh hsector, ← hsub]
  show u32 _ = u32 _
  rw [index, Int13Access.requested, Nat.add_sub_assoc hs]

theorem floppyAccess_spec (h : Kept world (Right d c) s) (hop : basicOp regs d.drive cmd = some op)
    (hcommand : c.command = some command) (htransfers : command.Transfers)
    (hcylinder : c.cylinder = regs.cylinder) (hbytes : c.bytes = regs.al.toNat * diskSectorSize)
    (hbuffer : c.buffer = regs.es.toNat * 16 + regs.bx.toNat)
    (hnames : c.names d.id = [regs.dh.toNat <<< 2 ||| d.id, regs.cylinder, regs.dh.toNat,
      regs.sector, floppySizeCode, regs.sector + regs.al.toNat - 1]) :
    Triple (floppyAccess world d op command) s
      (fun _ s' => Kept world (Right d c) s') fun _ s' => Kept world (Right d c) s' := by
  have hchs := lba2chs_basicOp hop
  obtain ⟨⟨hpos, h128⟩, ⟨hc, hh, hs, hs'⟩, rfl⟩ := basicOp_spec (w := false) hop
  have hcyl := d.geometry.cylinder
  have hheads := d.geometry.head
  have hsecs := d.geometry.sector
  unfold floppyAccess
  dsimp only
  rw [floppyParam, hchs]
  dsimp only
  rw [u8_eq (Nat.lt_trans hc (by omega)), u8_eq (Nat.lt_trans hh (by omega)),
    u8_eq (Nat.lt_of_le_of_lt hs' (by omega)), d.first_eq hh,
    u8_eq (show regs.sector + regs.al.toNat - 1 < 2 ^ 8 by omega)]
  refine Triple.bind (floppyPrep_spec h d.id_lt _ _) fun _ s₁ h₁ => ?_
  refine floppyDmaCmd_spec h₁.1 h₁.2 (buffer_lt regs) ?_ ?_ htransfers ?_
  · exact Nat.mul_pos hpos (by decide)
  · exact Nat.le_trans (Nat.mul_le_mul_right _ h128) (by decide)
  · intro i hi hparam hhead hdma
    refine ⟨hi ▸ hcommand, hhead.trans hcylinder.symm, ?_, ?_⟩
    · rw [hnames, hparam]
      exact ⟨[floppyGaplen, floppyDatalen], rfl⟩
    · rw [hi, hbytes, hbuffer]
      exact hdma

theorem floppyVerify_spec (h : Kept world R s) (op : DiskOp) :
    Triple (floppyVerify world d op) s (fun _ s' => Kept world R s') fun _ s' => Kept world R s' :=
  (floppyPrep_spec h d.id_lt _ _).mono (fun _ _ h => h.1) fun _ _ h => h

theorem formatOp_spec {d : Drive} (h : formatOp regs d = some op) :
    (regs.ch.toNat < d.lchs.cylinder ∧ regs.dh.toNat < d.lchs.head ∧
      0 < regs.al.toNat ∧ regs.al.toNat ≤ d.lchs.sector) ∧
      op = ⟨u32 ((regs.ch.toNat * d.lchs.head + regs.dh.toNat) * d.lchs.sector),
        regs.es.toNat * 16 + regs.bx.toNat, regs.al.toNat, cmdFormat⟩ := by
  unfold formatOp at h
  dsimp only at h
  split at h
  · cases h
  · obtain rfl := Option.some.inj h
    exact ⟨by omega, rfl⟩

theorem floppyFormat_spec (h : Kept world (Right d (.format regs)) s)
    (hop : formatOp regs d.drive = some op) :
    Triple (floppyFormat world d op) s (fun _ s' => Kept world (Right d (.format regs)) s')
      fun _ s' => Kept world (Right d (.format regs)) s' := by
  obtain ⟨⟨hc, hh, hpos, hle⟩, rfl⟩ := formatOp_spec hop
  have hcyl := d.geometry.cylinder
  have hsecs := d.geometry.sector
  unfold floppyFormat
  dsimp only
  rw [lba2chs_index d.geometry hc hh hsecs.1 rfl]
  dsimp only
  rw [u8_eq (Nat.lt_trans hc (by omega)), d.first_eq hh, u8_eq (Nat.lt_of_le_of_lt hle (by omega))]
  refine Triple.bind (floppyPrep_spec h d.id_lt _ _) fun _ s₁ h₁ => ?_
  refine floppyDmaCmd_spec h₁.1 h₁.2 (buffer_lt regs) ?_ ?_ (.inr (.inr rfl)) ?_
  · exact Nat.mul_pos hpos (by decide)
  · omega
  · intro i hi hparam hhead hdma
    refine ⟨congrArg some hi.symm, hhead, ?_, ?_⟩
    · rw [hparam]
      exact ⟨[floppyFormatGaplen, floppyFillbyte], rfl⟩
    · rw [hi]
      exact hdma

theorem floppyReset_spec (hlog : s.log = []) :
    Triple (floppyReset world) s (fun _ s' => Kept world R s') fun _ s' => Kept world R s' := by
  refine .change_bind (Kept.run (fun _ => ⟨fun id _ hrec => ?_, ?_⟩)
    ((floppyDorWrite_quiet 0x00).bind fun _ => floppyEnableController_quiet))
  · exact (hrec BitVec.zero_and).elim
  · dsimp only
    rw [hlog]
    exact nofun

theorem processFloppyOp_spec (h : Kept world (Right d c) s) (hlog : s.log = [])
    (hop : c.op d.drive = some op) :
    Triple (processFloppyOp world d op) s (fun _ s' => Kept world (Right d c) s')
      fun _ s' => Kept world (Right d c) s' := by
  cases c with
  | reset =>
    obtain rfl := Option.some.inj hop
    exact floppyReset_spec hlog
  | read regs =>
    have hcommand : op.command = cmdRead := by rw [(basicOp_spec (w := false) hop).2.2]
    rw [processFloppyOp, hcommand]
    exact floppyAccess_spec h hop rfl (.inl rfl) rfl rfl rfl rfl
  | write regs =>
    have hcommand : op.command = cmdWrite := by rw [(basicOp_spec (w := false) hop).2.2]
    rw [processFloppyOp, hcommand]
    exact floppyAccess_spec h hop rfl (.inr (.inl rfl)) rfl rfl rfl rfl
  | verify regs =>
    have hcommand : op.command = cmdVerify := by rw [(basicOp_spec (w := false) hop).2.2]
    rw [processFloppyOp, hcommand]
    exact floppyVerify_spec h op
  | format regs =>
    have hcommand : op.command = cmdFormat := by rw [(formatOp_spec hop).2]
    rw [processFloppyOp, hcommand]
    exact floppyFormat_spec h hop

theorem call_spec (htracked : Tracked s) : Kept world (Right d c) (call world d c s) := by
  have h : Kept world (Right d c) { s with log := [] } := fun _ => ⟨htracked, nofun⟩
  unfold call
  split
  next => exact h
  next op hop =>
    have hspec := processFloppyOp_spec h rfl hop
    unfold Triple at hspec
    generalize processFloppyOp world d op { s with log := [] } = r at hspec
    obtain ⟨r | r, s'⟩ := r
    · exact hspec
    · exact hspec

end

theorem calls_cons (world : Nat → Answers) (d : FloppyDrive) (c : Call)
    (cs : List (FloppyDrive × Call)) (s : State) :
    calls world ((d, c) :: cs) s = ((calls world cs (call world d c s)).1,
      (call world d c s).log.map (Prod.mk (d, c)) ++ (calls world cs (call world d c s)).2) := rfl

/-- Over any calls for the two drives, whatever the controller does: if no
started recalibrate or seek of a recalibrated drive fails, and the answered
ones arrive, the heads of the recalibrated drives end up where
`floppy_track` says, and every transfer is as its caller asks for. -/
theorem calls_tracked (world : Nat → Answers) (htracked : Tracked s)
    (hmeets : ∀ i ∈ (calls world cs s).2, i.2.Meets world) :
    Tracked (calls world cs s).1 ∧
      ∀ i ∈ (calls world cs s).2, i.2.command.Transfers → Right i.1.1 i.1.2 i.2 := by
  induction cs generalizing s with
  | nil => exact ⟨htracked, fun _ hi => absurd hi List.not_mem_nil⟩
  | cons c cs ih =>
    obtain ⟨d, c⟩ := c
    rw [calls_cons] at hmeets ⊢
    obtain ⟨hfirst, hrest⟩ := List.forall_mem_append.mp hmeets
    have hmeets' : ∀ i ∈ (call world d c s).log, i.Meets world :=
      fun i hi => hfirst ((d, c), i) (List.mem_map_of_mem hi)
    obtain ⟨htracked', hright⟩ := call_spec htracked hmeets'
    obtain ⟨htracked'', hright'⟩ := ih htracked' hrest
    refine ⟨htracked'', List.forall_mem_append.mpr ⟨fun i hi => ?_, hright'⟩⟩
    obtain ⟨issue, hissue, rfl⟩ := List.mem_map.mp hi
    exact hright issue hissue

/-- A controller that carries a command out, without an error. -/
def carriesOut (command : FloppyCommand) : Answers where
  send _ := some false
  irq := true
  receive i := some (i < command.receive)
  data _ := 0
  completed := true
  head := 0

/-- A seek whose interrupt does not come, with the head underway on cylinder 7. -/
def getsStuck : Answers := { carriesOut .seek with irq := false, completed := false, head := 7 }

def drive1440 : FloppyDrive where
  drive := ⟨.floppy, ⟨2, 80, 18⟩, 2 ^ 64 - 1, 0, diskSectorSize⟩
  ftype := 4
  init := by decide
  id_lt := by decide

def readCylinder (ch : UInt8) : Call :=
  .read { al := 1, ch, cl := 1, dh := 0, es := 0x1000, bx := 0 }

def powerOn : State where
  recalibrationStatus := 0
  mediaState _ := 0
  track _ := 0
  lastDataRate := 0
  dor := 0
  dma := none
  head _ := 3
  turn := 0
  log := []

/-- The commands of a first read, and of a seek and a read behind it. -/
def readsTwo (n : Nat) : Answers :=
  carriesOut ([.checkIrq, .recalibrate, .checkIrq, .readId, .seek, .checkIrq, .read, .seek,
    .checkIrq, .read].getD n .checkIrq)

/-- Read cylinder 5, then cylinder 9. -/
theorem calls_tracked_reads :
    Tracked (calls readsTwo [(drive1440, readCylinder 5), (drive1440, readCylinder 9)] powerOn).1 ∧
      ∀ i ∈ (calls readsTwo [(drive1440, readCylinder 5), (drive1440, readCylinder 9)] powerOn).2,
        i.2.command.Transfers → Right i.1.1 i.1.2 i.2 :=
  calls_tracked readsTwo (s := powerOn) (fun _ _ h => absurd BitVec.zero_and h) (by decide +kernel)

/-- The seek to cylinder 9 gets stuck on cylinder 7. -/
def stuckUnderway (n : Nat) : Answers := if n = 7 then getsStuck else readsTwo n

/-- Read cylinder 5, then 9, then 5 again: after the second call, which
fails, drive 0 is still down as recalibrated and on cylinder 5, and the third
reads what is on cylinder 7. -/
theorem calls_stuckUnderway :
    ∃ cs, (∀ i ∈ (calls stuckUnderway cs powerOn).2, (target i.2.command i.2.param).isSome = true →
        Done stuckUnderway i.2.command i.2.turn → (stuckUnderway i.2.turn).completed = true) ∧
      Tracked powerOn ∧ ¬ Tracked (calls stuckUnderway cs powerOn).1 ∧
      ∃ i ∈ (calls stuckUnderway cs powerOn).2,
        i.2.command = .read ∧ i.1.2.cylinder = 5 ∧ i.2.head i.1.1.id = 7 :=
  ⟨[(drive1440, readCylinder 5), (drive1440, readCylinder 9), (drive1440, readCylinder 5)],
    by decide +kernel⟩

end ItxLlama.Seabios.Floppy
