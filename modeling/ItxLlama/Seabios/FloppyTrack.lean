import ItxLlama.Seabios.Floppy

/-!
# Where the heads are

What the driver knows of the position of a head is right as long as no
recalibrate or seek of a recalibrated drive fails once it has been started.
-/

namespace ItxLlama.Seabios.Floppy

open Lib.Word Lib.Failing

/-- The drives whose bits are set are where `floppy_track` says. -/
def Tracked (s : State) : Prop := ∀ id < 2, s.Recalibrated id → s.head id = s.track id

instance (s : State) : Decidable (Tracked s) :=
  inferInstanceAs (Decidable (∀ id < 2, s.Recalibrated id → s.head id = s.track id))

/-- The controller raises its interrupt, and its response can be read. -/
def Answered (a : Answers) (command : FloppyCommand) : Prop :=
  (command.waitIrq = true → a.irq = true) ∧ receiveError a command = none

/-- A command that is answered, and the `FC_CHECKIRQ` behind it too. -/
def Done (world : Nat → Answers) (command : FloppyCommand) (turn : Nat) : Prop :=
  Answered (world turn) command ∧ sendError (world (turn + 1)) .checkIrq = none ∧
    Answered (world (turn + 1)) .checkIrq

instance (a : Answers) (command : FloppyCommand) : Decidable (Answered a command) :=
  inferInstanceAs (Decidable (_ ∧ _))

instance (world : Nat → Answers) (command : FloppyCommand) (turn : Nat) :
    Decidable (Done world command turn) := inferInstanceAs (Decidable (_ ∧ _))

/-- A recalibrate or seek that has been started arrives if it is answered;
if it is not, it was of a drive whose bit is not set. -/
def Issue.Meets (world : Nat → Answers) (i : Issue) : Prop :=
  (target i.command i.param).isSome = true →
    if Done world i.command i.turn then (world i.turn).completed = true else i.recalibrated = false

instance (world : Nat → Answers) (i : Issue) : Decidable (i.Meets world) :=
  inferInstanceAs (Decidable (_ → _))

def FloppyCommand.Transfers (command : FloppyCommand) : Prop :=
  command = .read ∨ command = .write ∨ command = .format

/-- Neither a movement nor a transfer. -/
def FloppyCommand.Harmless (command : FloppyCommand) : Prop :=
  command = .checkIrq ∨ command = .readId

theorem FloppyCommand.Harmless.target {command : FloppyCommand} (h : command.Harmless)
    (param : List Nat) : Floppy.target command param = none := by
  obtain rfl | rfl := h
  · rfl
  · rfl

theorem FloppyCommand.Harmless.not_transfers {command : FloppyCommand} (h : command.Harmless) :
    ¬ command.Transfers := by
  obtain rfl | rfl := h
  · exact nofun
  · exact nofun

-- ---------------------------------------------------------------------------
-- What leaves the positions alone
-- ---------------------------------------------------------------------------

section

variable {s s' s'' : State} {x : FloppyM α} {f : α → FloppyM β} {world : Nat → Answers}

structure Quiet (s s' : State) : Prop where
  track : s'.track = s.track
  head : s'.head = s.head
  dma : s'.dma = s.dma
  recalibrated : ∀ id < 2, s'.Recalibrated id ↔ s.Recalibrated id
  log : ∃ new, s'.log = s.log ++ new ∧ ∀ i ∈ new, i.command.Harmless

theorem Quiet.refl (s : State) : Quiet s s :=
  ⟨rfl, rfl, rfl, fun _ _ => Iff.rfl, [], (List.append_nil _).symm, nofun⟩

theorem Quiet.trans (h : Quiet s s') (h' : Quiet s' s'') : Quiet s s'' := by
  obtain ⟨new, hnew, hharmless⟩ := h.log
  obtain ⟨new', hnew', hharmless'⟩ := h'.log
  refine ⟨h'.track.trans h.track, h'.head.trans h.head, h'.dma.trans h.dma,
    fun id hid => (h'.recalibrated id hid).trans (h.recalibrated id hid), new ++ new', ?_, ?_⟩
  · rw [hnew', hnew, List.append_assoc]
  · exact List.forall_mem_append.mpr ⟨hharmless, hharmless'⟩

theorem clearIrq_quiet (s : State) : Quiet s (clearIrq s) := by
  refine ⟨rfl, rfl, rfl, fun id hid => ?_, [], (List.append_nil _).symm, nofun⟩
  have hbit : ∀ id < 2, ∀ frs : BitVec 8,
      (frs &&& ~~~frsIrq) &&& driveBit id = frs &&& driveBit id := by decide
  exact not_congr (by rw [clearIrq, hbit id hid])

theorem issue_quiet (a : Answers) (h : command.Harmless) (param : List Nat) (s : State) :
    Quiet s (issue a command param s) := by
  refine ⟨rfl, ?_, rfl, fun _ _ => Iff.rfl, _, rfl, fun i hi => ?_⟩
  · rw [issue, h.target]
  · rw [List.mem_singleton.mp hi]
    exact h

/-- A program that leaves the positions alone on either way out. -/
def QuietRun (x : FloppyM α) : Prop :=
  ∀ s, Triple x s (fun _ s' => Quiet s s') fun _ s' => Quiet s s'

theorem QuietRun.pure (a : α) : QuietRun (Pure.pure a) := fun s => Triple.pure (Quiet.refl s)

theorem QuietRun.raise (e : Int) : QuietRun (raise e : FloppyM α) :=
  fun s => Triple.raise (Quiet.refl s)

theorem QuietRun.current : QuietRun current := fun s => Triple.current (Quiet.refl s)

theorem QuietRun.change {g : State → State} (h : ∀ s, Quiet s (g s)) : QuietRun (change g) :=
  fun s => Triple.change (h s)

theorem QuietRun.bind (hx : QuietRun x) (hf : ∀ a, QuietRun (f a)) : QuietRun (x >>= f) := fun s =>
  Triple.bind (hx s) fun a s' h =>
    (hf a s').mono (fun _ _ h' => h.trans h') fun _ _ h' => h.trans h'

theorem Quiet.run (h : Quiet s s') (hx : QuietRun x) :
    Triple x s' (fun _ s'' => Quiet s s'') fun _ s'' => Quiet s s'' :=
  (hx s').mono (fun _ _ h' => h.trans h') fun _ _ h' => h.trans h'

theorem QuietRun.attempt (hx : QuietRun x) : QuietRun (attempt x) := fun s =>
  (Triple.attempt (hx s)).mono
    (fun _ _ h => h.elim (fun ⟨_, _, h⟩ => h) fun ⟨_, _, h⟩ => h) fun _ _ h => h

theorem floppyDorWrite_quiet (val : BitVec 8) : QuietRun (floppyDorWrite val) :=
  .change fun _ => ⟨rfl, rfl, rfl, fun _ _ => Iff.rfl, [], (List.append_nil _).symm, nofun⟩

theorem turn_quiet : QuietRun (change fun s : State => { s with turn := s.turn + 1 }) :=
  .change fun _ => ⟨rfl, rfl, rfl, fun _ _ => Iff.rfl, [], (List.append_nil _).symm, nofun⟩

-- ---------------------------------------------------------------------------
-- Commands
-- ---------------------------------------------------------------------------

/-- Quiet, and the controller has not got any further. -/
def Still (s s' : State) : Prop := Quiet s s' ∧ s'.turn = s.turn

theorem fail_still (ret : Int) (s : State) :
    Triple (fail ret : FloppyM α) s (fun _ _ => False) fun _ s' => Still s s' := by
  refine .change_bind (.raise ⟨?_, rfl⟩)
  exact floppyDorWrite_quiet 0x00 s

theorem floppyWaitIrq_spec (irq : Bool) (s : State) :
    Triple (floppyWaitIrq irq) s (fun _ s' => irq = true ∧ Still s s')
      fun _ s' => irq = false ∧ Still s s' := by
  refine .change_bind ?_
  cases irq with
  | true => exact .change ⟨rfl, (clearIrq_quiet s).trans (clearIrq_quiet _), rfl⟩
  | false =>
    exact (fail_still _ _).mono (fun _ _ => False.elim)
      fun _ _ h => ⟨rfl, (clearIrq_quiet s).trans h.1, h.2⟩

theorem orFail_spec (err : Option Int) (s : State) :
    Triple (orFail err) s (fun _ s' => err = none ∧ Still s s')
      fun _ s' => err ≠ none ∧ Still s s' := by
  cases err with
  | none => exact .pure ⟨rfl, Quiet.refl s, rfl⟩
  | some ret => exact (fail_still ret s).mono (fun _ _ => False.elim) fun _ _ h => ⟨nofun, h⟩

theorem response_spec (a : Answers) (command : FloppyCommand) (s : State) :
    Triple
      (do
        provided (command.waitIrq = true) (floppyWaitIrq a.irq)
        orFail (receiveError a command)
        pure ((List.range command.receive).map a.data) : FloppyM (List Nat)) s
      (fun _ s' => Answered a command ∧ Still s s')
      fun _ s' => ¬ Answered a command ∧ Still s s' := by
  refine Triple.bind (Q := fun _ s' => (command.waitIrq = true → a.irq = true) ∧ Still s s') ?_ ?_
  · refine .provided (fun hwait => ?_) fun hwait => ⟨fun h => absurd h hwait, Quiet.refl s, rfl⟩
    · refine (floppyWaitIrq_spec a.irq s).mono (fun _ _ h => ⟨fun _ => h.1, h.2⟩) fun _ _ h => ?_
      exact ⟨fun hans => Bool.false_ne_true (h.1.symm.trans (hans.1 hwait)), h.2⟩
  · rintro _ s₁ ⟨hirq, hquiet, hturn⟩
    refine Triple.bind ((orFail_spec _ s₁).mono (fun _ _ h => h) fun _ _ h => ?_) fun _ s₂ h => ?_
    · exact ⟨fun hans => h.1 hans.2, hquiet.trans h.2.1, h.2.2.trans hturn⟩
    · exact .pure ⟨⟨hirq, h.1⟩, hquiet.trans h.2.1, h.2.2.trans hturn⟩

theorem floppyPio_spec (command : FloppyCommand) (param : List Nat) (s : State) :
    Triple (floppyPio world command param) s
      (fun _ s' => (sendError (world s.turn) command = none ∧ Answered (world s.turn) command ∧
        s'.turn = s.turn + 1) ∧ Quiet (issue (world s.turn) command param s) s')
      fun _ s' => (sendError (world s.turn) command ≠ none ∧ Quiet s s') ∨
        ¬ Answered (world s.turn) command ∧ Quiet (issue (world s.turn) command param s) s' := by
  refine .current_bind ?_
  dsimp only
  split
  next ret hsend =>
    refine .change_bind ((fail_still ret _).mono (fun _ _ => False.elim) fun _ _ h => ?_)
    exact .inl ⟨by rw [hsend]; exact nofun, Quiet.trans (turn_quiet s) h.1⟩
  next hsend =>
    refine .change_bind (.change_bind ((response_spec _ command _).mono ?_ ?_))
    · exact fun _ _ h => ⟨⟨hsend, h.1, h.2.2⟩, Quiet.trans (turn_quiet _) h.2.1⟩
    · exact fun _ _ h => .inr ⟨h.1, Quiet.trans (turn_quiet _) h.2.1⟩

theorem floppyPio_quiet (h : command.Harmless) (param : List Nat) :
    QuietRun (floppyPio world command param) := fun s => by
  have hissue := issue_quiet (world s.turn) h param s
  refine (floppyPio_spec command param s).mono (fun _ _ h => hissue.trans h.2) ?_
  rintro _ s' (⟨-, h⟩ | ⟨-, h⟩)
  · exact h
  · exact hissue.trans h

theorem floppyWaitIrq_quiet (irq : Bool) : QuietRun (floppyWaitIrq irq) := fun s =>
  (floppyWaitIrq_spec irq s).mono (fun _ _ h => h.2.1) fun _ _ h => h.2.1

theorem floppyEnableController_quiet : QuietRun (floppyEnableController world) :=
  (floppyDorWrite_quiet _).bind fun _ => (floppyDorWrite_quiet _).bind fun _ =>
    QuietRun.current.bind fun _ => (floppyWaitIrq_quiet _).bind fun _ =>
      (floppyPio_quiet (.inl rfl) _).bind fun _ => .pure ()

theorem floppySelect_quiet (floppyid : Nat) : QuietRun (floppySelect world floppyid) := fun s =>
  Triple.current_bind <| Triple.bind (Q := fun _ s' => Quiet s s')
    (.provided (fun _ => floppyEnableController_quiet s) fun _ => Quiet.refl s)
    fun _ _ h => h.run (floppyDorWrite_quiet _)

/-- The command has been taken in state `s₁`. -/
structure Issued (world : Nat → Answers) (command : FloppyCommand) (param : List Nat)
    (s s₁ s' : State) : Prop where
  before : Quiet s s₁
  after : Quiet (issue (world s₁.turn) command param s₁) s'

theorem floppyDrivePio_response (hresponse : ¬ (command.waitIrq = true ∧ command.receive = 0))
    (floppyid : Nat) (param : List Nat) (s : State) :
    Triple (floppyDrivePio world floppyid command param) s
      (fun _ s' => Quiet s s' ∨ ∃ s₁, Issued world command param s s₁ s')
      fun _ s' => Quiet s s' ∨ ∃ s₁, Issued world command param s s₁ s' := by
  have hselect : QuietRun (floppySelect world floppyid) := floppySelect_quiet floppyid
  refine Triple.bind ((hselect s).mono (fun _ _ h => h) fun _ _ => .inl) fun _ s₁ h₁ => ?_
  refine Triple.bind ((floppyPio_spec command param s₁).mono (fun _ _ h => h) ?_) fun _ s₂ h₂ => ?_
  · rintro _ s₂ (⟨-, h₂⟩ | ⟨-, h₂⟩)
    · exact .inl (h₁.trans h₂)
    · exact .inr ⟨s₁, h₁, h₂⟩
  · rw [if_neg hresponse]
    exact .pure (.inr ⟨s₁, h₁, h₂.2⟩)

theorem floppyDrivePio_quiet (h : command.Harmless) (floppyid : Nat) (param : List Nat) :
    QuietRun (floppyDrivePio world floppyid command param) := fun s => by
  have hresponse : ¬ (command.waitIrq = true ∧ command.receive = 0) := by
    obtain rfl | rfl := h <;> decide
  have hquiet : ∀ s', (Quiet s s' ∨ ∃ s₁, Issued world command param s s₁ s') → Quiet s s' := by
    rintro s' (h' | ⟨s₁, h₁, h₂⟩)
    · exact h'
    · exact h₁.trans ((issue_quiet _ h param s₁).trans h₂)
  exact (floppyDrivePio_response hresponse floppyid param s).mono (fun _ => hquiet) fun _ => hquiet

theorem floppyDrivePio_move (hmove : command.waitIrq = true ∧ command.receive = 0) (floppyid : Nat)
    (param : List Nat) (s : State) :
    Triple (floppyDrivePio world floppyid command param) s
      (fun _ s' => ∃ s₁, Issued world command param s s₁ s' ∧ Done world command s₁.turn)
      fun _ s' => Quiet s s' ∨
        ∃ s₁, Issued world command param s s₁ s' ∧ ¬ Done world command s₁.turn := by
  have hselect : QuietRun (floppySelect world floppyid) := floppySelect_quiet floppyid
  refine Triple.bind ((hselect s).mono (fun _ _ h => h) fun _ _ => .inl) fun _ s₁ h₁ => ?_
  refine Triple.bind ((floppyPio_spec command param s₁).mono (fun _ _ h => h) ?_) ?_
  · rintro _ s₂ (⟨-, h₂⟩ | ⟨hans, h₂⟩)
    · exact .inl (h₁.trans h₂)
    · exact .inr ⟨s₁, ⟨h₁, h₂⟩, fun hdone => hans hdone.1⟩
  · rintro param' s₂ ⟨⟨-, hans, hturn⟩, h₂⟩
    rw [if_pos hmove]
    have hcheck : FloppyCommand.checkIrq.Harmless := .inl rfl
    have hissue := issue_quiet (world s₂.turn) hcheck param' s₂
    have hspec := @floppyPio_spec world .checkIrq param' s₂
    rw [hturn] at hspec hissue
    refine hspec.mono (fun _ s₃ h₃ => ?_) ?_
    · exact ⟨s₁, ⟨h₁, h₂.trans (hissue.trans h₃.2)⟩, hans, h₃.1.1, h₃.1.2.1⟩
    · rintro _ s₃ (⟨hsend, h₃⟩ | ⟨hans', h₃⟩)
      · exact .inr ⟨s₁, ⟨h₁, h₂.trans h₃⟩, fun hdone => hsend hdone.2.1⟩
      · exact .inr ⟨s₁, ⟨h₁, h₂.trans (hissue.trans h₃)⟩, fun hdone => hans' hdone.2.2⟩

theorem floppyDriveReadid_quiet (floppyid head : Nat) :
    QuietRun (floppyDriveReadid world floppyid head) :=
  (floppyDrivePio_quiet (.inr rfl) _ _).bind fun param => by
    split
    · exact .raise _
    · exact .pure ()

theorem senseLoop_quiet (floppyid ftype : Nat) (stypes : List Nat) :
    QuietRun (senseLoop world floppyid ftype stypes) := by
  induction stypes with
  | nil => exact .raise _
  | cons stype stypes ih =>
    unfold senseLoop
    split
    · exact ih
    · refine (floppyDriveReadid_quiet floppyid 0).attempt.bind fun r => ?_
      cases r with
      | ok => exact .pure stype
      | error => exact ih

theorem senseType_quiet (floppyid ftype : Nat) : QuietRun (senseType world floppyid ftype) :=
  (floppyDriveReadid_quiet floppyid 0).attempt.bind fun r => by
    cases r with
    | ok => exact .pure ftype
    | error => exact senseLoop_quiet floppyid ftype _

theorem floppyMediaSense_quiet (floppyid ftype : Nat) :
    QuietRun (floppyMediaSense world floppyid ftype) :=
  (senseType_quiet floppyid ftype).bind fun _ =>
    .change fun _ => ⟨rfl, rfl, rfl, fun _ _ => Iff.rfl, [], (List.append_nil _).symm, nofun⟩

end

end ItxLlama.Seabios.Floppy
