import Mathlib.Data.BitVec

/-!
# Packets of the PS/2 mouse

The INT 15h functions of `mouse.c`, the interrupt that stores a byte, and the
mouse at the other end of the wire. What a command returns in its parameters
is not followed.
-/

namespace ItxLlama.Seabios.Mouse

inductive MouseCommand where
  | setScale11
  | setScale21
  | setRes
  | getInfo
  | getId
  | setRate
  | enable
  | disable
  | resetBat
  deriving DecidableEq, Repr

-- ---------------------------------------------------------------------------
-- The mouse
-- ---------------------------------------------------------------------------

/-- `sent` are the bytes of the packet that it is sending. -/
structure Device where
  enabled : Bool
  sent : List (BitVec 8)
  deriving DecidableEq, Repr

def packetSize : Nat := 3

def Device.send (mouse : Device) (v : BitVec 8) : Device :=
  { mouse with sent := if mouse.sent.length + 1 < packetSize then mouse.sent ++ [v] else [] }

/-- Behind a command the mouse starts a fresh packet. -/
def Device.receive (mouse : Device) (command : MouseCommand) : Device :=
  { sent := []
    enabled :=
      match command with
      | .enable => true
      | .disable | .resetBat => false
      | _ => mouse.enabled }

-- ---------------------------------------------------------------------------
-- The byte handler
-- ---------------------------------------------------------------------------

structure Ebda where
  mouseFlag1 : BitVec 8
  mouseFlag2 : BitVec 8
  mouseData : List (BitVec 8)
  farCallPointer : BitVec 32
  deriving DecidableEq, Repr

structure State where
  ebda : Ebda
  ps2ctr : BitVec 8
  mouse : Device
  deriving DecidableEq, Repr

/-- The status, X and Y that the handler is called with. -/
abbrev Invocation := BitVec 8 × BitVec 8 × BitVec 8

def invokeMouseHandler (e : Ebda) : Invocation :=
  (e.mouseData.getD 0 0, e.mouseData.getD 1 0, e.mouseData.getD 2 0)

def Ebda.index (e : Ebda) : Nat := (e.mouseFlag1 &&& 0x07).toNat
def Ebda.packageCount (e : Ebda) : Nat := (e.mouseFlag2 &&& 0x07).toNat

/-- The far call handler is installed. -/
def Ebda.Installed (e : Ebda) : Prop := e.mouseFlag2 &&& 0x80 ≠ 0

instance (e : Ebda) : Decidable e.Installed := inferInstanceAs (Decidable (_ ≠ _))

def processMouse (e : Ebda) (data : BitVec 8) : Ebda × Option Invocation :=
  if ¬ e.Installed then (e, none)
  else
    let stored := { e with mouseData := e.mouseData.set e.index data }
    if e.index + 1 < e.packageCount then ({ stored with mouseFlag1 := e.mouseFlag1 + 1 }, none)
    else ({ stored with mouseFlag1 := 0 }, some (invokeMouseHandler stored))

def i8042CtrAuxint : BitVec 8 := 0x02
def i8042CtrAuxdis : BitVec 8 := 0x20

def State.AuxInt (s : State) : Prop := s.ps2ctr &&& i8042CtrAuxint ≠ 0

instance (s : State) : Decidable s.AuxInt := inferInstanceAs (Decidable (_ ≠ _))

/-- `handle_74` with a byte of the mouse in the controller. -/
def handle74 (s : State) (v : BitVec 8) : State × Option Invocation :=
  if ¬ s.AuxInt then (s, none)
  else ({ s with ebda := (processMouse s.ebda v).1 }, (processMouse s.ebda v).2)

-- ---------------------------------------------------------------------------
-- Commands
-- ---------------------------------------------------------------------------

/-- What happens on the wire: a byte of the mouse that raises its interrupt,
one that a command in progress discards, and a command that the mouse
receives. -/
inductive Wire where
  | irq (v : BitVec 8)
  | lost (v : BitVec 8)
  | received (command : MouseCommand)
  deriving DecidableEq, Repr

def State.wire (s : State) : Wire → State × Option Invocation
  | .irq v => handle74 { s with mouse := s.mouse.send v } v
  | .lost v => ({ s with mouse := s.mouse.send v }, none)
  | .received command => ({ s with mouse := s.mouse.receive command }, none)

/-- Something on the wire, with the state before it. -/
structure Moment where
  before : State
  wire : Wire
  deriving DecidableEq, Repr

def Moment.after (m : Moment) : State := (m.before.wire m.wire).1
def Moment.invocation (m : Moment) : Option Invocation := (m.before.wire m.wire).2

def runWires (s : State) : List Wire → State × List Moment
  | [] => (s, [])
  | w :: ws =>
    let m : Moment := ⟨s, w⟩
    ((runWires m.after ws).1, m :: (runWires m.after ws).2)

inductive Traffic where
  | irq (v : BitVec 8)
  | lost (v : BitVec 8)
  | received
  deriving DecidableEq, Repr

def Traffic.wire (command : MouseCommand) : Traffic → Wire
  | irq v => .irq v
  | lost v => .lost v
  | received => .received command

/-- What a call of `ps2_command` meets on the wire, and what it returns. Bytes
may come in before the command, in place of its acknowledgement and behind
it; a command with a parameter is received twice. -/
structure Exchange where
  traffic : List Traffic
  ret : Int
  deriving DecidableEq, Repr

structure Outcome (α : Type) where
  state : State
  log : List Moment
  result : α

/-- `mouse_command` without a USB mouse -/
def ps2MouseCommand (s : State) (command : MouseCommand) (x : Exchange) : Outcome Int :=
  let ps2ctr :=
    match command with
    | .enable => (s.ps2ctr ||| i8042CtrAuxint) &&& ~~~i8042CtrAuxdis
    | .disable => (s.ps2ctr ||| i8042CtrAuxdis) &&& ~~~i8042CtrAuxint
    | _ => s.ps2ctr
  let r := runWires { s with ps2ctr } (x.traffic.map (·.wire command))
  ⟨r.1, r.2, x.ret⟩

inductive Code where
  | success
  | invalid (code : Nat)
  | unimplemented (code : Nat)
  deriving DecidableEq, Repr

def retEinvfunction : Nat := 0x01
def retEinvinput : Nat := 0x02
def retEinterface : Nat := 0x03
def retEneedresend : Nat := 0x04
def retEnohandler : Nat := 0x05

/-- The functions that send one command. -/
def commandCall (s : State) (command : MouseCommand) (x : Exchange) : Outcome Code :=
  let r := ps2MouseCommand s command x
  ⟨r.state, r.log, if r.result ≠ 0 then .invalid retEneedresend else .success⟩

def refuse (s : State) (code : Code) : Outcome Code := ⟨s, [], code⟩

def mouse15c20000 (s : State) := commandCall s .disable

def mouse15c20001 (s : State) (x : Exchange) : Outcome Code :=
  if ¬ s.ebda.Installed then refuse s (.invalid retEnohandler) else commandCall s .enable x

def mouse15c200 (s : State) (bh : Nat) (x : Exchange) : Outcome Code :=
  match bh with
  | 0x00 => mouse15c20000 s x
  | 0x01 => mouse15c20001 s x
  | _ => refuse s (.unimplemented retEinvfunction)

def mouse15c201 (s : State) := commandCall s .resetBat

def sampleRates : List Nat := [10, 20, 40, 60, 80, 100, 200]

def mouse15c202 (s : State) (bh : Nat) (x : Exchange) : Outcome Code :=
  if bh ≥ sampleRates.length then refuse s (.invalid retEinvinput) else commandCall s .setRate x

def mouse15c203 (s : State) (bh : Nat) (x : Exchange) : Outcome Code :=
  if bh ≥ 4 then refuse s (.invalid retEinvinput) else commandCall s .setRes x

def mouse15c204 (s : State) := commandCall s .getId

def mouse15c205 (s : State) (bh : Nat) (x : Exchange) : Outcome Code :=
  if bh ≠ 3 then refuse s (.invalid retEinterface)
  else
    mouse15c201 { s with ebda := { s.ebda with mouseFlag1 := 0x00, mouseFlag2 := BitVec.ofNat 8 bh } } x

def mouse15c206 (s : State) (bh : Nat) (x : Exchange) : Outcome Code :=
  match bh with
  | 0x00 => commandCall s .getInfo x
  | 0x01 => commandCall s .setScale11 x
  | 0x02 => commandCall s .setScale21 x
  | _ => refuse s (.unimplemented retEinvfunction)

/-- `mouse_flag2` and the address of the handler. -/
def State.setHandler (s : State) (mouseFlags2 : BitVec 8) (farptr : BitVec 32) : State :=
  { s with ebda := { s.ebda with mouseFlag2 := mouseFlags2, farCallPointer := farptr } }

def mouse15c207 (s : State) (farptr : BitVec 32) (x : Exchange) : Outcome Code :=
  let mouseFlags2 := s.ebda.mouseFlag2
  if farptr = 0 then
    -- remove handler
    if s.ebda.Installed then
      let r := ps2MouseCommand s .disable x
      ⟨r.state.setHandler (mouseFlags2 &&& ~~~0x80) farptr, r.log, .success⟩
    else ⟨s.setHandler mouseFlags2 farptr, [], .success⟩
  else ⟨s.setHandler (mouseFlags2 ||| 0x80) farptr, [], .success⟩

structure Regs where
  al : Nat
  bh : Nat
  farptr : BitVec 32
  deriving DecidableEq, Repr

def handle15c2 (s : State) (regs : Regs) (x : Exchange) : Outcome Code :=
  match regs.al with
  | 0x00 => mouse15c200 s regs.bh x
  | 0x01 => mouse15c201 s x
  | 0x02 => mouse15c202 s regs.bh x
  | 0x03 => mouse15c203 s regs.bh x
  | 0x04 => mouse15c204 s x
  | 0x05 => mouse15c205 s regs.bh x
  | 0x06 => mouse15c206 s regs.bh x
  | 0x07 => mouse15c207 s regs.farptr x
  | _ => refuse s (.unimplemented retEinvfunction)

-- ---------------------------------------------------------------------------
-- Runs
-- ---------------------------------------------------------------------------

/-- A call of INT 15h, or a byte of the mouse between the calls. -/
inductive Event where
  | call (regs : Regs) (x : Exchange)
  | byte (v : BitVec 8)
  deriving DecidableEq, Repr

def step (s : State) : Event → State × List Moment
  | .call regs x => ((handle15c2 s regs x).state, (handle15c2 s regs x).log)
  | .byte v => runWires s [.irq v]

def run (s : State) : List Event → State × List Moment
  | [] => (s, [])
  | e :: es => ((run (step s e).1 es).1, (step s e).2 ++ (run (step s e).1 es).2)

/-- INT 15h C205 with packet size 3. -/
def initialise (farptr : BitVec 32) (x : Exchange) : Event := .call ⟨0x05, 3, farptr⟩ x

/-- The mouse sends while it is enabled only. -/
def Moment.Legal (m : Moment) : Prop :=
  match m.wire with
  | .received _ => True
  | _ => m.before.mouse.enabled = true

instance (m : Moment) : Decidable m.Legal := by
  unfold Moment.Legal
  cases m.wire <;> infer_instance

/-- The byte handler is to store a byte now. -/
def State.Stores (s : State) : Prop := s.AuxInt ∧ s.ebda.Installed

instance (s : State) : Decidable s.Stores := inferInstanceAs (Decidable (_ ∧ _))

/-- A stored byte is in `mouse_data`; the handler is called with the packet
that the byte ends. -/
def Moment.Framed (m : Moment) : Prop :=
  match m.wire with
  | .irq v => (m.before.Stores → m.before.ebda.index < m.before.ebda.mouseData.length) ∧
      ∀ status x y, m.invocation = some (status, x, y) → m.before.mouse.sent ++ [v] = [status, x, y]
  | _ => True

/-- A command reaches the mouse, and a byte is discarded or not stored, only
where no byte of an unfinished packet has been stored; the byte stored first
starts a packet. -/
def Moment.Meets (m : Moment) : Prop :=
  match m.wire with
  | .irq _ =>
    if m.before.Stores then m.before.ebda.index = 0 → m.before.mouse.sent = []
    else m.before.ebda.index = 0
  | _ => m.before.ebda.index = 0

instance (m : Moment) : Decidable m.Meets := by
  unfold Moment.Meets
  cases m.wire <;> infer_instance

-- ---------------------------------------------------------------------------
-- The invariant
-- ---------------------------------------------------------------------------

/-- What has been stored of a packet is what the mouse has sent of it. -/
structure InStep (e : Ebda) (sent : List (BitVec 8)) : Prop where
  size : e.mouseData.length = 8
  count : e.packageCount = packetSize
  index_lt : e.index < packetSize
  sent_lt : sent.length < packetSize
  stored : e.index ≠ 0 → e.index = sent.length ∧ e.mouseData.take e.index = sent

section

variable {e : Ebda} {sent : List (BitVec 8)} {v status x y : BitVec 8} {s : State} {m : Moment}

theorem InStep.idle (h : InStep e sent) (hindex : e.index = 0) (hsent : sent'.length < packetSize) :
    InStep e sent' :=
  ⟨h.size, h.count, h.index_lt, hsent, fun hne => absurd hindex hne⟩

theorem InStep.inBounds (h : InStep e sent) : e.index < e.mouseData.length := by
  rw [h.size]
  exact Nat.lt_trans h.index_lt (by decide)

theorem Device.length_send (mouse : Device) (v : BitVec 8) :
    (mouse.send v).sent.length < packetSize := by
  unfold send
  split
  · rw [List.length_append]
    assumption
  · exact Nat.zero_lt_succ _

theorem index_succ (e : Ebda) (h : e.index + 1 < packetSize) :
    (e.mouseFlag1 + 1 &&& 0x07).toNat = e.index + 1 := by
  have hmod (b : BitVec 8) : (b &&& 0x07).toNat = b.toNat % 8 := by
    rw [BitVec.toNat_and]
    exact Nat.and_two_pow_sub_one_eq_mod b.toNat 3
  have hone : (1 : BitVec 8).toNat = 1 := rfl
  have hindex : e.index = e.mouseFlag1.toNat % 8 := hmod e.mouseFlag1
  unfold packetSize at h
  rw [hmod, BitVec.toNat_add, hone, hindex]
  omega

theorem take_set_succ {l : List (BitVec 8)} (h : i < l.length) (v : BitVec 8) :
    (l.set i v).take (i + 1) = l.take i ++ [v] := by
  have hi : i < (l.set i v).length := List.length_set.symm ▸ h
  rw [List.take_succ_eq_append_getElem hi, List.getElem_set_self,
    List.take_set_of_le (Nat.le_refl i)]

theorem invokeMouseHandler_take (h : 3 ≤ e.mouseData.length)
    (hcall : invokeMouseHandler e = (status, x, y)) : e.mouseData.take 3 = [status, x, y] := by
  obtain ⟨rfl, rfl, rfl⟩ : _ ∧ _ ∧ _ := by
    simpa only [invokeMouseHandler, Prod.mk.injEq] using hcall
  match hdata : e.mouseData with
  | [] | [_] | [_, _] =>
    rw [hdata] at h
    exact absurd h (Nat.not_le_of_lt (by simp only [List.length_cons, List.length_nil]; decide))
  | a :: b :: c :: _ => rfl

theorem InStep.take_set (h : InStep e sent) (hfirst : e.index = 0 → sent = []) (v : BitVec 8) :
    e.index = sent.length ∧ (e.mouseData.set e.index v).take (e.index + 1) = sent ++ [v] := by
  rw [take_set_succ h.inBounds]
  by_cases hzero : e.index = 0
  · rw [hfirst hzero, hzero]
    exact ⟨rfl, rfl⟩
  · obtain ⟨hlen, htake⟩ := h.stored hzero
    exact ⟨hlen, congrArg (· ++ [v]) htake⟩

theorem InStep.processMouse (h : InStep e sent) (hinstalled : e.Installed) (v : BitVec 8)
    (hfirst : e.index = 0 → sent = []) :
    InStep (processMouse e v).1 (if sent.length + 1 < packetSize then sent ++ [v] else []) ∧
      ∀ status x y, (Mouse.processMouse e v).2 = some (status, x, y) →
        sent ++ [v] = [status, x, y] := by
  obtain ⟨hlen, htake⟩ := h.take_set hfirst v
  have hsize : (e.mouseData.set e.index v).length = 8 := List.length_set.trans h.size
  rw [Mouse.processMouse, if_neg (not_not.mpr hinstalled), h.count, ← hlen]
  by_cases hmore : e.index + 1 < packetSize
  · have hnext := index_succ e hmore
    rw [if_pos hmore, if_pos hmore]
    refine ⟨⟨hsize, h.count, ?_, ?_, fun _ => ⟨?_, ?_⟩⟩, nofun⟩
    · exact Nat.lt_of_le_of_lt (Nat.le_of_eq hnext) hmore
    · rwa [List.length_append, List.length_singleton, ← hlen]
    · rw [List.length_append, List.length_singleton, ← hlen]
      exact hnext
    · exact (congrArg (List.take · _) hnext).trans htake
  · have hlast : e.index + 1 = 3 := by
      have hlt := h.index_lt
      unfold packetSize at hlt hmore
      omega
    rw [if_neg hmore, if_neg hmore]
    refine ⟨⟨hsize, h.count, ?_, Nat.zero_lt_succ _, fun hne => absurd ?_ hne⟩,
      fun status x y hcall => ?_⟩
    · show ((0 : BitVec 8) &&& 0x07).toNat < 3
      decide
    · show ((0 : BitVec 8) &&& 0x07).toNat = 0
      decide
    · rw [hlast] at htake
      rw [← htake]
      exact invokeMouseHandler_take (e := { e with mouseData := e.mouseData.set e.index v })
        (Nat.le_trans (by decide) (Nat.le_of_eq hsize.symm)) (Option.some.inj hcall)

theorem wire_stores (h : s.Stores) (v : BitVec 8) : s.wire (.irq v) =
    ({ s with mouse := s.mouse.send v, ebda := (processMouse s.ebda v).1 },
      (processMouse s.ebda v).2) :=
  if_neg (not_not.mpr h.1)

theorem wire_drops (h : ¬ s.Stores) (v : BitVec 8) :
    s.wire (.irq v) = ({ s with mouse := s.mouse.send v }, none) := by
  by_cases hint : s.AuxInt
  · have hnot : processMouse s.ebda v = (s.ebda, none) :=
      if_pos fun hinstalled => h ⟨hint, hinstalled⟩
    have hrun : s.wire (.irq v) = ({ s with mouse := s.mouse.send v, ebda := (processMouse s.ebda v).1 },
        (processMouse s.ebda v).2) := if_neg (not_not.mpr hint)
    rw [hrun, hnot]
  · exact if_pos hint

abbrev State.InStep (s : State) : Prop := Mouse.InStep s.ebda s.mouse.sent

theorem InStep.moment (h : m.before.InStep) (hmeets : m.Meets) : m.Framed ∧ m.after.InStep := by
  obtain ⟨s, w⟩ := m
  cases w with
  | irq v =>
    by_cases hstores : s.Stores
    · have hfirst : s.ebda.index = 0 → s.mouse.sent = [] := (if_pos hstores).mp hmeets
      obtain ⟨hafter, hframed⟩ := h.processMouse hstores.2 v hfirst
      have hrun := wire_stores hstores v
      refine ⟨⟨fun _ => h.inBounds, fun status x y hcall => hframed status x y ?_⟩, ?_⟩
      · rw [← hcall, Moment.invocation, hrun]
      · rw [Moment.after, hrun]
        exact hafter
    · have hindex : s.ebda.index = 0 := (if_neg hstores).mp hmeets
      have hrun := wire_drops hstores v
      refine ⟨⟨fun hstores' => absurd hstores' hstores, fun status x y hcall => ?_⟩, ?_⟩
      · rw [Moment.invocation, hrun] at hcall
        exact absurd hcall nofun
      · rw [Moment.after, hrun]
        exact h.idle hindex (s.mouse.length_send v)
  | lost v => exact ⟨trivial, h.idle hmeets (s.mouse.length_send v)⟩
  | received command => exact ⟨trivial, h.idle hmeets (Nat.zero_lt_succ _)⟩

/-- What a piece of a run keeps: if all in its log meets the condition, all is
framed, and the state stays in step. -/
def Keeps (s' : State) (log : List Moment) : Prop :=
  (∀ m ∈ log, m.Meets) → (∀ m ∈ log, m.Framed) ∧ s'.InStep

theorem keeps_nil (h : s.InStep) : Keeps s [] := fun _ => ⟨nofun, h⟩

theorem runWires_keeps (h : s.InStep) (ws : List Wire) :
    Keeps (runWires s ws).1 (runWires s ws).2 := by
  induction ws generalizing s with
  | nil => exact keeps_nil h
  | cons w ws ih =>
    intro hmeets
    obtain ⟨hfirst, hrest⟩ := List.forall_mem_cons.mp hmeets
    obtain ⟨hframed, hafter⟩ := h.moment (m := ⟨s, w⟩) hfirst
    obtain ⟨hlog, hend⟩ := ih hafter hrest
    exact ⟨List.forall_mem_cons.mpr ⟨hframed, hlog⟩, hend⟩

theorem ps2MouseCommand_keeps (h : s.InStep) (command : MouseCommand) (x : Exchange) :
    Keeps (ps2MouseCommand s command x).state (ps2MouseCommand s command x).log := by
  have hctr (ps2ctr : BitVec 8) : State.InStep { s with ps2ctr } := h
  exact runWires_keeps (hctr _) _

theorem setHandler_inStep (h : s.InStep) (hflags : (mouseFlags2 &&& 0x07).toNat = packetSize)
    (farptr : BitVec 32) : (s.setHandler mouseFlags2 farptr).InStep :=
  ⟨h.size, hflags, h.index_lt, h.sent_lt, h.stored⟩

theorem handler_flag (b : BitVec 8) :
    (b &&& ~~~0x80) &&& 0x07 = b &&& 0x07 ∧ (b ||| 0x80) &&& 0x07 = b &&& 0x07 := by
  revert b
  decide

theorem mouse15c207_keeps (h : s.InStep) (farptr : BitVec 32) (x : Exchange) :
    Keeps (mouse15c207 s farptr x).state (mouse15c207 s farptr x).log := by
  obtain ⟨hremove, hinstall⟩ := handler_flag s.ebda.mouseFlag2
  unfold mouse15c207
  by_cases hnull : farptr = 0
  · by_cases hinstalled : s.ebda.Installed
    · simp only [if_pos hnull, if_pos hinstalled]
      intro hmeets
      obtain ⟨hlog, hend⟩ := ps2MouseCommand_keeps h .disable x hmeets
      exact ⟨hlog, setHandler_inStep hend ((congrArg _ hremove).trans h.count) farptr⟩
    · simp only [if_pos hnull, if_neg hinstalled]
      exact keeps_nil (setHandler_inStep h h.count farptr)
  · simp only [if_neg hnull]
    exact keeps_nil (setHandler_inStep h ((congrArg _ hinstall).trans h.count) farptr)

theorem commandCall_keeps (h : s.InStep) (command : MouseCommand) (x : Exchange) :
    Keeps (commandCall s command x).state (commandCall s command x).log :=
  ps2MouseCommand_keeps h command x

/-- The array and the mouse; `mouse_flag1` and `mouse_flag2` may be anything. -/
structure State.WellFormed (s : State) : Prop where
  size : s.ebda.mouseData.length = 8
  sent_lt : s.mouse.sent.length < packetSize

theorem mouse15c205_keeps (h : s.WellFormed) (x : Exchange) :
    Keeps (mouse15c205 s 3 x).state (mouse15c205 s 3 x).log := by
  have hstart : InStep { s.ebda with mouseFlag1 := 0x00, mouseFlag2 := BitVec.ofNat 8 3 }
      s.mouse.sent := by
    have hindex : Ebda.index { s.ebda with mouseFlag1 := 0x00, mouseFlag2 := BitVec.ofNat 8 3 } = 0 := by
      show ((0 : BitVec 8) &&& 0x07).toNat = 0
      decide
    refine ⟨h.size, ?_, ?_, h.sent_lt, fun hne => absurd hindex hne⟩
    · show (BitVec.ofNat 8 3 &&& 0x07).toNat = 3
      decide
    · rw [hindex]
      exact Nat.zero_lt_succ _
  exact commandCall_keeps (s := { s with ebda := _ }) hstart .resetBat x

theorem handle15c2_keeps (h : s.InStep) (regs : Regs) (x : Exchange) :
    Keeps (handle15c2 s regs x).state (handle15c2 s regs x).log := by
  have command (c : MouseCommand) := commandCall_keeps h c x
  have refused (code : Code) : Keeps (refuse s code).state (refuse s code).log := keeps_nil h
  unfold handle15c2
  split
  · unfold mouse15c200
    split
    · exact command .disable
    · unfold mouse15c20001
      split
      · exact refused _
      · exact command .enable
    · exact refused _
  · exact command .resetBat
  · unfold mouse15c202
    split
    · exact refused _
    · exact command .setRate
  · unfold mouse15c203
    split
    · exact refused _
    · exact command .setRes
  · exact command .getId
  · by_cases hbh : regs.bh = 3
    · rw [hbh]
      exact mouse15c205_keeps ⟨h.size, h.sent_lt⟩ x
    · rw [mouse15c205, if_pos hbh]
      exact refused _
  · unfold mouse15c206
    split
    · exact command .getInfo
    · exact command .setScale11
    · exact command .setScale21
    · exact refused _
  · exact mouse15c207_keeps h regs.farptr x
  · exact refused _

theorem step_keeps (h : s.InStep) (e : Event) : Keeps (step s e).1 (step s e).2 := by
  cases e with
  | call regs x => exact handle15c2_keeps h regs x
  | byte v => exact runWires_keeps h [.irq v]

theorem Keeps.append (h : Keeps s log) (hrest : s.InStep → Keeps s' log') :
    Keeps s' (log ++ log') := by
  intro hmeets
  obtain ⟨hfirst, hlater⟩ := List.forall_mem_append.mp hmeets
  obtain ⟨hframed, hmid⟩ := h hfirst
  obtain ⟨hframed', hend⟩ := hrest hmid hlater
  exact ⟨List.forall_mem_append.mpr ⟨hframed, hframed'⟩, hend⟩

theorem run_keeps (h : s.InStep) (events : List Event) :
    Keeps (run s events).1 (run s events).2 := by
  induction events generalizing s with
  | nil => exact keeps_nil h
  | cons e events ih => exact (step_keeps h e).append fun hafter => ih hafter

end

theorem mouse_framed {s : State} (h : s.WellFormed) (farptr : BitVec 32) (x : Exchange)
    (events : List Event) (hmeets : ∀ m ∈ (run s (initialise farptr x :: events)).2, m.Meets) :
    ∀ m ∈ (run s (initialise farptr x :: events)).2, m.Framed :=
  ((mouse15c205_keeps h x).append (fun hafter => run_keeps hafter events) hmeets).1

/-- A mouse that does not send yet. -/
def unused : State := ⟨⟨0xff, 0xff, List.replicate 8 0, 0⟩, 0, ⟨false, []⟩⟩

/-- A handler is installed, and the mouse enabled. -/
def useMouse : List Event :=
  [.call ⟨0x07, 0, 0x12345678⟩ ⟨[], 0⟩, .call ⟨0x00, 0x01, 0⟩ ⟨[.received], 0⟩]

theorem unused_wellFormed : unused.WellFormed := ⟨rfl, by decide⟩

def onePacket : List Event := useMouse ++ [.byte 0x08, .byte 0x01, .byte 0x02]

theorem onePacket_meets :
    ∀ m ∈ (run unused (initialise 0 ⟨[.received], 0⟩ :: onePacket)).2, m.Meets := by
  decide +kernel

theorem mouse_framed_packet :
    unused.WellFormed ∧
      ∀ m ∈ (run unused (initialise 0 ⟨[.received], 0⟩ :: onePacket)).2, m.Framed :=
  ⟨unused_wellFormed,
    mouse_framed unused_wellFormed 0 ⟨[.received], 0⟩ onePacket onePacket_meets⟩

/-- A packet that is cut off behind its first byte, and the one that follows. -/
def cutOff : List Event := useMouse ++
  [.byte 0x08, .call ⟨0x00, 0x00, 0⟩ ⟨[.received], 0⟩, .call ⟨0x00, 0x01, 0⟩ ⟨[.received], 0⟩,
    .byte 0x18, .byte 0x05]

theorem mouse_cutOff :
    (∀ m ∈ (run unused (initialise 0 ⟨[.received], 0⟩ :: cutOff)).2, m.Legal) ∧
      ∃ m ∈ (run unused (initialise 0 ⟨[.received], 0⟩ :: cutOff)).2,
        m.invocation = some (0x08, 0x18, 0x05) ∧ ¬ m.Framed := by
  have hlegal : ∀ m ∈ (run unused (initialise 0 ⟨[.received], 0⟩ :: cutOff)).2, m.Legal := by
    decide +kernel
  have hcall : ∃ m ∈ (run unused (initialise 0 ⟨[.received], 0⟩ :: cutOff)).2,
      m.wire = .irq 0x05 ∧ m.invocation = some (0x08, 0x18, 0x05) ∧
        m.before.mouse.sent = [0x18] := by
    decide +kernel
  obtain ⟨m, hm, hwire, hinvocation, hsent⟩ := hcall
  refine ⟨hlegal, m, hm, hinvocation, fun hframed => ?_⟩
  rw [Moment.Framed, hwire] at hframed
  have hpacket := hframed.2 _ _ _ hinvocation
  rw [hsent] at hpacket
  exact absurd hpacket (by decide)

end ItxLlama.Seabios.Mouse
