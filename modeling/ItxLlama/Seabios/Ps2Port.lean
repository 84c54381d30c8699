import ItxLlama.Lib.Bytes
import ItxLlama.Lib.Mailbox

/-!
# The PS/2 port

`hw/ps2port.c`: the commands to a keyboard or a mouse and the two interrupt
handlers, over a controller with one command byte and one output buffer.
What the outside does is `Env`: the bytes the devices have to offer each time
the code looks, the interrupts delivered at each yield, and how often a wait
polls before its timer runs out. A command to the controller itself succeeds.
Every access that can be observed is recorded.
-/

namespace ItxLlama.Seabios.Ps2

open Lib.Bytes (Byte)

def i8042CtrKbdint : Byte := 0x01
def i8042CtrAuxint : Byte := 0x02
def i8042CtrKbddis : Byte := 0x10
def i8042CtrAuxdis : Byte := 0x20

def ps2RetAck : Byte := 0xfa
def ps2RetNak : Byte := 0xfe

def atkbdCmdGetid : BitVec 16 := 0x02f2
def atkbdCmdResetBat : BitVec 16 := 0x02ff
def psmouseCmdEnable : BitVec 16 := 0x00f4
def psmouseCmdDisable : BitVec 16 := 0x00f5

inductive Reader where
  | command
  | handler
  deriving DecidableEq, Repr

/-- What happens at the controller; `aux` is the mouse port. -/
inductive Event where
  /-- The command byte is written. -/
  | wctr (v : Byte)
  /-- `I8042_CMD_KBD_ENABLE`. -/
  | kbdEnable
  /-- A byte goes to a device. -/
  | send (aux : Bool) (b : Byte)
  /-- A byte of a device enters the output buffer. -/
  | load (aux : Bool) (b : Byte)
  /-- It is taken from there. -/
  | read (by_ : Reader) (aux : Bool) (b : Byte)
  deriving DecidableEq, Repr

inductive Irq where
  | irq1
  | irq12
  deriving DecidableEq, Repr

structure Env where
  bytes : Nat → List (Bool × Byte)
  irqs : Nat → List Irq
  polls : Nat → Nat

/-- The controller, the variable `Ps2ctr`, and the record. -/
structure Port where
  ctr : Byte
  ps2ctr : Byte
  obf : Bool
  aux : Bool
  data : Byte
  now : Nat
  trace : List Event
  deriving DecidableEq, Repr

def Port.tick (s : Port) : Port := { s with now := s.now + 1 }

def Port.log (e : Event) (s : Port) : Port := { s with trace := s.trace ++ [e] }

/-- The bit that disables a port. -/
def disBit (aux : Bool) : Byte := if aux then i8042CtrAuxdis else i8042CtrKbddis

def Disabled (aux : Bool) (ctr : Byte) : Prop := ctr &&& disBit aux ≠ 0

instance (aux : Bool) (ctr : Byte) : Decidable (Disabled aux ctr) :=
  inferInstanceAs (Decidable (_ ≠ _))

/-- A byte that a device offers. The buffer holds one, and a disabled port
holds its device off. -/
def Port.offer (s : Port) (x : Bool × Byte) : Port :=
  if s.obf = true ∨ Disabled x.1 s.ctr then s
  else { s with obf := true, aux := x.1, data := x.2 }.log (.load x.1 x.2)

/-- The devices, up to the next access of the code. -/
def Port.settle (env : Env) (s : Port) : Port := (env.bytes s.now).foldl Port.offer s.tick

/-- `inb(PORT_PS2_DATA)`; an empty buffer gives the last byte again. -/
def Port.inbData (by_ : Reader) (s : Port) : Port :=
  if s.obf then { s with obf := false }.log (.read by_ s.aux s.data) else s

-- ---------------------------------------------------------------------------
-- Commands to the controller
-- ---------------------------------------------------------------------------

/-- `i8042_command(I8042_CMD_CTL_WCTR, &v)`. -/
def Port.wctr (env : Env) (v : Byte) (s : Port) : Port :=
  { s.settle env with ctr := v }.log (.wctr v)

/-- `i8042_command(I8042_CMD_KBD_ENABLE, NULL)`. -/
def Port.kbdEnable (env : Env) (s : Port) : Port :=
  { s.settle env with ctr := (s.settle env).ctr &&& ~~~i8042CtrKbddis }.log .kbdEnable

/-- `i8042_kbd_write` and `i8042_aux_write`. -/
def Port.write (env : Env) (aux : Bool) (b : Byte) (s : Port) : Port :=
  (s.settle env).log (.send aux b)

-- ---------------------------------------------------------------------------
-- The interrupt handlers
-- ---------------------------------------------------------------------------

/-- INT 74h. What it does with the byte stays outside. -/
def handle74 (env : Env) (s : Port) : Port :=
  let s := s.settle env
  if s.obf = true ∧ s.aux = true then s.inbData .handler else s

/-- INT 09h. It reads without a look at the buffer's flag, and then some old
programs expect the keyboard to be on. -/
def handle09 (env : Env) (s : Port) : Port :=
  let s := s.settle env
  if s.aux = true then s
  else
    let s := (s.settle env).inbData .handler
    if s.ps2ctr &&& i8042CtrKbdint = 0 then s else s.kbdEnable env

def irqHandler (env : Env) (s : Port) : Irq → Port
  | .irq1 => handle09 env s
  | .irq12 => handle74 env s

/-- `yield()`: the interrupts delivered there, one after the other. -/
def Port.yield (env : Env) (s : Port) : Port := (env.irqs s.now).foldl (irqHandler env) s.tick

-- ---------------------------------------------------------------------------
-- Commands to a device
-- ---------------------------------------------------------------------------

/-- One pass of the loop of `ps2_recvbyte`. -/
def recvPoll (env : Env) (aux needack : Bool) (s : Port) : Option Byte × Port :=
  let s := s.settle env
  if s.obf then
    if s.aux = aux ∧ (needack = false ∨ s.data = ps2RetAck ∨ s.data = ps2RetNak) then
      (some s.data, s.inbData .command)
    else (none, s.inbData .command)
  else (none, s)

/-- The loop, with the passes left before `timer_check` ends it. -/
def recvLoop (env : Env) (aux needack : Bool) : Nat → Port → Option Byte × Port
  | 0, s => recvPoll env aux needack s
  | n + 1, s =>
    match recvPoll env aux needack s with
    | (some data, s) => (some data, s)
    | (none, s) => recvLoop env aux needack n (s.yield env)

def ps2Recvbyte (env : Env) (aux needack : Bool) (s : Port) : Option Byte × Port :=
  recvLoop env aux needack (env.polls s.now) s.tick

/-- Whether the byte was acknowledged. -/
def ps2Sendbyte (env : Env) (aux : Bool) (b : Byte) (s : Port) : Bool × Port :=
  match ps2Recvbyte env aux true (s.write env aux b) with
  | (some data, s) => (data = ps2RetAck, s)
  | (none, s) => (false, s)

def sendBytes (env : Env) (aux : Bool) : List Byte → Port → Bool × Port
  | [], s => (true, s)
  | b :: rest, s =>
    match ps2Sendbyte env aux b s with
    | (true, s) => sendBytes env aux rest s
    | (false, s) => (false, s)

def recvBytes (env : Env) (aux : Bool) : Nat → Port → Option (List Byte) × Port
  | 0, s => (some [], s)
  | n + 1, s =>
    match ps2Recvbyte env aux false s with
    | (none, s) => (none, s)
    | (some b, s) =>
      match recvBytes env aux n s with
      | (none, s) => (none, s)
      | (some rest, s) => (some (b :: rest), s)

/-- How many parameters a command sends, and how many it receives. -/
def sendCount (command : BitVec 16) : Nat := ((command >>> 12) &&& 0xf).toNat
def receiveCount (command : BitVec 16) : Nat := ((command >>> 8) &&& 0xf).toNat

/-- The ids that a second byte follows. -/
def keyboardIds : List Byte := [0xab, 0xac, 0x2b, 0x5d, 0x60, 0x47]

/-- The exchange with the device: the bytes stored to `param` where it
succeeds. -/
def exchange (env : Env) (aux : Bool) (command : BitVec 16) (param : List Byte) (s : Port) :
    Option (List Byte) × Port :=
  match ps2Sendbyte env aux (command.setWidth 8) s with
  | (false, s) => (none, s)
  | (true, s) =>
    if command = atkbdCmdResetBat then
      match ps2Recvbyte env aux false s with
      | (none, s) => (none, s)
      | (some first, s) =>
        match ps2Recvbyte env aux false s with
        | (none, s) => (some [first, 0], s)
        | (some second, s) => (some [first, second], s)
    else if command = atkbdCmdGetid then
      match ps2Recvbyte env aux false s with
      | (none, s) => (none, s)
      | (some first, s) =>
        if first ∈ keyboardIds then
          match ps2Recvbyte env aux false s with
          | (none, s) => (none, s)
          | (some second, s) => (some [first, second], s)
        else (some [first, 0], s)
    else
      match sendBytes env aux (param.take (sendCount command)) s with
      | (false, s) => (none, s)
      | (true, s) => recvBytes env aux (receiveCount command) s

/-- The command byte with both ports and both interrupts off. -/
def portsOff (ps2ctr : Byte) : Byte :=
  (ps2ctr ||| i8042CtrAuxdis ||| i8042CtrKbddis) &&& ~~~(i8042CtrKbdint ||| i8042CtrAuxint)

/-- From the first disable to the restore. -/
def bracket (env : Env) (aux : Bool) (command : BitVec 16) (param : List Byte) (newctr : Byte)
    (s : Port) : Option (List Byte) × Port :=
  exchange env aux command param ((s.yield env).wctr env (newctr &&& ~~~disBit aux))

def ps2Command (env : Env) (aux : Bool) (command : BitVec 16) (param : List Byte) (s : Port) :
    Option (List Byte) × Port :=
  let ps2ctr := s.ps2ctr
  let newctr := portsOff ps2ctr
  match bracket env aux command param newctr (s.wctr env newctr) with
  | (ret, s) => (ret, s.wctr env ps2ctr)

def ps2KbdCommand (env : Env) (command : BitVec 16) (param : List Byte) (s : Port) :
    Option (List Byte) × Port :=
  ps2Command env false command param s

/-- What `ps2_mouse_command` makes of `Ps2ctr` first. -/
def mouseCtr (command : BitVec 16) (ps2ctr : Byte) : Byte :=
  if command = psmouseCmdEnable then (ps2ctr ||| i8042CtrAuxint) &&& ~~~i8042CtrAuxdis
  else if command = psmouseCmdDisable then (ps2ctr ||| i8042CtrAuxdis) &&& ~~~i8042CtrAuxint
  else ps2ctr

def ps2MouseCommand (env : Env) (command : BitVec 16) (param : List Byte) (s : Port) :
    Option (List Byte) × Port :=
  ps2Command env true command param { s with ps2ctr := mouseCtr command s.ps2ctr }

end ItxLlama.Seabios.Ps2
