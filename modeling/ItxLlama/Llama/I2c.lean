import ItxLlama.Llama.SpiFlash

/-!
# I2C controller

`llama_i2c.c`, with the register access of `llama_emc2303.c` and
`llama_leds.c` on top. Each access of the ports and each wait happens at a
time of its own; what the controller answers there is up to `I2cEnv`.
-/

namespace ItxLlama.Llama

-- ---------------------------------------------------------------------------
-- The controller
-- ---------------------------------------------------------------------------

/-- A write to a register of the controller, or a read of its data register. -/
inductive I2cOp where
  | ctrl (val : Byte)
  | stat (val : Byte)
  | addr (val : Byte)
  | data (val : Byte)
  | read (val : Byte)
  deriving DecidableEq, Repr

/-- A wait polls one register. `reads` are the values it has, read by read, and
`deadline` is the number of passes after which `timer_check` is true. -/
structure Wait where
  deadline : Nat
  reads : Nat → Byte

structure I2cEnv where
  wait : Nat → Wait
  ctrl : Nat → Byte
  data : Nat → Byte

structure I2c where
  now : Nat
  log : List I2cOp

def I2c.does (s : I2c) (ops : List I2cOp) : I2c := ⟨s.now + 1, s.log ++ ops⟩

/-- `for (;;)` up to the value that is waited for or the deadline; the number
of reads that the loop made. -/
def Wait.loop (w : Wait) (done : Byte → Bool) : (passes i : Nat) → Nat
  | 0, i => i + 1
  | passes + 1, i => if done (w.reads i) then i + 1 else w.loop done passes (i + 1)

/-- The read behind the loop. -/
def Wait.behind (w : Wait) (done : Byte → Bool) : Byte := w.reads (w.loop done w.deadline 0)

-- ---------------------------------------------------------------------------
-- Transfers
-- ---------------------------------------------------------------------------

section Source

variable (e : I2cEnv)

def i2cSetStop (s : I2c) : I2c := s.does [.ctrl (e.ctrl s.now ||| 0x02)]

def i2cSetAddress (addr rwBit : Byte) (s : I2c) : I2c := s.does [.addr ((addr <<< 1) + rwBit)]

def i2cReadByte (s : I2c) : Byte × I2c := (e.data s.now, s.does [.read (e.data s.now)])

def i2cWriteByte (data : Byte) (s : I2c) : I2c := s.does [.data data]

def txStat (w : Wait) : Byte := w.behind fun stat => stat &&& 0x20 ≠ 0

/-- No arbitration loss, an acknowledge, master mode, and the byte is out. -/
def txOk (w : Wait) : Bool :=
  txStat w &&& 0x18 = 0 ∧ txStat w &&& 0x01 ≠ 0 ∧ txStat w &&& 0x20 ≠ 0

def txClear (w : Wait) : List I2cOp :=
  let arLoss := if txStat w &&& 0x08 ≠ 0 then [.stat 0x08] else []
  let ackError := if txStat w &&& 0x10 ≠ 0 then [.stat 0x10] else []
  .stat 0x20 :: arLoss ++ ackError

def checkTxDone (s : I2c) : Bool × I2c := (txOk (e.wait s.now), s.does (txClear (e.wait s.now)))

def rxStat (w : Wait) : Byte := w.behind fun stat => stat &&& 0x40 ≠ 0

def rxOk (w : Wait) : Bool :=
  rxStat w &&& 0x08 = 0 ∧ rxStat w &&& 0x01 ≠ 0 ∧ rxStat w &&& 0x40 ≠ 0

def rxClear (w : Wait) : List I2cOp :=
  let arLoss := if rxStat w &&& 0x08 ≠ 0 then [.stat 0x08] else []
  .stat 0x40 :: arLoss

def checkRxDone (s : I2c) : Bool × I2c := (rxOk (e.wait s.now), s.does (rxClear (e.wait s.now)))

/-- The bit of the request is clear. -/
def stopOk (w : Wait) : Bool := (w.behind fun ctrl => ctrl &&& 0x02 = 0) &&& 0x02 = 0

def checkStopDone (s : I2c) : Bool × I2c := (stopOk (e.wait s.now), s.does [])

def i2cStart (addr rwBit : Byte) (s : I2c) :
    Bool × I2c := checkTxDone e (i2cSetAddress addr rwBit s)

/-- What the first pass does in front. -/
def i2cReadFirst (len i : Nat) (s : I2c) : I2c :=
  if i = 0 then
    let s := if i + 1 = len then i2cSetStop e s else s
    -- dummy read
    (i2cReadByte e s).2
  else s

/-- The rest of a pass, once a byte is there. -/
def i2cReadStore (len i : Nat) (s : I2c) : Bool × List Byte × I2c :=
  let s := if i + 2 = len then i2cSetStop e s else s
  let (data, s) := i2cReadByte e s
  let (ok, s) := if i + 1 = len then checkStopDone e s else (true, s)
  (ok, [data], s)

def i2cReadPass (len i : Nat) (s : I2c) : Bool × List Byte × I2c :=
  match checkRxDone e (i2cReadFirst e len i s) with
  | (false, s) => (false, [], s)
  | (true, s) => i2cReadStore e len i s

/-- The passes from `i` on. -/
def i2cReadLoop (len : Nat) : (passes i : Nat) → I2c → Bool × List Byte × I2c
  | 0, _, s => (true, [], s)
  | passes + 1, i, s =>
    match i2cReadPass e len i s with
    | (false, data, s) => (false, data, s)
    | (true, data, s) =>
      let (ok, rest, s) := i2cReadLoop len passes (i + 1) s
      (ok, data ++ rest, s)

def i2cRead (len : Nat) (s : I2c) : Bool × List Byte × I2c := i2cReadLoop e len len 0 s

def i2cWriteByteNoStop (data : Byte) (s : I2c) : Bool × I2c := checkTxDone e (i2cWriteByte data s)

def i2cWrite : List Byte → I2c → Bool × I2c
  | [], s => checkStopDone e (i2cSetStop e s)
  | data :: rest, s =>
    match checkTxDone e (i2cWriteByte data s) with
    | (false, s) => (false, s)
    | (true, s) => i2cWrite rest s

/-- `a && b` of two calls. -/
def andThen (a : Bool × I2c) (b : I2c → Bool × I2c) : Bool × I2c :=
  match a with
  | (false, s) => (false, s)
  | (true, s) => b s

-- ---------------------------------------------------------------------------
-- Registers of the devices
-- ---------------------------------------------------------------------------

def emc2303Addr : Byte := 0x2E
def ledsAddr : Byte := 0x20

/-- The end of both register reads. -/
def readValue (a : Bool × I2c) : Byte × I2c :=
  match a with
  | (false, s) => (0, s)
  | (true, s) =>
    match i2cRead e 1 s with
    | (true, data :: _, s) => (data, s)
    | (_, _, s) => (0, s)

def emcGetRegByte (reg : Byte) (s : I2c) : Byte × I2c :=
  readValue e (andThen (andThen (i2cStart e emc2303Addr 0 s) (i2cWrite e [reg]))
    (i2cStart e emc2303Addr 1))

def emcSetRegByte (reg regValue : Byte) (s : I2c) : Bool × I2c :=
  andThen (andThen (i2cStart e emc2303Addr 0 s) (i2cWriteByteNoStop e reg)) (i2cWrite e [regValue])

def ledsGetRegByte (reg : Byte) (s : I2c) : Byte × I2c :=
  readValue e (andThen (andThen (i2cStart e ledsAddr 0 s) (i2cWrite e [reg]))
    (i2cStart e ledsAddr 1))

def ledsSetRegByte (reg regValue : Byte) (s : I2c) : Bool × I2c :=
  andThen (andThen (andThen (i2cStart e ledsAddr 0 s) (i2cWrite e [reg])) (i2cStart e ledsAddr 0))
    (i2cWrite e [regValue])

end Source

end ItxLlama.Llama
