import ItxLlama.Lib.Digits
import ItxLlama.Lib.Word
import Mathlib.Data.Option.Basic
import Mathlib.Logic.Function.Basic

/-!
# The console in CBMEM

`lib/cbmem_console.c`: a stage logs to a buffer of its own until CBMEM is there,
then `cbmemc_reinit` appends that buffer to the one in CBMEM. A buffer's cursor
goes on past its size.
-/

namespace ItxLlama.Coreboot.CbmemConsole

open Lib.Word Lib.Wrap Lib.Digits

abbrev Byte := BitVec 8

/-- `struct cbmem_console`, and the memory from its body on. -/
structure Console where
  bufferSize : Nat
  bufferCursor : Nat
  bufferBody : Nat → Byte

def sizeofConsole : Nat := 8

/-- `cbmem_console_p`, which is the stage's own buffer, the one in CBMEM or NULL. -/
inductive Current where
  | boot
  | cbmem
  | null
  deriving DecidableEq, Repr

structure World where
  current : Current
  boot : Console
  cbmem : Option Console

/-- Bytes stored from a place on. -/
def store (body : Nat → Byte) (start : Nat) (l : List Byte) : Nat → Byte := fun i =>
  if start ≤ i ∧ i < start + l.length then l.getD (i - start) 0 else body i

def bytes (s : List Char) : List Byte := s.map fun c => .ofNat 8 c.toNat

def lossStr1 : List Byte := bytes "\n\n*** Log truncated, ".toList

def lossStr2 : List Byte := bytes " characters dropped. ***\n\n".toList

-- ---------------------------------------------------------------------------
-- The code
-- ---------------------------------------------------------------------------

def initConsolePtr (storage : Nat → Byte) (totalSpace : Nat) : Console :=
  ⟨sub32 totalSpace sizeofConsole, 0, storage⟩

def cbmemcTxByte (c : Console) (data : Byte) : Console :=
  { c with
    bufferCursor := u32 (c.bufferCursor + 1)
    bufferBody :=
      if c.bufferCursor < c.bufferSize then Function.update c.bufferBody c.bufferCursor data
      else c.bufferBody }

/-- The loop over the values of `mult`. -/
def putDigits : (mults : List Nat) → (gotFirstDigit : Bool) → (droppedChars : Nat) →
    (Nat → Byte) × Nat → (Nat → Byte) × Nat
  | [], _, _, out => out
  | mult :: mults, gotFirstDigit, droppedChars, (body, cursor) =>
    let digit := droppedChars / mult
    if gotFirstDigit || decide (digit ≠ 0) then
      putDigits mults true (droppedChars % mult)
        (Function.update body cursor (.ofNat 8 (digit + 48)), u32 (cursor + 1))
    else putDigits mults gotFirstDigit droppedChars (body, cursor)

def mults : List Nat := [100000, 10000, 1000, 100, 10, 1]

def copyConsoleBuffer (new old : Console) : Console :=
  let overflow := old.bufferCursor > old.bufferSize
  let copySize := if overflow then old.bufferSize else old.bufferCursor
  let body := store new.bufferBody new.bufferCursor ((List.range copySize).map old.bufferBody)
  let cursor := u32 (new.bufferCursor + copySize)
  if overflow then
    let droppedChars := sub32 old.bufferCursor copySize
    let body := store body cursor (lossStr1 ++ [0])
    let cursor := u32 (cursor + lossStr1.length)
    let out := putDigits mults false droppedChars (body, cursor)
    let body := store out.1 out.2 (lossStr2 ++ [0])
    let cursor := u32 (out.2 + lossStr2.length)
    { new with bufferBody := body, bufferCursor := cursor }
  else { new with bufferBody := body, bufferCursor := cursor }

/-- A stage starts, a byte is logged, or the stage's buffer is moved to CBMEM: in
the stages before RAM without `cbmem_find`, and with what `cbmem_add` gives. -/
inductive Event where
  | init (storage : Nat → Byte) (totalSpace : Nat)
  | txByte (data : Byte)
  | reinit (preRam : Bool) (added : Option (Nat → Byte))

/-- `CONFIG_CONSOLE_CBMEM_BUFFER_SIZE` -/
structure Config where
  cbmemBufferSize : Nat
  lower : sizeofConsole ≤ cbmemBufferSize
  upper : cbmemBufferSize < 2 ^ 32

/-- The console that `cbmemc_reinit` finds or adds. -/
def target {α : Type} (preRam : Bool) (found : Option α) (added : Option α) : Option α :=
  match if preRam then none else found with
  | some c => some c
  | none => added

def cbmemcReinit (cfg : Config) (preRam : Bool) (added : Option (Nat → Byte)) (w : World) : World :=
  match target preRam w.cbmem (added.map (initConsolePtr · cfg.cbmemBufferSize)) with
  | none => { w with current := .null }
  | some new => { w with current := .cbmem, cbmem := some (copyConsoleBuffer new w.boot) }

def Event.step (cfg : Config) (w : World) : Event → World
  | init storage totalSpace =>
    { w with current := .boot, boot := initConsolePtr storage totalSpace }
  | txByte data =>
    match w.current with
    | .boot => { w with boot := cbmemcTxByte w.boot data }
    | .cbmem => { w with cbmem := w.cbmem.map (cbmemcTxByte · data) }
    | .null => w
  | reinit preRam added => cbmemcReinit cfg preRam added w

def run (cfg : Config) (w : World) (es : List Event) : World := es.foldl (Event.step cfg) w

-- ---------------------------------------------------------------------------
-- What it is for
-- ---------------------------------------------------------------------------

/-- All that was sent to a console. It keeps as much as its size, and the memory
behind is not its own. -/
structure Log where
  size : Nat
  text : List Byte
  behind : Nat → Byte

structure Logs where
  current : Current
  boot : Log
  cbmem : Option Log

def notice (dropped : Nat) : List Byte := lossStr1 ++ bytes (Nat.toDigits 10 dropped) ++ lossStr2

/-- What a log is worth in another one. -/
def Log.kept (l : Log) : List Byte :=
  l.text.take l.size ++
    if l.size < l.text.length then notice (l.text.length - l.size) else []

def newLog (storage : Nat → Byte) (totalSpace : Nat) : Log :=
  ⟨totalSpace - sizeofConsole, [], storage⟩

def Log.append (l : Log) (more : List Byte) : Log := { l with text := l.text ++ more }

def Logs.target (cfg : Config) (ls : Logs) (preRam : Bool) (added : Option (Nat → Byte)) :
    Option Log :=
  CbmemConsole.target preRam ls.cbmem (added.map (newLog · cfg.cbmemBufferSize))

def Event.specify (cfg : Config) (ls : Logs) : Event → Logs
  | init storage totalSpace => { ls with current := .boot, boot := newLog storage totalSpace }
  | txByte data =>
    match ls.current with
    | .boot => { ls with boot := ls.boot.append [data] }
    | .cbmem => { ls with cbmem := ls.cbmem.map (·.append [data]) }
    | .null => ls
  | reinit preRam added =>
    match ls.target cfg preRam added with
    | none => { ls with current := .null }
    | some new => { ls with current := .cbmem, cbmem := some (new.append ls.boot.kept) }

def specify (cfg : Config) (ls : Logs) (es : List Event) : Logs := es.foldl (Event.specify cfg) ls

/-- A console holds a log, cut at its size, and has left what is behind. -/
structure Holds (c : Console) (l : Log) : Prop where
  bufferSize : c.bufferSize = l.size
  bufferCursor : c.bufferCursor = l.text.length
  size_lt : l.size < 2 ^ 32
  length_lt : l.text.length < 2 ^ 32
  body : ∀ i (h : i < l.text.length), i < l.size → c.bufferBody i = l.text[i]
  behind : ∀ i, l.size ≤ i → c.bufferBody i = l.behind i

/-- What a console holds at first. -/
def Console.log (c : Console) : Log :=
  ⟨c.bufferSize, (List.range c.bufferCursor).map c.bufferBody, c.bufferBody⟩

def World.logs (w : World) : Logs := ⟨w.current, w.boot.log, w.cbmem.map Console.log⟩

structure Right (w : World) (ls : Logs) : Prop where
  current : w.current = ls.current
  boot : Holds w.boot ls.boot
  cbmem : Option.Rel Holds w.cbmem ls.cbmem

/-- The fields of a console are 32-bit numbers. -/
def Console.WellFormed (c : Console) : Prop := c.bufferSize < 2 ^ 32 ∧ c.bufferCursor < 2 ^ 32

/-- What a stage has kept fits behind a log: the copy, or the copy and a notice with
its NUL, whose number has at most six digits. -/
def Fits (src dst : Log) : Prop :=
  if src.size < src.text.length then
    src.text.length - src.size < 1000000 ∧ dst.text.length + src.kept.length < dst.size
  else src.text = [] ∨ dst.text.length + src.text.length ≤ dst.size

instance (src dst : Log) : Decidable (Fits src dst) := by
  unfold Fits
  infer_instance

/-- The buffers have 32-bit sizes, logs go to CBMEM from a stage's own buffer, no
cursor wraps, and what is moved fits. -/
def Event.Allowed (cfg : Config) (ls : Logs) : Event → Prop
  | init _ totalSpace => sizeofConsole ≤ totalSpace ∧ totalSpace < 2 ^ 32
  | txByte _ =>
    match ls.current with
    | .boot => ls.boot.text.length + 1 < 2 ^ 32
    | .cbmem => ∀ l, ls.cbmem = some l → l.text.length + 1 < 2 ^ 32
    | .null => True
  | reinit preRam added =>
    ls.current = .boot ∧ ∀ dst, ls.target cfg preRam added = some dst → Fits ls.boot dst

def Allowed (cfg : Config) (ls : Logs) : List Event → Prop
  | [] => True
  | e :: es => e.Allowed cfg ls ∧ Allowed cfg (e.specify cfg ls) es

end ItxLlama.Coreboot.CbmemConsole
