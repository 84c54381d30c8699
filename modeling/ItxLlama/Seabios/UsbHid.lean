import Mathlib.Data.List.Basic
import Mathlib.Logic.Function.Basic

/-!
# USB keyboard reports

`hw/usb-hid.c`: the report of a boot-protocol keyboard names the keys that are
down; `handle_key` compares it with the last one and pushes the scancodes of
what changed into the 8042. Every push is accepted here, so that a function
gives the bytes it pushes.
-/

namespace ItxLlama.Seabios.UsbHid

/-- From a USB key id to a ps2 key sequence. -/
def keyToScanCode : List Nat := [
  0x0000, 0x0000, 0x0000, 0x0000, 0x001e, 0x0030, 0x002e, 0x0020,
  0x0012, 0x0021, 0x0022, 0x0023, 0x0017, 0x0024, 0x0025, 0x0026,
  0x0032, 0x0031, 0x0018, 0x0019, 0x0010, 0x0013, 0x001f, 0x0014,
  0x0016, 0x002f, 0x0011, 0x002d, 0x0015, 0x002c, 0x0002, 0x0003,
  0x0004, 0x0005, 0x0006, 0x0007, 0x0008, 0x0009, 0x000a, 0x000b,
  0x001c, 0x0001, 0x000e, 0x000f, 0x0039, 0x000c, 0x000d, 0x001a,
  0x001b, 0x002b, 0x0000, 0x0027, 0x0028, 0x0029, 0x0033, 0x0034,
  0x0035, 0x003a, 0x003b, 0x003c, 0x003d, 0x003e, 0x003f, 0x0040,
  0x0041, 0x0042, 0x0043, 0x0044, 0x0057, 0x0058, 0xe037, 0x0046,
  0xe11d, 0xe052, 0xe047, 0xe049, 0xe053, 0xe04f, 0xe051, 0xe04d,
  0xe04b, 0xe050, 0xe048, 0x0045, 0xe035, 0x0037, 0x004a, 0x004e,
  0xe01c, 0x004f, 0x0050, 0x0051, 0x004b, 0x004c, 0x004d, 0x0047,
  0x0048, 0x0049, 0x0052, 0x0053, 0x0000, 0xe05d]

/-- From a USB modifier id to a ps2 key sequence. -/
def modifierToScanCode : List Nat :=
  -- lcntl, lshift, lalt, lgui, rcntl, rshift, ralt, rgui
  [0x001d, 0x002a, 0x0038, 0xe05b, 0xe01d, 0x0036, 0xe038, 0xe05c]

def releasebit : Nat := 0x80

def keyrepeatwaitms : Nat := 500

def keyrepeatms : Nat := 33

/-- `keys` has six slots, of bytes. -/
structure Keyevent where
  modifiers : BitVec 8
  keys : Nat → Nat

/-- `keys` has six slots, of bytes. -/
structure Usbkeyinfo where
  modifiers : BitVec 8
  repeatcount : Nat
  keys : Nat → Nat

def prockeys (keys : Nat) : List Nat :=
  if keys > 0xff then
    let key := keys >>> 8
    if key = 0xe1 then
      -- the pause key
      [0xe1, 0x1d ||| (keys &&& releasebit), 0x45 ||| (keys &&& releasebit)]
    else [key, keys % 256]
  else [keys % 256]

/-- A key press or release event. -/
def procscankey (key flags : Nat) : List Nat :=
  if key ≥ keyToScanCode.length then []
  else
    let keys := keyToScanCode.getD key 0
    if keys ≠ 0 then prockeys (keys ||| flags) else []

/-- The loop of `procmodkey`, which ends when no bit is left. -/
def procmodkeyLoop (flags i : Nat) (mods : BitVec 8) : List Nat :=
  if mods = 0 ∨ 8 ≤ i then []
  else if mods.getLsbD i then
    prockeys (modifierToScanCode.getD i 0 ||| flags) ++
      procmodkeyLoop flags (i + 1) (mods &&& ~~~(1#8 <<< i))
  else procmodkeyLoop flags (i + 1) mods
termination_by 8 - i

/-- Modifier press or release events. -/
def procmodkey (mods : BitVec 8) (flags : Nat) : List Nat := procmodkeyLoop flags 0 mods

/-- The slot from `j` on that holds `key`. -/
def findKey (keys : Nat → Nat) (key j : Nat) : Option Nat :=
  if j ≥ 6 then none
  else if keys j = key then some j
  else findKey keys key (j + 1)
termination_by 6 - j

/-- The variables of `handle_key`, with the bytes pushed so far. -/
structure Scan where
  old : Nat → Nat
  data : Nat → Nat
  addpos : Nat
  repeatcount : Nat
  pushed : List Nat

/-- Check for keys no longer pressed. -/
def releaseLoop (i : Nat) (s : Scan) : Scan :=
  if i ≥ 6 then s
  else
    let key := s.old i
    if key = 0 then s
    else
      match findKey s.data key 0 with
      | none =>
        -- key released; the last pressed one disables the repeat
        releaseLoop (i + 1) { s with
          pushed := s.pushed ++ procscankey key releasebit
          repeatcount := if i + 1 ≥ 6 ∨ s.old (i + 1) = 0 then 0xff else s.repeatcount }
      | some j =>
        -- key still pressed
        releaseLoop (i + 1) { s with
          data := Function.update s.data j 0
          old := Function.update s.old s.addpos key
          addpos := s.addpos + 1 }
termination_by 6 - i

def newLoop (i : Nat) (s : Scan) : Scan :=
  if i ≥ 6 then s
  else
    let key := s.data i
    if key = 0 then newLoop (i + 1) s
    else
      -- new key pressed
      newLoop (i + 1) { s with
        pushed := s.pushed ++ procscankey key 0
        old := Function.update s.old s.addpos key
        addpos := s.addpos + 1
        repeatcount := keyrepeatwaitms / keyrepeatms + 1 }
termination_by 6 - i

/-- Process one report: the new `LastUSBkey` and the bytes pushed. -/
def handleKey (last : Usbkeyinfo) (data : Keyevent) : Usbkeyinfo × List Nat :=
  let s := releaseLoop 0 ⟨last.keys, data.keys, 0, last.repeatcount, []⟩
  let s := { s with
    pushed := s.pushed ++ procmodkey (last.modifiers &&& ~~~data.modifiers) releasebit ++
      procmodkey (data.modifiers &&& ~~~last.modifiers) 0 }
  let s := newLoop 0 s
  let keys := if s.addpos < 6 then Function.update s.old s.addpos 0 else s.old
  -- check for key repeat
  let r : Nat × List Nat :=
    if s.addpos ≠ 0 then
      if s.repeatcount = 0 then (s.repeatcount, procscankey (keys (s.addpos - 1)) 0)
      else if s.repeatcount ≠ 0xff then (s.repeatcount - 1, [])
      else (s.repeatcount, [])
    else (s.repeatcount, [])
  (⟨data.modifiers, r.1, keys⟩, s.pushed ++ r.2)

end ItxLlama.Seabios.UsbHid
