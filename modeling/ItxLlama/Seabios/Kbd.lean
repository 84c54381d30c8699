import ItxLlama.Lib.Word
import Mathlib.Data.List.Basic

/-!
# Keyboard services

`kbd.c`, over the bytes of the BIOS data area's segment. The 16-bit fields
are little endian; a field has the offset that `bios_data_area_s` gives it.
-/

namespace ItxLlama.Seabios

open Lib.Word

/-- The segment `SEG_BDA`, byte by byte. -/
abbrev Bda := Nat → BitVec 8

namespace Bda

def set8 (m : Bda) (a : Nat) (v : BitVec 8) : Bda := fun b => if b = a then v else m b

def get16 (m : Bda) (a : Nat) : Nat := (m a).toNat + 256 * (m (a + 1)).toNat

def set16 (m : Bda) (a v : Nat) : Bda :=
  (m.set8 a (BitVec.ofNat 8 v)).set8 (a + 1) (BitVec.ofNat 8 (v / 256))

@[simp] theorem set8_same (m : Bda) (a : Nat) (v : BitVec 8) : m.set8 a v a = v := by
  simp [set8]

theorem set8_ne (m : Bda) (v : BitVec 8) (h : b ≠ a) : m.set8 a v b = m b := by
  simp [set8, h]

theorem set16_ne (m : Bda) (v : Nat) (h : b ≠ a) (h' : b ≠ a + 1) : m.set16 a v b = m b := by
  rw [set16, set8_ne _ _ h', set8_ne _ _ h]

theorem get16_set8_ne (m : Bda) (v : BitVec 8) (h : a ≠ b) (h' : a ≠ b + 1) :
    (m.set8 a v).get16 b = m.get16 b := by
  rw [get16, set8_ne _ _ h.symm, set8_ne _ _ h'.symm, get16]

theorem get16_set16_ne (m : Bda) (v : Nat) (h : a + 2 ≤ b ∨ b + 2 ≤ a) :
    (m.set16 a v).get16 b = m.get16 b := by
  rw [get16, set16_ne _ _ (by omega) (by omega), set16_ne _ _ (by omega) (by omega), get16]

theorem get16_set16 (m : Bda) (a : Nat) (h : v < 2 ^ 16) : (m.set16 a v).get16 a = v := by
  rw [get16, set16, set8_same, set8_ne _ _ (Nat.ne_of_lt (Nat.lt_succ_self a)), set8_same]
  simp only [BitVec.toNat_ofNat]
  omega

end Bda

-- ---------------------------------------------------------------------------
-- Fields and flag bits
-- ---------------------------------------------------------------------------

def kbdFlag0 : Nat := 0x17
def kbdFlag1 : Nat := 0x18
def kbdBufHead : Nat := 0x1a
def kbdBufTail : Nat := 0x1c
def kbdBuf : Nat := 0x1e
def softResetFlag : Nat := 0x72
def kbdBufStartOffset : Nat := 0x80
def kbdBufEndOffset : Nat := 0x82
def kbdFlag2 : Nat := 0x96

def kf0RShift : BitVec 8 := 1#8 <<< 0
def kf0LShift : BitVec 8 := 1#8 <<< 1
def kf0CtrlActive : BitVec 8 := 1#8 <<< 2
def kf0AltActive : BitVec 8 := 1#8 <<< 3
def kf0ScrollActive : BitVec 8 := 1#8 <<< 4
def kf0NumActive : BitVec 8 := 1#8 <<< 5
def kf0CapsActive : BitVec 8 := 1#8 <<< 6

def kf1LCtrl : BitVec 8 := 1#8 <<< 0
def kf1LAlt : BitVec 8 := 1#8 <<< 1
def kf1Scroll : BitVec 8 := 1#8 <<< 4
def kf1Num : BitVec 8 := 1#8 <<< 5
def kf1Caps : BitVec 8 := 1#8 <<< 6

def kf2LastE1 : BitVec 8 := 1#8 <<< 0
def kf2LastE0 : BitVec 8 := 1#8 <<< 1
def kf2RCtrl : BitVec 8 := 1#8 <<< 2
def kf2RAlt : BitVec 8 := 1#8 <<< 3
def kf2Kbd101 : BitVec 8 := 1#8 <<< 4

/-- The 32 bytes of `kbd_buf` become the window. -/
def kbdInit (m : Bda) : Bda :=
  let x := kbdBuf
  ((((m.set8 kbdFlag2 kf2Kbd101).set16 kbdBufHead x).set16 kbdBufTail x).set16
    kbdBufStartOffset x).set16 kbdBufEndOffset (x + 32)

-- ---------------------------------------------------------------------------
-- The keystroke buffer
-- ---------------------------------------------------------------------------

/-- The buffer's memory after the call, and what the call returns. -/
def enqueueKey (m : Bda) (scanCode asciiCode : BitVec 8) : Bda × Bool :=
  let bufferStart := m.get16 kbdBufStartOffset
  let bufferEnd := m.get16 kbdBufEndOffset
  let bufferHead := m.get16 kbdBufHead
  let tempTail := m.get16 kbdBufTail
  let next := u16 (tempTail + 2)
  let bufferTail := if next ≥ bufferEnd then bufferStart else next
  if bufferTail = bufferHead then (m, false)
  else
    (((m.set8 (tempTail + 0) asciiCode).set8 (tempTail + 1) scanCode).set16 kbdBufTail bufferTail,
      true)

/-- What the keyboard services use of a `bregs`. -/
structure KbdRegs where
  ax : BitVec 16
  cx : BitVec 16
  flags : BitVec 16
  deriving DecidableEq, Repr

def fCF : BitVec 16 := 1#16 <<< 0
def fZF : BitVec 16 := 1#16 <<< 6

def KbdRegs.ch (regs : KbdRegs) : BitVec 8 := (regs.cx >>> 8).setWidth 8
def KbdRegs.cl (regs : KbdRegs) : BitVec 8 := regs.cx.setWidth 8

def KbdRegs.setAl (regs : KbdRegs) (v : BitVec 8) : KbdRegs :=
  { regs with ax := (regs.ax &&& 0xFF00#16) ||| v.setWidth 16 }

/-- The key as the caller gets it: `extended` callers see the `0xE0` of the
grey keys, and no caller sees `0xF0`. -/
def keyAx (scanCode asciiCode : BitVec 8) (extended : Bool) : BitVec 16 :=
  let asciiCode :=
    if (asciiCode = 0xF0#8 ∧ scanCode ≠ 0#8) ∨ (asciiCode = 0xE0#8 ∧ ¬extended) then 0#8
    else asciiCode
  scanCode.setWidth 16 <<< 8 ||| asciiCode.setWidth 16

/-- One turn of the loop. `none` is a caller that wants a key and has to go
round after the next interrupt. -/
def dequeueKey (m : Bda) (regs : KbdRegs) (incr extended : Bool) : Option (Bda × KbdRegs) :=
  let bufferHead := m.get16 kbdBufHead
  let bufferTail := m.get16 kbdBufTail
  if bufferHead = bufferTail then
    if ¬incr then some (m, { regs with flags := regs.flags ||| fZF })
    else none
  else
    let asciiCode := m (bufferHead + 0)
    let scanCode := m (bufferHead + 1)
    let regs := { regs with ax := keyAx scanCode asciiCode extended }
    if ¬incr then some (m, { regs with flags := regs.flags &&& ~~~fZF })
    else
      let bufferStart := m.get16 kbdBufStartOffset
      let bufferEnd := m.get16 kbdBufEndOffset
      let next := u16 (bufferHead + 2)
      let bufferHead := if next ≥ bufferEnd then bufferStart else next
      some (m.set16 kbdBufHead bufferHead, regs)

-- read keyboard input
def handle1600 (m : Bda) (regs : KbdRegs) := dequeueKey m regs true false

-- check keyboard status
def handle1601 (m : Bda) (regs : KbdRegs) := dequeueKey m regs false false

-- store key-stroke into buffer
def handle1605 (m : Bda) (regs : KbdRegs) : Bda × KbdRegs :=
  let r := enqueueKey m regs.ch regs.cl
  (r.1, regs.setAl (if r.2 then 0#8 else 1#8))

-- read MF-II keyboard input
def handle1610 (m : Bda) (regs : KbdRegs) := dequeueKey m regs true true

-- check MF-II keyboard status
def handle1611 (m : Bda) (regs : KbdRegs) := dequeueKey m regs false true

-- ---------------------------------------------------------------------------
-- Scancodes
-- ---------------------------------------------------------------------------

structure ScanInfo where
  normal : BitVec 16
  shift : BitVec 16
  control : BitVec 16
  alt : BitVec 16
  lockFlags : BitVec 8
  deriving DecidableEq, Repr

def mnum : BitVec 8 := kf0NumActive
def mcap : BitVec 8 := kf0CapsActive

def scanToScanascii : List ScanInfo :=
  [ ⟨0, 0, 0, 0, 0⟩, ⟨0x011b, 0x011b, 0x011b, 0x0100, 0⟩,
    ⟨0x0231, 0x0221, 0, 0x7800, 0⟩, ⟨0x0332, 0x0340, 0x0300, 0x7900, 0⟩,
    ⟨0x0433, 0x0423, 0, 0x7a00, 0⟩, ⟨0x0534, 0x0524, 0, 0x7b00, 0⟩,
    ⟨0x0635, 0x0625, 0, 0x7c00, 0⟩, ⟨0x0736, 0x075e, 0x071e, 0x7d00, 0⟩,
    ⟨0x0837, 0x0826, 0, 0x7e00, 0⟩, ⟨0x0938, 0x092a, 0, 0x7f00, 0⟩,
    ⟨0x0a39, 0x0a28, 0, 0x8000, 0⟩, ⟨0x0b30, 0x0b29, 0, 0x8100, 0⟩,
    ⟨0x0c2d, 0x0c5f, 0x0c1f, 0x8200, 0⟩, ⟨0x0d3d, 0x0d2b, 0, 0x8300, 0⟩,
    ⟨0x0e08, 0x0e08, 0x0e7f, 0, 0⟩, ⟨0x0f09, 0x0f00, 0, 0, 0⟩,
    ⟨0x1071, 0x1051, 0x1011, 0x1000, mcap⟩, ⟨0x1177, 0x1157, 0x1117, 0x1100, mcap⟩,
    ⟨0x1265, 0x1245, 0x1205, 0x1200, mcap⟩, ⟨0x1372, 0x1352, 0x1312, 0x1300, mcap⟩,
    ⟨0x1474, 0x1454, 0x1414, 0x1400, mcap⟩, ⟨0x1579, 0x1559, 0x1519, 0x1500, mcap⟩,
    ⟨0x1675, 0x1655, 0x1615, 0x1600, mcap⟩, ⟨0x1769, 0x1749, 0x1709, 0x1700, mcap⟩,
    ⟨0x186f, 0x184f, 0x180f, 0x1800, mcap⟩, ⟨0x1970, 0x1950, 0x1910, 0x1900, mcap⟩,
    ⟨0x1a5b, 0x1a7b, 0x1a1b, 0, 0⟩, ⟨0x1b5d, 0x1b7d, 0x1b1d, 0, 0⟩,
    ⟨0x1c0d, 0x1c0d, 0x1c0a, 0, 0⟩, ⟨0, 0, 0, 0, 0⟩,
    ⟨0x1e61, 0x1e41, 0x1e01, 0x1e00, mcap⟩, ⟨0x1f73, 0x1f53, 0x1f13, 0x1f00, mcap⟩,
    ⟨0x2064, 0x2044, 0x2004, 0x2000, mcap⟩, ⟨0x2166, 0x2146, 0x2106, 0x2100, mcap⟩,
    ⟨0x2267, 0x2247, 0x2207, 0x2200, mcap⟩, ⟨0x2368, 0x2348, 0x2308, 0x2300, mcap⟩,
    ⟨0x246a, 0x244a, 0x240a, 0x2400, mcap⟩, ⟨0x256b, 0x254b, 0x250b, 0x2500, mcap⟩,
    ⟨0x266c, 0x264c, 0x260c, 0x2600, mcap⟩, ⟨0x273b, 0x273a, 0, 0, 0⟩,
    ⟨0x2827, 0x2822, 0, 0, 0⟩, ⟨0x2960, 0x297e, 0, 0, 0⟩,
    ⟨0, 0, 0, 0, 0⟩, ⟨0x2b5c, 0x2b7c, 0x2b1c, 0, 0⟩,
    ⟨0x2c7a, 0x2c5a, 0x2c1a, 0x2c00, mcap⟩, ⟨0x2d78, 0x2d58, 0x2d18, 0x2d00, mcap⟩,
    ⟨0x2e63, 0x2e43, 0x2e03, 0x2e00, mcap⟩, ⟨0x2f76, 0x2f56, 0x2f16, 0x2f00, mcap⟩,
    ⟨0x3062, 0x3042, 0x3002, 0x3000, mcap⟩, ⟨0x316e, 0x314e, 0x310e, 0x3100, mcap⟩,
    ⟨0x326d, 0x324d, 0x320d, 0x3200, mcap⟩, ⟨0x332c, 0x333c, 0, 0, 0⟩,
    ⟨0x342e, 0x343e, 0, 0, 0⟩, ⟨0x352f, 0x353f, 0, 0, 0⟩,
    ⟨0, 0, 0, 0, 0⟩, ⟨0x372a, 0x372a, 0, 0, 0⟩,
    ⟨0, 0, 0, 0, 0⟩, ⟨0x3920, 0x3920, 0x3920, 0x3920, 0⟩,
    ⟨0, 0, 0, 0, 0⟩, ⟨0x3b00, 0x5400, 0x5e00, 0x6800, 0⟩,
    ⟨0x3c00, 0x5500, 0x5f00, 0x6900, 0⟩, ⟨0x3d00, 0x5600, 0x6000, 0x6a00, 0⟩,
    ⟨0x3e00, 0x5700, 0x6100, 0x6b00, 0⟩, ⟨0x3f00, 0x5800, 0x6200, 0x6c00, 0⟩,
    ⟨0x4000, 0x5900, 0x6300, 0x6d00, 0⟩, ⟨0x4100, 0x5a00, 0x6400, 0x6e00, 0⟩,
    ⟨0x4200, 0x5b00, 0x6500, 0x6f00, 0⟩, ⟨0x4300, 0x5c00, 0x6600, 0x7000, 0⟩,
    ⟨0x4400, 0x5d00, 0x6700, 0x7100, 0⟩, ⟨0, 0, 0, 0, 0⟩,
    ⟨0, 0, 0, 0, 0⟩, ⟨0x4700, 0x4737, 0x7700, 0, mnum⟩,
    ⟨0x4800, 0x4838, 0, 0, mnum⟩, ⟨0x4900, 0x4939, 0x8400, 0, mnum⟩,
    ⟨0x4a2d, 0x4a2d, 0, 0, 0⟩, ⟨0x4b00, 0x4b34, 0x7300, 0, mnum⟩,
    ⟨0x4c00, 0x4c35, 0, 0, mnum⟩, ⟨0x4d00, 0x4d36, 0x7400, 0, mnum⟩,
    ⟨0x4e2b, 0x4e2b, 0, 0, 0⟩, ⟨0x4f00, 0x4f31, 0x7500, 0, mnum⟩,
    ⟨0x5000, 0x5032, 0, 0, mnum⟩, ⟨0x5100, 0x5133, 0x7600, 0, mnum⟩,
    ⟨0x5200, 0x5230, 0, 0, mnum⟩, ⟨0x5300, 0x532e, 0, 0, mnum⟩,
    ⟨0, 0, 0, 0, 0⟩, ⟨0, 0, 0, 0, 0⟩,
    ⟨0x565c, 0x567c, 0, 0, 0⟩, ⟨0x8500, 0x8700, 0x8900, 0x8b00, 0⟩,
    ⟨0x8600, 0x8800, 0x8a00, 0x8c00, 0⟩ ]

/-- Where the byte of the keyboard leaves the BIOS. -/
inductive KeyEnd where
  | returned (m : Bda)
  | reset (m : Bda)

def highByte (v : BitVec 16) : BitVec 8 := (v >>> 8).setWidth 8
def lowByte (v : BitVec 16) : BitVec 8 := v.setWidth 8

/-- The entry of the table that the modifiers select, as ASCII code and
scancode. -/
def scanAscii (flags0 flags2 scancode : BitVec 8) (info : ScanInfo) : BitVec 8 × BitVec 8 :=
  if flags0 &&& kf0AltActive ≠ 0 then (lowByte info.alt, highByte info.alt)
  else if flags0 &&& kf0CtrlActive ≠ 0 then (lowByte info.control, highByte info.control)
  else if flags2 &&& kf2LastE0 ≠ 0 ∧ scancode ≥ 0x47#8 ∧ scancode ≤ 0x53#8 then
    -- extended keys handling
    (0xe0#8, highByte info.normal)
  else if flags0 &&& (kf0RShift ||| kf0LShift) ≠ 0 then
    if flags0 &&& info.lockFlags ≠ 0 then (lowByte info.normal, highByte info.normal)
    else (lowByte info.shift, highByte info.shift)
  else
    if flags0 &&& info.lockFlags ≠ 0 then (lowByte info.shift, highByte info.shift)
    else (lowByte info.normal, highByte info.normal)

/-- The end of `__process_key`, after a `break` of its switch. -/
def setFlags (m : Bda) (flags0 flags1 flags2 : BitVec 8) : Bda :=
  let flags2 := flags2 &&& ~~~kf2LastE0
  ((m.set8 kbdFlag0 flags0).set8 kbdFlag1 flags1).set8 kbdFlag2 flags2

/-- The `default` of the switch. -/
def processOther (m : Bda) (flags0 flags1 flags2 scancode : BitVec 8) : KeyEnd :=
  if scancode &&& 0x80#8 ≠ 0 then
    -- toss key releases
    .returned (setFlags m flags0 flags1 flags2)
  else if scancode = 0x53#8 ∧
      flags0 &&& (kf0CtrlActive ||| kf0AltActive) = kf0CtrlActive ||| kf0AltActive then
    .reset (m.set16 softResetFlag 0x1234)
  else
    match scanToScanascii[scancode.toNat]? with
    | none => .returned m
    | some info =>
      let r := scanAscii flags0 flags2 scancode info
      .returned (setFlags (enqueueKey m r.2 r.1).1 flags0 flags1 flags2)

/-- `__process_key` -/
def processScancode (m : Bda) (scancode : BitVec 8) : KeyEnd :=
  let flags0 := m kbdFlag0
  let flags1 := m kbdFlag1
  let flags2 := m kbdFlag2
  if flags2 &&& kf2LastE1 ≠ 0 then
    -- the pause key sends e1 1d 45 e1 9d c5
    if scancode &&& ~~~0x80#8 = 0x1d#8 then .returned m
    else .returned (m.set8 kbdFlag2 (flags2 &&& ~~~kf2LastE1))
  else if scancode = 0x00#8 then .returned m
  else if scancode = 0x3a#8 then
    .returned (setFlags m (flags0 ^^^ kf0CapsActive) (flags1 ||| kf1Caps) flags2)
  else if scancode = 0xba#8 then
    .returned (setFlags m flags0 (flags1 &&& ~~~kf1Caps) flags2)
  else if scancode = 0x2a#8 then
    .returned (setFlags m (flags0 ||| kf0LShift) flags1 flags2)
  else if scancode = 0xaa#8 then
    .returned (setFlags m (flags0 &&& ~~~kf0LShift) flags1 flags2)
  else if scancode = 0x36#8 then
    .returned (setFlags m (flags0 ||| kf0RShift) flags1 flags2)
  else if scancode = 0xb6#8 then
    .returned (setFlags m (flags0 &&& ~~~kf0RShift) flags1 flags2)
  else if scancode = 0x1d#8 then
    if flags2 &&& kf2LastE0 ≠ 0 then
      .returned (setFlags m (flags0 ||| kf0CtrlActive) flags1 (flags2 ||| kf2RCtrl))
    else .returned (setFlags m (flags0 ||| kf0CtrlActive) (flags1 ||| kf1LCtrl) flags2)
  else if scancode = 0x9d#8 then
    if flags2 &&& kf2LastE0 ≠ 0 then
      .returned (setFlags m (flags0 &&& ~~~kf0CtrlActive) flags1 (flags2 &&& ~~~kf2RCtrl))
    else .returned (setFlags m (flags0 &&& ~~~kf0CtrlActive) (flags1 &&& ~~~kf1LCtrl) flags2)
  else if scancode = 0x38#8 then
    if flags2 &&& kf2LastE0 ≠ 0 then
      .returned (setFlags m (flags0 ||| kf0AltActive) flags1 (flags2 ||| kf2RAlt))
    else .returned (setFlags m (flags0 ||| kf0AltActive) (flags1 ||| kf1LAlt) flags2)
  else if scancode = 0xb8#8 then
    if flags2 &&& kf2LastE0 ≠ 0 then
      .returned (setFlags m (flags0 &&& ~~~kf0AltActive) flags1 (flags2 &&& ~~~kf2RAlt))
    else .returned (setFlags m (flags0 &&& ~~~kf0AltActive) (flags1 &&& ~~~kf1LAlt) flags2)
  else if scancode = 0x45#8 then
    .returned (setFlags m (flags0 ^^^ kf0NumActive) (flags1 ||| kf1Num) flags2)
  else if scancode = 0xc5#8 then
    .returned (setFlags m flags0 (flags1 &&& ~~~kf1Num) flags2)
  else if scancode = 0x46#8 then
    .returned (setFlags m (flags0 ^^^ kf0ScrollActive) (flags1 ||| kf1Scroll) flags2)
  else if scancode = 0xc6#8 then
    .returned (setFlags m flags0 (flags1 &&& ~~~kf1Scroll) flags2)
  else if scancode = 0xe0#8 then
    .returned (m.set8 kbdFlag2 (flags2 ||| kf2LastE0))
  else if scancode = 0xe1#8 then
    .returned (setFlags m flags0 flags1 (flags2 ||| kf2LastE1))
  else processOther m flags0 flags1 flags2 scancode

/-- `handle_154f`, what the BIOS itself does with the keyboard intercept. -/
def handle154f (regs : KbdRegs) : KbdRegs := { regs with flags := regs.flags ||| fCF }

/-- `intercept` is the handler of `int 15h/4Fh`. -/
def processKey (intercept : KbdRegs → KbdRegs) (m : Bda) (key : BitVec 8) : KeyEnd :=
  let br := intercept
    { ax := (0x4f#16 <<< 8) ||| key.setWidth 16, cx := 0, flags := (1#16 <<< 9) ||| fCF }
  if br.flags &&& fCF = 0 then .returned m
  else processScancode m (lowByte br.ax)

end ItxLlama.Seabios
