import ItxLlama.Lib.Word
import Mathlib.Data.List.Basic
import Mathlib.Logic.Function.Basic

/-!
# CMOS options

`drivers/pc80/mc146818rtc.c`: options by name, as ranges of bits of the CMOS.
The layout table is the list of its records. A pointer is the list of the bytes
that are there; what follows them reads as zero.
-/

namespace ItxLlama.Coreboot.CmosOption

open Lib.Word

abbrev Byte := BitVec 8

/-- The bytes by their address, an `unsigned char`. -/
abbrev Cmos := Nat → Byte

def rtcControl : Nat := 11

def rtcSet : Byte := 0x80

def cmosRead (c : Cmos) (addr : Nat) : Byte := c (addr % 256)

def cmosWriteInner (c : Cmos) (val : Byte) (addr : Nat) : Cmos :=
  Function.update c (addr % 256) val

/-- The RTC is disabled before a value is changed, and then reset to its prior configuration. -/
def cmosWrite (c : Cmos) (val : Byte) (addr : Nat) : Cmos :=
  let controlState := cmosRead c rtcControl
  let disable : Bool := addr % 256 ≠ rtcControl ∧ controlState &&& rtcSet = 0
  let c := if disable then cmosWriteInner c (controlState ||| rtcSet) rtcControl else c
  let c := cmosWriteInner c val addr
  if disable then cmosWriteInner c controlState rtcControl else c

/-- `LB_CKS_RANGE_START`, `LB_CKS_RANGE_END` and `LB_CKS_LOC`. -/
structure Cks where
  rangeStart : Nat
  rangeEnd : Nat
  loc : Nat

/-- The `u16` sum of the checksummed bytes. -/
def cksSum (c : Cmos) (k : Cks) : Nat :=
  ((List.range' k.rangeStart (k.rangeEnd + 1 - k.rangeStart)).map fun i =>
    (cmosRead c i).toNat).sum % 2 ^ 16

def rtcChecksumValid (c : Cmos) (k : Cks) : Bool :=
  cksSum c k = (cmosRead c k.loc).toNat * 256 + (cmosRead c (k.loc + 1)).toNat

def rtcSetChecksum (c : Cmos) (k : Cks) : Cmos :=
  let sum := cksSum c k
  let c := cmosWrite c (BitVec.ofNat 8 (sum / 256)) k.loc
  cmosWrite c (BitVec.ofNat 8 sum) (k.loc + 1)

-- ---------------------------------------------------------------------------
-- Values
-- ---------------------------------------------------------------------------

/-- The loop of `get_cmos_value`, on whole bytes. For a `length` that is no multiple of 8 the C
loop wraps around and never ends, where this one stops; compiled layouts have no such length. -/
def getBytes (c : Cmos) (byte length : Nat) : List Byte :=
  if length = 0 then [] else cmosRead c byte :: getBytes c (byte + 1) (length - 8)
termination_by length

def getCmosValue (c : Cmos) (bit length : Nat) : List Byte :=
  let byte := bit / 8
  let byteBit := bit % 8
  -- one byte or less
  if length < 9 then [(cmosRead c byte >>> byteBit) &&& BitVec.ofNat 8 (2 ^ length - 1)]
  else getBytes c byte length

/-- The loop of `set_cmos_value`, on whole bytes; it also gives the `byte` after the last. -/
def setBytes (c : Cmos) (value : List Byte) (i byte length : Nat) : Cmos × Nat :=
  if length = 0 then (c, byte)
  else setBytes (cmosWrite c (value.getD i 0) byte) value (i + 1) (byte + 1) (length - 8)
termination_by length

def setCmosValue (k : Cks) (c : Cmos) (bit length : Nat) (value : List Byte) : Int × Cmos :=
  let byte := bit / 8
  let byteBit := bit % 8
  -- one byte or less
  if length ≤ 8 then
    let mask := BitVec.ofNat 8 (2 ^ length - 1) <<< byteBit
    let uchar := (cmosRead c byte &&& ~~~mask) ||| (value.getD 0 0 <<< byteBit)
    let c := cmosWrite c uchar byte
    (0, if k.rangeStart ≤ byte ∧ byte ≤ k.rangeEnd then rtcSetChecksum c k else c)
  else if byteBit ≠ 0 ∨ length % 8 ≠ 0 then (-1, c)
  else
    let r := setBytes c value 0 byte length
    -- the test stands after the loop
    (0, if k.rangeStart ≤ r.2 ∧ r.2 ≤ k.rangeEnd then rtcSetChecksum r.1 k else r.1)

-- ---------------------------------------------------------------------------
-- Options
-- ---------------------------------------------------------------------------

def lbTagOption : Nat := 201

def cmosMaxNameLength : Nat := 32

/-- One record of the table; `name` stands without its terminator. -/
structure CmosEntries where
  tag : Nat
  bit : Nat
  length : Nat
  config : Nat
  name : List Byte
  deriving DecidableEq

def strlen (s : List Byte) : Nat := (s.takeWhile (· ≠ 0)).length

def strnlen (s : List Byte) (max : Nat) : Nat := min (strlen s) max

/-- Whether `memcmp` of the first `n` bytes gives zero. -/
def memEq (a b : List Byte) (n : Nat) : Bool :=
  (List.range n).all fun i => a.getD i 0 = b.getD i 0

/-- The requested entry record. -/
def findEntry (name : List Byte) : List CmosEntries → Option CmosEntries
  | [] => none
  | ce :: rest =>
    if ce.tag ≠ lbTagOption then none
    else if memEq ce.name name (strnlen name cmosMaxNameLength) then some ce
    else findEntry name rest

/-- `cmos_layout.bin`, if it is there. -/
abbrev Layout := Option (List CmosEntries)

def getOption (k : Cks) (ct : Layout) (c : Cmos) (name : List Byte) : Int × List Byte :=
  match ct.bind (findEntry name) with
  | none => (-2, [])
  | some ce =>
    let dest := getCmosValue c ce.bit ce.length
    if rtcChecksumValid c k then (0, dest) else (-4, dest)

def setOption (k : Cks) (ct : Layout) (c : Cmos) (name value : List Byte) : Int × Cmos :=
  match ct.bind (findEntry name) with
  | none => (-2, c)
  | some ce =>
    if ce.config = 's'.toNat then
      let length := max (u32 (strlen value * 8)) (u32 (ce.length + 2 ^ 32 - 8))
      -- make sure the string is null terminated
      let r := setCmosValue k c (u32 (ce.bit + ce.length + 2 ^ 32 - 8)) 8 [0]
      if r.1 ≠ 0 then (-3, r.2)
      else
        let r := setCmosValue k r.2 ce.bit length value
        (if r.1 ≠ 0 then -3 else 0, r.2)
    else
      let r := setCmosValue k c ce.bit ce.length value
      (if r.1 ≠ 0 then -3 else 0, r.2)

end ItxLlama.Coreboot.CmosOption
