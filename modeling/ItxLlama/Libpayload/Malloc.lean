import ItxLlama.Lib.Word
import ItxLlama.Lib.Stores
import Mathlib.Data.Option.Basic
import Mathlib.Logic.Function.Basic

/-!
# libpayload's heap

`malloc.c` of libpayload, where an `int` and a pointer have 32 bits. Blocks
follow each other from `hstart` to `hend`, each behind a 64-bit header that
packs a magic, a flag and the size. `memalign` cuts regions that are blocks
themselves into elements, with one byte for each element at their start.

A call that halts, or that a bound given to a loop cuts short, is `none`.
-/

namespace ItxLlama.Libpayload

open Lib.Bytes
open Lib.Signed
open Lib.Word

abbrev Mem := Nat → Byte

/-- The range that the linker script gives to the heap; `setup` takes its size
as an `int`. -/
structure Heap where
  hstart : Nat
  hend : Nat
  room : hstart + 8 < hend
  size_lt : hend - hstart < 2 ^ 31
  hend_lt : hend < 2 ^ 32

-- ---------------------------------------------------------------------------
-- Headers
-- ---------------------------------------------------------------------------

def hdrSize : Nat := 8
def sizeBits : Nat := (hdrSize <<< 3) - 7
def magic : Nat := 0x2a <<< (sizeBits + 1)
def flagFree : Nat := 0x01 <<< sizeBits
def maxSize : Nat := 0x01 <<< sizeBits - 1

def sizeOf (h : Nat) : Nat := h &&& maxSize

def mkHeader (s : Int) (f : Nat) : Nat := magic ||| f ||| (uint64 s &&& maxSize)

def freeBlock (s : Int) : Nat := mkHeader s flagFree
def usedBlock (s : Int) : Nat := mkHeader s 0
def isFree (h : Nat) : Bool := h &&& (magic ||| flagFree) = magic ||| flagFree
def hasMagic (h : Nat) : Bool := h &&& magic = magic
def hasFlag (h : Nat) : Bool := h &&& flagFree ≠ 0

/-- A store through a pointer to `hdrtype_t`. -/
def setHdr (m : Mem) (ptr h : Nat) : Mem := Lib.Stores.Store.run m ⟨ptr, hdrSize, h⟩

-- ---------------------------------------------------------------------------
-- malloc
-- ---------------------------------------------------------------------------

def setup (m : Mem) (start : Nat) (size : Int) : Mem := setHdr m start (freeBlock size)

def allocLoop (hend : Nat) (len : Int) :
    (fuel : Nat) → Mem → (ptr : Nat) → Option (Mem × Option Nat)
  | 0, _, _ => none
  | fuel + 1, m, ptr =>
    let header := le64 m ptr
    let size := int32 (sizeOf header)
    if ¬hasMagic header ∨ size = 0 then none
    else if hasFlag header ∧ len ≤ size then
      let nptr := uint32 (ptr + (hdrSize + len))
      let nsize := int32 (size - (hdrSize + len))
      if nsize > 0 then
        let m := setHdr m ptr (usedBlock len)
        some (setHdr m nptr (freeBlock nsize), some (u32 (ptr + hdrSize)))
      else some (setHdr m ptr (usedBlock size), some (u32 (ptr + hdrSize)))
    else
      let ptr := uint32 (ptr + hdrSize + size)
      if ptr < hend then allocLoop hend len fuel m ptr else some (m, none)

/-- The length that `alloc` looks for. -/
def alignLen (len : Nat) : Nat := alignDown (u32 (len + (hdrSize - 1))) hdrSize

variable (heap : Heap)

/-- Every block takes more than its header. -/
def alloc (m : Mem) (len : Nat) : Option (Mem × Option Nat) :=
  let len := int32 (alignLen len)
  if len = 0 ∨ uint64 len > maxSize then some (m, none)
  else
    let m := if hasMagic (le64 m heap.hstart) then m
      else setup m heap.hstart (int32 (heap.hend - heap.hstart - hdrSize))
    allocLoop heap.hend len (heap.hend - heap.hstart) m heap.hstart

abbrev malloc := alloc

-- ---------------------------------------------------------------------------
-- free
-- ---------------------------------------------------------------------------

/-- The inner loop of `_consolidate`. -/
def absorb (hend : Nat) : (fuel : Nat) → Mem → (nptr size : Nat) → Option (Mem × Nat × Nat)
  | 0, _, _, _ => none
  | fuel + 1, m, nptr, size =>
    if nptr < hend then
      let nhdr := le64 m nptr
      if ¬isFree nhdr then some (m, nptr, size)
      else absorb hend fuel (setHdr m nptr 0) (u32 (nptr + (hdrSize + sizeOf nhdr)))
        (u32 (size + (sizeOf nhdr + hdrSize)))
    else some (m, nptr, size)

def consolidateLoop (hend : Nat) : (fuel : Nat) → Mem → (ptr : Nat) → Option Mem
  | 0, _, _ => none
  | fuel + 1, m, ptr =>
    if ptr < hend then
      let hdr := le64 m ptr
      if ¬isFree hdr then consolidateLoop hend fuel m (u32 (ptr + (hdrSize + sizeOf hdr)))
      else do
        let (m, nptr, size) ← absorb hend (fuel + 1) m (u32 (ptr + (hdrSize + sizeOf hdr)))
          (u32 (sizeOf hdr))
        consolidateLoop hend fuel (setHdr m ptr (freeBlock size)) nptr
    else some m

def consolidate (m : Mem) : Option Mem :=
  consolidateLoop heap.hend (heap.hend - heap.hstart) m heap.hstart

/-- `struct align_region_t`, with the address of the block that it is kept in. -/
structure Region where
  addr : Nat
  alignment : Nat
  start : Nat
  size : Nat
  startData : Nat
  free : Nat
  deriving DecidableEq, Repr

/-- The memory and the list `align_regions`. -/
structure State where
  mem : Mem
  regions : List Region

/-- The bytes of an object's elements set to 0, and how many there are. -/
def clearRun : (fuel : Nat) → Mem → (ptr : Nat) → Option (Mem × Nat)
  | 0, _, _ => none
  | fuel + 1, m, ptr =>
    if m ptr = 2 then do
      let (m, n) ← clearRun fuel (Function.update m ptr 0) (ptr + 1)
      some (m, n + 1)
    else some (Function.update m ptr 0, 1)

/-- With the result of the C function last. -/
def freeAligned (m : Mem) (addr : Nat) : List Region → Option (Mem × List Region × Bool)
  | [] => some (m, [], false)
  | reg :: regs =>
    if reg.startData ≤ addr ∧ addr < u32 (reg.startData + reg.size) then do
      let i := (addr - reg.startData) / reg.alignment
      let (m, n) ← clearRun reg.size m (reg.start + i)
      some (m, { reg with free := u32 (reg.free + n) } :: regs, true)
    else do
      let (m, regs, done) ← freeAligned m addr regs
      some (m, reg :: regs, done)

def free (s : State) (ptr : Nat) : Option State := do
  let (m, regions, done) ← freeAligned s.mem ptr s.regions
  if done then some ⟨m, regions⟩
  else
    let ptr := uint32 (ptr - hdrSize)
    if ptr < heap.hstart ∨ ptr ≥ heap.hend then some s
    else
      let hdr := le64 m ptr
      if ¬hasMagic hdr then some s
      else if hasFlag hdr then some s
      else
        let m ← consolidate heap (setHdr m ptr (freeBlock (sizeOf hdr)))
        some { s with mem := m }

-- ---------------------------------------------------------------------------
-- realloc
-- ---------------------------------------------------------------------------

/-- From the first byte on, as `memmove` relies on. -/
def memcpy (m : Mem) (dst src : Nat) : Nat → Mem
  | 0 => m
  | n + 1 => Function.update (memcpy m dst src n) (dst + n) (memcpy m dst src n (src + n))

/-- `realloc` of a pointer that is not null. -/
def realloc (s : State) (ptr size : Nat) : Option (State × Option Nat) := do
  let pptr := uint32 (ptr - hdrSize)
  if ¬hasMagic (le64 s.mem pptr) then some (s, none)
  else
    let osize := u32 (sizeOf (le64 s.mem pptr))
    let s ← free heap s ptr
    let (m, ret) ← alloc heap s.mem size
    match ret with
    | none => some ({ s with mem := m }, none)
    | some ret =>
      if ret = ptr then some ({ s with mem := m }, some ret)
      else some ({ s with mem := memcpy m ret ptr (if osize > size then size else osize) }, some ret)

-- ---------------------------------------------------------------------------
-- memalign
-- ---------------------------------------------------------------------------

def sizeofRegion : Nat := 24

def memset (m : Mem) (dst : Nat) (c : Byte) (n : Nat) : Mem := fun x =>
  if dst ≤ x ∧ x < dst + n then c else m x

/-- The new region is the first of the list. -/
def allocateRegion (s : State) (alignment numElements : Nat) : Option (State × Option Region) := do
  let (m, addr) ← malloc heap s.mem sizeofRegion
  match addr with
  | none => some ({ s with mem := m }, none)
  | some addr =>
    let (m, start) ← malloc heap m (u32 ((numElements + 1) * alignment + numElements))
    match start with
    | none =>
      let s ← free heap { s with mem := m } addr
      some (s, none)
    | some start =>
      let reg : Region :=
        { addr
          alignment
          start
          size := u32 (numElements * alignment)
          startData := alignDown (u32 (start + numElements + alignment - 1)) alignment
          free := numElements }
      some (⟨memset m start 0 numElements, reg :: s.regions⟩, some reg)

/-- How many elements an object takes. -/
def target (align size : Nat) : Nat := u32 (size + align - 1) / align

/-- The first of `target` free elements in a row, with `n` elements left to look
at and `count` free ones in a row before them. -/
def scan (m : Mem) (start target : Nat) : (n i count : Nat) → Option Nat
  | 0, _, _ => none
  | n + 1, i, count =>
    if m (start + i) = 0 then
      if count + 1 = target then some (i + 1 - (count + 1))
      else scan m start target n (i + 1) (count + 1)
    else scan m start target n (i + 1) 0

/-- The bytes of `n` elements that combine with the next one. -/
def markRun (m : Mem) (ptr : Nat) : Nat → Mem
  | 0 => m
  | n + 1 => Function.update (markRun m ptr n) (ptr + n) 2

/-- The search within a region. -/
def takeElements (m : Mem) (align size : Nat) (reg : Region) : Option (Mem × Region × Nat) := do
  let t := target align size
  let i ← scan m reg.start t (reg.size / align) 0 0
  let m := markRun m (reg.start + i) (t - 1)
  some (Function.update m (reg.start + i + (t - 1)) 1,
    { reg with free := u32 (reg.free + 2 ^ 32 - t) },
    u32 (reg.startData + align * i))

/-- The way from a region through the ones after it. -/
def serve (m : Mem) (align size : Nat) : List Region → Option (Mem × List Region × Nat)
  | [] => none
  | reg :: regs =>
    let found := if reg.alignment = align ∧ reg.free ≥ target align size
      then takeElements m align size reg else none
    match found with
    | some (m, reg, p) => some (m, reg :: regs, p)
    | none => (serve m align size regs).map fun (m, regs, p) => (m, reg :: regs, p)

def numElements (align size : Nat) : Nat := if size < 1024 then 1024 / align else (size - 1) / align + 1

/-- From where the list is at its end: a new region, then the ones after it. -/
def memalignLoop (align size : Nat) : (fuel : Nat) → State → Option (State × Option Nat)
  | 0, _ => none
  | fuel + 1, s => do
    let (s', reg) ← allocateRegion heap s align (numElements align size)
    match reg with
    | none => some (s', none)
    | some reg =>
      match takeElements s'.mem align size reg with
      | some (m, reg, p) => some (⟨m, reg :: s.regions⟩, some p)
      | none =>
        match serve s'.mem align size s.regions with
        | some (m, regs, p) => some (⟨m, reg :: regs⟩, some p)
        | none => memalignLoop align size fuel s'

/-- From the start of the list. -/
def lookFurther (align size fuel : Nat) (s : State) : Option (State × Option Nat) :=
  match serve s.mem align size s.regions with
  | some (m, regs, p) => some (⟨m, regs⟩, some p)
  | none => memalignLoop heap align size fuel s

/-- An empty list gets a record without a region, if there is space for it. -/
def initRegions (s : State) : Option (State × Bool) :=
  match s.regions with
  | [] => do
    let (m, addr) ← malloc heap s.mem sizeofRegion
    match addr with
    | none => some ({ s with mem := m }, false)
    | some addr => some (⟨m, [⟨addr, 0, 0, 0, 0, 0⟩]⟩, true)
  | _ :: _ => some (s, true)

def memalign (fuel : Nat) (s : State) (align size : Nat) : Option (State × Option Nat) :=
  if size = 0 then some (s, none)
  else do
    let (s, ok) ← initRegions heap s
    if ok then lookFurther heap align size fuel s else some (s, none)

end ItxLlama.Libpayload
