import ItxLlama.Lib.Word

/-!
# Loading a SELF payload

`lib/selfboot.c` of a ramstage that is not relocatable: the segment list, the
bounce buffer, and the load with the pieces that would overwrite coreboot
put into the buffer. Addresses and sizes have 32 bits, the memory map's 64.
The payload is in the flash: `rom` gives its bytes, which no store changes.
-/

namespace ItxLlama.Coreboot.SelfBoot

open Lib.Word

abbrev Byte := BitVec 8
abbrev Ram := Nat → Byte

/-- `[_ram_seg, _eram_seg)`, where coreboot runs. -/
structure Image where
  lbStart : Nat
  lbEnd : Nat
  lt : lbStart < lbEnd
  fits : lbEnd < 2 ^ 32

def lbMemRam : Nat := 1
def lbMemTable : Nat := 16

structure LbMemoryRange where
  start : Nat
  size : Nat
  type : Nat
  deriving DecidableEq, Repr

structure Segment where
  dst : Nat
  src : Nat
  memsz : Nat
  filesz : Nat
  compression : Nat
  deriving DecidableEq, Repr

def cbfsCompressNone : Nat := 0
def cbfsCompressLzma : Nat := 1

/-- `a - b` on unsigned words. -/
def sub32 (a b : Nat) : Nat := u32 (a + 2 ^ 32 - b)

-- ---------------------------------------------------------------------------
-- Stores
-- ---------------------------------------------------------------------------

/-- Store `len` bytes from `dst` on; `byte k` is the one at `dst + k`. -/
def fill (m : Ram) (dst len : Nat) (byte : Nat → Byte) : Ram := fun x =>
  if sub32 x dst < len then byte (sub32 x dst) else m x

def memset (m : Ram) (dst : Nat) (c : Byte) (len : Nat) : Ram := fill m dst len fun _ => c

def memcpy (m : Ram) (dst src len : Nat) : Ram := fill m dst len fun k => m (u32 (src + k))

-- ---------------------------------------------------------------------------
-- Placement
-- ---------------------------------------------------------------------------

section Image

variable (img : Image)

/-- One round of the scan in `get_bounce_buffer`. -/
def bounceCandidate (lbSize buffer : Nat) (e : LbMemoryRange) : Nat :=
  if e.type ≠ lbMemRam then buffer
  else if e.start > 2 ^ 32 - 1 then buffer
  else if e.size < lbSize then buffer
  else
    let mstart := u32 e.start
    let msize := u32 (sub32 (2 ^ 32 - 1) mstart + 1)
    let msize := if msize > e.size then u32 e.size else msize
    let mend := u32 (mstart + msize)
    let tbuffer := sub32 mend lbSize
    if tbuffer < buffer then buffer else tbuffer

/-- The `bounce_buffer` it leaves; `bounce_size` is `reqSize`. -/
def getBounceBuffer (mem : List LbMemoryRange) (reqSize : Nat) : Nat :=
  let lbSize := sub32 img.lbEnd img.lbStart
  let lbSize := u32 (reqSize + lbSize)
  mem.foldl (bounceCandidate lbSize) 0

def validArea (mem : List LbMemoryRange) (buffer start len : Nat) : Bool :=
  let end_ := u32 (start + len)
  if end_ ≥ buffer then false
  else if mem.any fun e =>
      (e.type = lbMemRam ∨ e.type = lbMemTable) ∧ start ≥ e.start ∧
        end_ < u64 (e.start + e.size) then
    true
  else start < 1024 * 1024 ∧ end_ ≤ 1024 * 1024

def overlapsCoreboot (seg : Segment) : Bool :=
  let start := seg.dst
  let end_ := u32 (start + seg.memsz)
  ¬ (end_ ≤ img.lbStart ∨ start ≥ img.lbEnd)

/-- What `relocate_segment` leaves in the list: a piece in front of the
segment, the segment, and a piece behind it. -/
structure Relocated where
  early : Option Segment
  seg : Segment
  late : List Segment

/-- Take `len` bytes off the front of the segment: what comes off, and what is left. -/
def sliceFront (seg : Segment) (len : Nat) : Segment × Segment :=
  ({ seg with memsz := len, filesz := if seg.filesz > len then len else seg.filesz },
   { seg with
     memsz := sub32 seg.memsz len
     dst := u32 (seg.dst + len)
     src := u32 (seg.src + len)
     filesz := if seg.filesz > len then sub32 seg.filesz len else 0 })

def relocateSegment (buffer : Nat) (seg : Segment) : Relocated :=
  if overlapsCoreboot img seg = false then ⟨none, seg, []⟩
  else
    let start := seg.dst
    let end_ := u32 (start + seg.memsz)
    let (early, seg) :=
      if seg.compression = cbfsCompressNone ∧ start < img.lbStart then
        let (new, seg) := sliceFront seg (img.lbStart - start)
        (some new, seg)
      else (none, seg)
    let start := seg.dst
    let (seg, late) :=
      if seg.compression = cbfsCompressNone ∧ end_ > img.lbEnd then
        let (seg, new) := sliceFront seg (sub32 img.lbEnd start)
        (seg, [new])
      else (seg, [])
    ⟨early, { seg with dst := u32 (buffer + sub32 seg.dst img.lbStart) }, late⟩

-- ---------------------------------------------------------------------------
-- Loading
-- ---------------------------------------------------------------------------

/-- What the loader calls and reads besides the memory: `ulzma` gives the
length it decompressed, 0 on an error, and the memory it leaves. -/
structure Machine where
  rom : Nat → Byte
  ulzma : Ram → (src dst : Nat) → Nat × Ram

/-- Zero the rest of a segment whose first `len` bytes are loaded, and move
what lies beside the shadow of coreboot out of the buffer. -/
def finishSegment (buffer : Nat) (seg : Segment) (len : Nat) (m : Ram) : Ram :=
  let dest := seg.dst
  let end_ := u32 (dest + seg.memsz)
  let middle := u32 (dest + len)
  let m := if middle < end_ then memset m middle 0 (end_ - middle) else m
  if end_ > buffer then
    let m :=
      if dest < buffer then
        memcpy m (sub32 img.lbStart (buffer - dest)) dest (buffer - dest)
      else m
    let from_ := u32 (buffer + (img.lbEnd - img.lbStart))
    if end_ > from_ then memcpy m img.lbEnd from_ (end_ - from_) else m
  else m

/-- Load a relocated segment; `.error` is a result that ends the load. -/
def loadSegment (mach : Machine) (buffer : Nat) (seg : Segment) (m : Ram) : Except Int Ram :=
  if seg.filesz = 0 then .ok m
  else if seg.compression = cbfsCompressLzma then
    let (len, m) := mach.ulzma m seg.src seg.dst
    if len = 0 then .error 0 else .ok (finishSegment img buffer seg len m)
  else if seg.compression = cbfsCompressNone then
    let m := fill m seg.dst seg.filesz fun k => mach.rom (u32 (seg.src + k))
    .ok (finishSegment img buffer seg seg.filesz m)
  else .error (-1)

/-- The last loop of `load_self_segments`, over what is left of the list.
A piece split off in front sends the loop back to it. `none` is a loop that
has not ended within its bound. -/
def loadLoop (mach : Machine) (buffer : Nat) :
    (fuel : Nat) → List Segment → Ram → Option (Int × Ram)
  | 0, _, _ => none
  | _ + 1, [], m => some (1, m)
  | fuel + 1, seg :: rest, m =>
    let r := relocateSegment img buffer seg
    match r.early with
    | some early => loadLoop mach buffer fuel (early :: r.seg :: (r.late ++ rest)) m
    | none =>
      match loadSegment img mach buffer r.seg m with
      | .error result => some (result, m)
      | .ok m => loadLoop mach buffer fuel (r.late ++ rest) m

/-- The end of the last segment that overlaps coreboot, or of coreboot. -/
def bounceHigh (segs : List Segment) : Nat :=
  segs.foldl (fun high seg =>
    if overlapsCoreboot img seg = false then high
    else if u32 (seg.dst + seg.memsz) > high then u32 (seg.dst + seg.memsz)
    else high) img.lbEnd

def bounceSize (segs : List Segment) : Nat := sub32 (bounceHigh img segs) img.lbStart

def bounceBuffer (mem : List LbMemoryRange) (segs : List Segment) : Nat :=
  getBounceBuffer img mem (bounceSize img segs)

def loadSelfSegments (mach : Machine) (mem : List LbMemoryRange) (segs : List Segment)
    (fuel : Nat) (m : Ram) : Option (Int × Ram) :=
  let buffer := bounceBuffer img mem segs
  if buffer = 0 then some (0, m)
  else if segs.all fun seg => validArea mem buffer seg.dst seg.memsz then
    loadLoop img mach buffer fuel segs m
  else some (0, m)

end Image

-- ---------------------------------------------------------------------------
-- The payload
-- ---------------------------------------------------------------------------

inductive PayloadType where
  | code | data | bss | params | entry
  | other (type : Nat)
  deriving DecidableEq, Repr

/-- A `cbfs_payload_segment`, in host byte order. -/
structure PayloadSegment where
  type : PayloadType
  compression : Nat
  offset : Nat
  loadAddr : Nat
  len : Nat
  memLen : Nat
  deriving DecidableEq, Repr

/-- The list, the entry point and the result. -/
structure SegmentList where
  segs : List Segment
  entry : Nat
  result : Int

/-- What the loop body makes of a segment that is loaded. `new` is the
contents of the block that `malloc` returns, which a BSS segment keeps in
part; `firstSegment` is where the payload's segments start. -/
def newSegment (firstSegment : Nat) (new : Segment) (segment : PayloadSegment) : Option Segment :=
  match segment.type with
  | .code | .data =>
    some {
      dst := u32 segment.loadAddr
      memsz := segment.memLen
      compression := segment.compression
      src := u32 (firstSegment + segment.offset)
      filesz := if segment.len > segment.memLen then segment.memLen else segment.len }
  | .bss =>
    some { new with filesz := 0, dst := u32 segment.loadAddr, memsz := segment.memLen }
  | _ => none

/-- The comparison that places a segment does not read the list: it goes to
the front or to the end. -/
def insertSegment (new : Segment) (next : PayloadSegment) (segs : List Segment) : List Segment :=
  if new.src < next.loadAddr then new :: segs else segs ++ [new]

/-- `heap n` is what the block holds that `malloc` returns after `n` others.
`none` is a payload without an end. -/
def buildSelfSegmentList (firstSegment : Nat) (heap : Nat → Segment) :
    (n : Nat) → (segs : List Segment) → List PayloadSegment → Option SegmentList
  | _, _, [] => none
  | n, segs, segment :: rest =>
    match segment.type with
    | .params => buildSelfSegmentList firstSegment heap n segs rest
    | .entry => some ⟨segs, u32 segment.loadAddr, 1⟩
    | .other _ => some ⟨segs, 0, -1⟩
    | .code | .data | .bss => do
      let next ← rest.head?
      let new ← newSegment firstSegment (heap n) segment
      buildSelfSegmentList firstSegment heap (n + 1) (insertSegment new next segs) rest

/-- The entry point, 0 where the load failed, with the memory and the bounce
buffer that the load leaves. -/
structure Loaded where
  entry : Nat
  ram : Ram
  buffer : Nat
  size : Nat

def selfload (img : Image) (mach : Machine) (mem : List LbMemoryRange) (firstSegment : Nat)
    (heap : Nat → Segment) (payload : List PayloadSegment) (fuel : Nat) (m : Ram) :
    Option Loaded := do
  let list ← buildSelfSegmentList firstSegment heap 0 [] payload
  let (result, m) ← loadSelfSegments img mach mem list.segs fuel m
  let entry := if result = 0 then 0 else list.entry
  some ⟨entry, m, bounceBuffer img mem list.segs, bounceSize img list.segs⟩

/-- The last thing before the payload is entered: the buffer goes where
coreboot was. -/
def jmpToElfEntry (img : Image) (l : Loaded) : Ram := memcpy l.ram img.lbStart l.buffer l.size

end ItxLlama.Coreboot.SelfBoot
