import ItxLlama.Lib.Hlist
import ItxLlama.Lib.Word

/-!
# Zone allocator

`malloc.c`, at the level of memory words. An `allocinfo_s` at `a` has its
list node at `a` and `a + 4`, `data` at `a + 8`, `dataend` at `a + 12` and
`allocend` at `a + 16`; an `allocdetail_s` at `d` has `detailinfo` at `d`,
`datainfo` at `d + 20` and `handle` at `d + 40`. Pointers are their
addresses and null is 0. `none` is a walk that never ends. The build is the
one with `CONFIG_MALLOC_UPPERMEMORY`, in which `_malloc` never calls
`zonelow_expand`.
-/

namespace ItxLlama.Seabios

open Lib.Word Lib.Hlist

inductive Zone where
  | tmpLow
  | low
  | fseg
  | tmpHigh
  | high
  deriving DecidableEq, Repr

def zones : List Zone := [.tmpLow, .low, .fseg, .tmpHigh, .high]

/-- The stack and the zone heads are not memory that a zone hands out: they
get addresses from 4 GiB on. -/
def tempDatainfo : Nat := 2 ^ 32

def headBase : Nat := 2 ^ 32 + 0x100

def Zone.head : Zone → Nat
  | .tmpLow => headBase
  | .low => headBase + 0x100
  | .fseg => headBase + 0x200
  | .tmpHigh => headBase + 0x300
  | .high => headBase + 0x400

/-- `sizeof(struct allocdetail_s)` -/
def detailSize : Nat := 44

def mallocMinAlign : Nat := 16

def mallocDefaultHandle : Nat := 0xFFFFFFFF

/-- A walk that takes a step for every address goes in a circle. -/
def walkFuel : Nat := 2 ^ 32

-- ---------------------------------------------------------------------------
-- Low-level memory reservations
-- ---------------------------------------------------------------------------

/-- `ALIGN_DOWN((u32)allocend - size, align)` -/
def newAllocend (allocend size align : Nat) : Nat :=
  alignDown (u32 (allocend + 2 ^ 32 - size)) align

/-- The test of `allocSpace` on a list entry. -/
def fits (m : Mem) (size align info : Nat) : Bool :=
  m (info + 12) ≤ newAllocend (m (info + 16)) size align &&
    newAllocend (m (info + 16)) size align ≤ m (info + 16)

def allocSpace (m : Mem) (zone : Zone) (size align fill : Nat) : Option (Nat × Mem) := do
  let pprev ← hlistFind m (fits m size align) walkFuel zone.head
  let info := m pprev
  if info = 0 then return (0, m)
  let allocend := m (info + 16)
  let new := newAllocend allocend size align
  let fill := if fill = 0 then new else fill
  let m := store m (fill + 8) new
  let m := store m (fill + 12) (u32 (new + size))
  let m := store m (fill + 16) allocend
  let m := store m (info + 16) new
  return (new, hlistAddBefore m fill info)

def freeSpace (m : Mem) (info : Nat) : Mem :=
  let next := m info
  let m := if next ≠ 0 ∧ m (next + 16) = m (info + 8) then store m (next + 16) (m (info + 16))
    else m
  hlistDel m info

/-- The reservation of a detail record in `addSpace` and in `_malloc`. -/
def reserveDetail (m : Mem) : Option (Nat × Mem) := do
  let (detail, m) ← allocSpace m .tmpHigh detailSize mallocMinAlign 0
  if detail = 0 then allocSpace m .tmpLow detailSize mallocMinAlign 0
  else return (detail, m)

/-- `memcpy` of an `allocinfo_s`. -/
def copyInfo (m : Mem) (dst src : Nat) : Mem :=
  let m := store m dst (m src)
  let m := store m (dst + 4) (m (src + 4))
  let m := store m (dst + 8) (m (src + 8))
  let m := store m (dst + 12) (m (src + 12))
  store m (dst + 16) (m (src + 16))

/-- The flag says whether the space was added: `false` is the return after
`warn_noalloc`. -/
def addSpace (m : Mem) (zone : Zone) (start end_ : Nat) : Option (Bool × Mem) := do
  let pprev ← hlistFind m (fun info => m (info + 8) < start) walkFuel zone.head
  let temp := tempDatainfo
  let m := store m (temp + 12) start
  let m := store m (temp + 8) start
  let m := store m (temp + 16) end_
  let m := hlistAdd m temp pprev
  let (detail, m) ← reserveDetail m
  if detail = 0 then return (false, hlistDel m temp)
  let pprev := m (temp + 4)
  let m := hlistDel m temp
  let m := copyInfo m (detail + 20) temp
  let m := store m (detail + 40) mallocDefaultHandle
  return (true, hlistAdd m (detail + 20) pprev)

/-- The loop of `findAlloc` over the zones. -/
def findAllocIn (m : Mem) (data : Nat) : List Zone → Option Nat
  | [] => some 0
  | zone :: rest => do
    let pprev ← hlistFind m (fun info => m (info + 8) = data) walkFuel zone.head
    if m pprev = 0 then findAllocIn m data rest else return m pprev

def findAlloc (m : Mem) (data : Nat) : Option Nat := findAllocIn m data zones

/-- The lowest segment of a zone. -/
def findLast (m : Mem) (zone : Zone) : Nat := (listRecords m walkFuel zone.head).getLastD 0

-- ---------------------------------------------------------------------------
-- Tracked memory allocations
-- ---------------------------------------------------------------------------

def malloc (m : Mem) (zone : Zone) (size align : Nat) : Option (Nat × Mem) := do
  if size = 0 then return (0, m)
  let (detail, m) ← reserveDetail m
  if detail = 0 then return (0, m)
  let m := store m (detail + 40) mallocDefaultHandle
  let (data, m) ← allocSpace m zone size align (detail + 20)
  if data = 0 then return (0, freeSpace m detail)
  return (data, m)

def free (m : Mem) (data : Nat) : Option (Int × Mem) := do
  let info ← findAlloc m data
  if info = 0 ∨ data = info ∨ data = m (info + 12) then return (-1, m)
  let detail := info - 20
  return (0, freeSpace (freeSpace m info) detail)

def mallocGetspace (m : Mem) (zone : Zone) : Nat :=
  let maxspace := (listRecords m walkFuel zone.head).foldl (fun maxspace info =>
    let space := u32 (m (info + 16) + 2 ^ 32 - m (info + 12))
    if space > maxspace then space else maxspace) 0
  if zone ≠ .tmpHigh ∧ zone ≠ .tmpLow then maxspace
  else
    let reserve := alignUp detailSize mallocMinAlign
    if maxspace ≤ reserve then 0 else maxspace - reserve

end ItxLlama.Seabios
