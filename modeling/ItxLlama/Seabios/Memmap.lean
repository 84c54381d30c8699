import ItxLlama.Lib.Ranges
import ItxLlama.Lib.Word

/-!
# The e820 memory map

`memmap.c`. The table is the list of its first `e820_count` entries; the
two scans of `add_e820` walk it from an index on, so they recurse on the
rest of the list. Calls of `warn_noalloc` are counted: one is made for
every entry that `insert_e820` refuses.
-/

namespace ItxLlama.Seabios

open Lib.Word

def buildMaxE820 : Nat := 32

def e820Ram : Nat := 1
def e820Reserved : Nat := 2
def e820Acpi : Nat := 3
def e820Nvs : Nat := 4
def e820Unusable : Nat := 5
def e820Hole : Nat := 2 ^ 32 - 1

structure E820Entry where
  start : Nat
  size : Nat
  type : Nat
  deriving DecidableEq, Repr

def E820Entry.eEnd (e : E820Entry) : Nat := u64 (e.start + e.size)

structure E820Map where
  list : List E820Entry
  warnNoalloc : Nat
  deriving DecidableEq, Repr

def emptyE820 : E820Map := ⟨[], 0⟩

def insertE820 (i : Nat) (e : E820Entry) (m : E820Map) : E820Map :=
  if m.list.length ≥ buildMaxE820 then { m with warnNoalloc := m.warnNoalloc + 1 }
  else { m with list := m.list.take i ++ e :: m.list.drop i }

/-- The first scan: the position of the first entry that does not end
before `start`, and that entry. -/
def findE820 (start : Nat) : List E820Entry → (i : Nat) → Nat × Option E820Entry
  | [], i => (i, none)
  | e :: es, i => if start > e.eEnd then findE820 start es (i + 1) else (i, some e)

/-- The second scan, from position `i` on: what is left of the entries from
there, and the size of the new entry. -/
def removeOverlap (end_ type : Nat) : List E820Entry → (size : Nat) → List E820Entry × Nat
  | [], size => ([], size)
  | e :: es, size =>
    if end_ < e.start then (e :: es, size)
    else if end_ ≥ e.eEnd then removeOverlap end_ type es size
    else
      let e' := { e with start := end_, size := e.eEnd - end_ }
      if type = e.type then (es, u64 (size + e'.size)) else (e' :: es, size)

/-- The split at the found position: the new position, start and size. -/
def splitE820 (start end_ size type : Nat) (m : E820Map) : Nat × Nat × Nat × E820Map :=
  match findE820 start m.list 0 with
  | (i, none) => (i, start, size, m)
  | (i, some e) =>
    if start > e.start then
      if type = e.type then (i, e.start, u64 (size + (start - e.start)), m)
      else
        let m := { m with list := m.list.set i { e with size := start - e.start } }
        let i := i + 1
        if e.eEnd > end_ then
          (i, start, size, insertE820 i ⟨end_, e.eEnd - end_, e.type⟩ m)
        else (i, start, size, m)
    else (i, start, size, m)

def addE820 (start size type : Nat) (m : E820Map) : E820Map :=
  if size = 0 then m else
  let end_ := u64 (start + size)
  let (i, start, size, m) := splitE820 start end_ size type m
  let (rest, size) := removeOverlap end_ type (m.list.drop i) size
  let m := { m with list := m.list.take i ++ rest }
  if type ≠ e820Hole then insertE820 i ⟨start, size, type⟩ m else m

end ItxLlama.Seabios
