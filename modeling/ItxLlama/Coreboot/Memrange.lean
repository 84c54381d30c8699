import ItxLlama.Lib.Ranges
import ItxLlama.Lib.Word

/-!
# Memory ranges

`lib/memrange.c`. Entries have inclusive ends. A list of entries stands for
the linked list behind `ranges->entries`; the loops that walk it through
`prev_ptr` recurse on its tail. Entries taken out go to `free_list`, which
`alloc_range` empties before it calls `malloc`; `malloc` dies where it runs
out, so an entry is always there.
-/

namespace ItxLlama.Coreboot

open Lib.Word

structure RangeEntry where
  begin_ : Nat
  end_ : Nat
  tag : Nat
  deriving DecidableEq, Repr

structure Memranges where
  entries : List RangeEntry
  freeList : List RangeEntry
  deriving DecidableEq, Repr

/-- Link an entry, cached or new, in front of `rest`. -/
def rangeListAdd (begin_ end_ tag : Nat) (rest : List RangeEntry) (freeList : List RangeEntry) :
    Memranges :=
  ⟨⟨begin_, end_, tag⟩ :: rest, freeList.tail⟩

/-- Put an entry that stays in front of what the rest of the loop leaves. -/
def Memranges.link (cur : RangeEntry) (m : Memranges) : Memranges :=
  { m with entries := cur :: m.entries }

def mergeFrom (prev : RangeEntry) : List RangeEntry → (freeList : List RangeEntry) → Memranges
  | [], freeList => ⟨[prev], freeList⟩
  | cur :: rest, freeList =>
    if u64 (prev.end_ + 1) ≥ cur.begin_ ∧ prev.tag = cur.tag then
      mergeFrom { prev with end_ := cur.end_ } rest (cur :: freeList)
    else (mergeFrom cur rest freeList).link prev

def mergeNeighborEntries (m : Memranges) : Memranges :=
  match m.entries with
  | [] => m
  | prev :: rest => mergeFrom prev rest m.freeList

/-- The loop of `remove_memranges`. -/
def removeFrom (begin_ end_ : Nat) : List RangeEntry → (freeList : List RangeEntry) → Memranges
  | [], freeList => ⟨[], freeList⟩
  | cur :: next, freeList =>
    if end_ < cur.begin_ then ⟨cur :: next, freeList⟩
    else if begin_ > cur.end_ then (removeFrom begin_ end_ next freeList).link cur
    else if begin_ ≤ cur.begin_ ∧ end_ ≥ cur.end_ then
      removeFrom (u64 (cur.end_ + 1)) end_ next (cur :: freeList)
    else
      let begin_ := if begin_ ≤ cur.begin_ then cur.begin_ else begin_
      let tmpEnd := if end_ > cur.end_ then cur.end_ else end_
      if begin_ > cur.begin_ ∧ tmpEnd < cur.end_ then
        (rangeListAdd (u64 (end_ + 1)) cur.end_ cur.tag next freeList).link
          { cur with end_ := u64 (begin_ + 2 ^ 64 - 1) }
      else
        let cur' := if begin_ = cur.begin_ then { cur with begin_ := u64 (tmpEnd + 1) } else cur
        let cur' :=
          if tmpEnd = cur.end_ then { cur' with end_ := u64 (begin_ + 2 ^ 64 - 1) } else cur'
        (removeFrom begin_ end_ next freeList).link cur'

def removeMemranges (m : Memranges) (begin_ end_ : Nat) : Memranges :=
  removeFrom begin_ end_ m.entries m.freeList

/-- The loop of `merge_add_memranges` and the `range_list_add` after it. -/
def addFrom (begin_ end_ tag : Nat) : List RangeEntry → (freeList : List RangeEntry) → Memranges
  | [], freeList => rangeListAdd begin_ end_ tag [] freeList
  | cur :: next, freeList =>
    if end_ < cur.begin_ then rangeListAdd begin_ end_ tag (cur :: next) freeList
    else (addFrom begin_ end_ tag next freeList).link cur

def mergeAddMemranges (m : Memranges) (begin_ end_ tag : Nat) : Memranges :=
  let m := removeMemranges m begin_ end_
  mergeNeighborEntries (addFrom begin_ end_ tag m.entries m.freeList)

/-- The page-rounded bounds `do_action` hands on, the second inclusive. -/
def actionBegin (base : Nat) : Nat := alignDown base 4096

def actionEnd (base size : Nat) : Nat :=
  let begin_ := actionBegin base
  let end_ := u64 (begin_ + size + (base - begin_))
  u64 (alignDown (u64 (end_ + 4095)) 4096 + 2 ^ 64 - 1)

def memrangesInsert (m : Memranges) (base size tag : Nat) : Memranges :=
  mergeAddMemranges m (actionBegin base) (actionEnd base size) tag

def memrangesCreateHole (m : Memranges) (base size : Nat) : Memranges :=
  removeMemranges m (actionBegin base) (actionEnd base size)

end ItxLlama.Coreboot
