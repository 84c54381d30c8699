import ItxLlama.Coreboot.FixedMtrr
import ItxLlama.Lib.Dyadic
import ItxLlama.Lib.Word

/-!
# Variable MTRRs

`x86_setup_var_mtrrs` of `cpu/x86/mtrr/mtrr.c`, without `CONFIG_CACHE_ROM`: the
dry runs that choose the default type, and the run that writes the registers.
The address space is a list of entries; `memranges_next_entry` is the head of
what comes behind an entry. Page numbers have 32 bits.
-/

namespace ItxLlama.Coreboot.VarMtrr

open Lib.Word Lib.Wrap

/-- Find the most significant bit set. -/
def fms (x : Nat) : Nat := Nat.log2 x

/-- Find the least significant bit set. -/
def fls (x : Nat) : Nat := ((List.range 32).find? x.testBit).getD 32

def mtrrMinAlign : Nat := physToRangeAddr (64 * 2 ^ 20)
def range1mb : Nat := physToRangeAddr (2 ^ 20)
def range4gb : Nat := 2 ^ 20

def mtrrAlgoShift : Nat := 8

def mtrrRangeUcUseHole : Nat := 2 ^ mtrrAlgoShift

def uncacheable : Nat := mtrrTypeUncacheable.toNat
def wrback : Nat := mtrrTypeWrback.toNat

def mtrrPhysMaskValid : Nat := 2 ^ 11

def rangeEntryMtrrType (r : RangeEntry) : Nat := r.tag % 2 ^ mtrrAlgoShift

/-- The registers `MTRRphysBase_MSR` and `MTRRphysMask_MSR` of one index. -/
structure PhysMtrr where
  base : Nat
  mask : Nat

structure VarMtrrState where
  above4gb : Bool
  addressBits : Nat
  commitMtrrs : Bool
  mtrrIndex : Nat
  defMtrrType : Nat
  msrs : Nat → PhysMtrr

section
variable (totalMtrrs : Nat)

def clearVarMtrr (index : Nat) (msrs : Nat → PhysMtrr) : Nat → PhysMtrr :=
  Function.update msrs index
    { msrs index with mask := Nat.ldiff (msrs index).mask mtrrPhysMaskValid }

def writeVarMtrr (s : VarMtrrState) (base size mtrrType : Nat) : VarMtrrState :=
  if s.mtrrIndex ≥ totalMtrrs then s
  else
    let rbase := u64 (base * 2 ^ rangeShift)
    let rsize := u64 (size * 2 ^ rangeShift)
    let rsize := u64 (2 ^ 64 - rsize)
    let mask := u64 (2 ^ s.addressBits - 1)
    let rsize := rsize &&& mask
    let msr := ⟨rbase ||| mtrrType, rsize ||| mtrrPhysMaskValid⟩
    { s with msrs := Function.update s.msrs s.mtrrIndex msr }

/-- The size of the next MTRR, from the lowest bit of the base and the highest of the size. -/
def mtrrSize (base size : Nat) : Nat :=
  let addrLsb := fls base
  let sizeMsb := fms size
  if addrLsb > sizeMsb then 2 ^ sizeMsb else 2 ^ addrLsb

theorem mtrrSize_pos (base size : Nat) : 0 < mtrrSize base size := by
  unfold mtrrSize
  dsimp only
  split <;> exact Nat.pow_pos (by decide)

def calcVarMtrrRange (s : VarMtrrState) (base size mtrrType : Nat) : VarMtrrState :=
  if size = 0 then s
  else
    let s := if s.commitMtrrs then
        writeVarMtrr totalMtrrs s base (mtrrSize base size) mtrrType else s
    calcVarMtrrRange { s with mtrrIndex := s.mtrrIndex + 1 } (u32 (base + mtrrSize base size))
      (size - mtrrSize base size) mtrrType
termination_by size
decreasing_by
  rename_i hsize
  exact Nat.sub_lt (Nat.pos_of_ne_zero hsize) (mtrrSize_pos base size)

/-- `ALIGN_UP` and `ALIGN_DOWN` to the minimum alignment. -/
def alignUpMin (x : Nat) : Nat := alignDown (u32 (x + (mtrrMinAlign - 1))) mtrrMinAlign
def alignDownMin (x : Nat) : Nat := alignDown x mtrrMinAlign

/-- The common beginning of the two algorithms. Below 1 MiB the fixed MTRRs take precedence, so
the range is ignored or starts at 0; it ends at 4 GiB where nothing above is processed. -/
def clip {α : Type} (above4gb : Bool) (r : RangeEntry) (skip : α) (f : Nat → Nat → α) : α :=
  let a1 := rangeEntryBaseMtrrAddr r
  let a2 := rangeEntryEndMtrrAddr r
  if a2 < range1mb then skip
  else
    let a1 := if a1 < range1mb then 0 else a1
    if !above4gb ∧ a1 ≥ range4gb then skip
    else
      let a2 := if !above4gb ∧ a2 > range4gb then range4gb else a2
      f a1 a2

/-- `calc_var_mtrrs_with_hole` from the look at the next entry on. -/
def calcVarMtrrHole (s : VarMtrrState) (a1 a2 mtrrType : Nat) (next : Option RangeEntry) :
    VarMtrrState :=
  let b1 := a2
  let b2 := u32 (2 ^ fls a1 + a1)
  -- the last entry above 4 GiB may cover more than it has
  if a1 ≥ range4gb ∧ next.isNone ∧ b2 ≥ a2 then
    calcVarMtrrRange totalMtrrs s a1 (sub32 b2 a1) mtrrType
  else
    let b2 := alignUpMin a2
    let carve := match next with
      | none => true
      | some next =>
        decide (rangeEntryMtrrType next = s.defMtrrType ∧ rangeEntryEndMtrrAddr next ≥ b2)
    if !carve then calcVarMtrrRange totalMtrrs s a1 (sub32 a2 a1) mtrrType
    else
      let s := calcVarMtrrRange totalMtrrs s a1 (sub32 b2 a1) mtrrType
      calcVarMtrrRange totalMtrrs s b1 (sub32 b2 b1) s.defMtrrType

def calcVarMtrrsWithHole (s : VarMtrrState) (r : RangeEntry) (next : Option RangeEntry) :
    VarMtrrState :=
  clip s.above4gb r s fun a1 a2 =>
    calcVarMtrrHole totalMtrrs s a1 a2 (rangeEntryMtrrType r) next

/-- `calc_var_mtrrs_without_hole` from the look at the size on. -/
def calcVarMtrrParts (s : VarMtrrState) (a1 c2 mtrrType : Nat) : VarMtrrState :=
  if sub32 c2 a1 < mtrrMinAlign then calcVarMtrrRange totalMtrrs s a1 (sub32 c2 a1) mtrrType
  else
    let b1 := alignUpMin a1
    let a2 := b1
    let b2 := alignDownMin c2
    let c1 := b2
    let s := calcVarMtrrRange totalMtrrs s a1 (sub32 a2 a1) mtrrType
    let s := calcVarMtrrRange totalMtrrs s b1 (sub32 b2 b1) mtrrType
    calcVarMtrrRange totalMtrrs s c1 (sub32 c2 c1) mtrrType

def calcVarMtrrsWithoutHole (s : VarMtrrState) (r : RangeEntry) : VarMtrrState :=
  clip s.above4gb r s fun a1 c2 => calcVarMtrrParts totalMtrrs s a1 c2 (rangeEntryMtrrType r)

/-- The number of MTRRs that a dry run counts. -/
def counted (algo : VarMtrrState → VarMtrrState) (above4gb : Bool) (addressBits defMtrrType : Nat)
    (msrs : Nat → PhysMtrr) : Nat :=
  (algo ⟨above4gb, addressBits, false, 0, defMtrrType, msrs⟩).mtrrIndex

/-- What the walk of `calc_var_mtrrs` leaves: the entries with the best algorithm in their
tags, and the counts for the default types WB and UC. -/
structure Counts where
  entries : List RangeEntry
  wbDeftypeCount : Nat
  ucDeftypeCount : Nat

def calcEntry (above4gb : Bool) (addressBits : Nat) (msrs : Nat → PhysMtrr) (r : RangeEntry)
    (next : Option RangeEntry) : RangeEntry × Nat × Nat :=
  let mtrrType := rangeEntryMtrrType r
  let (r', uc) :=
    if mtrrType ≠ uncacheable then
      let ucNoHoleCount := counted (calcVarMtrrsWithoutHole totalMtrrs · r) above4gb addressBits
        uncacheable msrs
      let ucHoleCount :=
        if mtrrType = wrback then
          counted (calcVarMtrrsWithHole totalMtrrs · r next) above4gb addressBits
            uncacheable msrs
        else 64
      if ucNoHoleCount < ucHoleCount then (r, ucNoHoleCount)
      else ({ r with tag := mtrrType ||| mtrrRangeUcUseHole }, ucHoleCount)
    else (r, 0)
  let wb :=
    if mtrrType ≠ wrback then
      counted (calcVarMtrrsWithoutHole totalMtrrs · r') above4gb addressBits wrback msrs
    else 0
  (r', wb, uc)

def calcEntries (above4gb : Bool) (addressBits : Nat) (msrs : Nat → PhysMtrr) :
    List RangeEntry → Counts
  | [] => ⟨[], 0, 0⟩
  | r :: rest =>
    let (r', wb, uc) := calcEntry totalMtrrs above4gb addressBits msrs r rest.head?
    let counts := calcEntries above4gb addressBits msrs rest
    ⟨r' :: counts.entries, wb + counts.wbDeftypeCount, uc + counts.ucDeftypeCount⟩

/-- The default type that `calc_var_mtrrs` returns. -/
def Counts.defType (c : Counts) : Nat :=
  if c.wbDeftypeCount < c.ucDeftypeCount then wrback else uncacheable

/-- The number of MTRRs for it. -/
def Counts.count (c : Counts) : Nat :=
  if c.wbDeftypeCount < c.ucDeftypeCount then c.wbDeftypeCount else c.ucDeftypeCount

def commitEntry (s : VarMtrrState) (r : RangeEntry) (next : Option RangeEntry) : VarMtrrState :=
  if rangeEntryMtrrType r = s.defMtrrType then s
  else if s.defMtrrType = uncacheable ∧ r.tag.testBit mtrrAlgoShift then
    calcVarMtrrsWithHole totalMtrrs s r next
  else calcVarMtrrsWithoutHole totalMtrrs s r

def commitEntries (s : VarMtrrState) : List RangeEntry → VarMtrrState
  | [] => s
  | r :: rest => commitEntries (commitEntry totalMtrrs s r rest.head?) rest

def commitVarMtrrs (addrSpace : List RangeEntry) (defType : Nat) (above4gb : Bool)
    (addressBits : Nat) (msrs : Nat → PhysMtrr) : VarMtrrState :=
  let s := commitEntries totalMtrrs ⟨above4gb, addressBits, true, 0, defType, msrs⟩ addrSpace
  let rest := List.range' s.mtrrIndex (totalMtrrs - s.mtrrIndex)
  { s with msrs := rest.foldl (fun msrs i => clearVarMtrr i msrs) s.msrs }

/-- The first call of `x86_setup_var_mtrrs`, with the default type that it enables. -/
def x86SetupVarMtrrs (addressBits : Nat) (above4gb : Bool) (addrSpace : List RangeEntry)
    (msrs : Nat → PhysMtrr) : Counts × VarMtrrState :=
  let counts := calcEntries totalMtrrs above4gb addressBits msrs addrSpace
  (counts, commitVarMtrrs totalMtrrs counts.entries counts.defType above4gb addressBits msrs)

end

-- ---------------------------------------------------------------------------
-- What the registers mean
-- ---------------------------------------------------------------------------

def PhysMtrr.valid (m : PhysMtrr) : Bool := m.mask.testBit 11

def PhysMtrr.type (m : PhysMtrr) : Nat := m.base % 2 ^ 8

/-- A valid MTRR has the pages that agree with its base under its mask. -/
def PhysMtrr.Has (m : PhysMtrr) (page : Nat) : Prop :=
  m.valid ∧ page &&& m.mask / 2 ^ 12 = m.base / 2 ^ 12 &&& m.mask / 2 ^ 12

instance (m : PhysMtrr) (page : Nat) : Decidable (m.Has page) :=
  inferInstanceAs (Decidable (_ ∧ _))

/-- The type of a page by the variable MTRRs: UC wins, and others must agree. -/
def memoryType (totalMtrrs defType : Nat) (msrs : Nat → PhysMtrr) (page : Nat) : Option Nat :=
  match (List.range totalMtrrs).filter (fun i => (msrs i).Has page) with
  | [] => some defType
  | i :: is =>
    if ∃ j ∈ i :: is, (msrs j).type = uncacheable then some uncacheable
    else if ∀ j ∈ is, (msrs j).type = (msrs i).type then some (msrs i).type
    else none

end ItxLlama.Coreboot.VarMtrr
