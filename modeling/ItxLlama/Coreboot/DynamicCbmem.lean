import ItxLlama.Lib.Bytes
import ItxLlama.Lib.Tiling
import ItxLlama.Lib.Word
import Mathlib.Logic.Relation

/-!
# Dynamic CBMEM

`lib/dynamic_cbmem.c`, and the hooks that it calls: `move_gdt` and the migration
of the cache-as-ram variables. Memory is words of 32 bits by their address; the
root pointer, the root and its entries are read and written where their structs
put them. `top` is what `cbmem_top` returns; a pointer is an address and NULL
is 0.
-/

namespace ItxLlama.Coreboot.Dynamic

open Lib.Bytes Lib.Word Lib.Tiling

abbrev Mem := Nat → Nat

def dynCbmemAlignSize : Nat := 4096
def rootMinSize : Nat := dynCbmemAlignSize
def cbmemPointerMagic : Nat := 0xc0389479
def cbmemEntryMagic : Nat := 2 ^ 32 - 1 - cbmemPointerMagic
def cbmemIdRoot : Nat := 0xff4007ff
def cbmemIdGdt : Nat := 0x4c474454
def cbmemIdCarGlobals : Nat := 0xcac4e6a3
def uintMax : Nat := 4294967295

/-- `sizeof(struct cbmem_root_pointer)`, `sizeof(struct cbmem_root)` and
`sizeof(struct cbmem_entry)`. -/
def sizeofRootPointer : Nat := 8
def sizeofRoot : Nat := 16
def sizeofEntry : Nat := 16

def Mem.read (m : Mem) (addr : Nat) : Nat := m (u32 addr)

def Mem.write (m : Mem) (addr value : Nat) : Mem := Function.update m (u32 addr) value

def Mem.writeByte (m : Mem) (addr : Nat) (b : Byte) : Mem :=
  let word := u32 addr / 4 * 4
  let old := m.read word
  let place := 2 ^ (u32 addr % 4 * 8)
  m.write word (old / (place * 256) * (place * 256) + b.toNat * place + old % place)

def Mem.memcpy (m : Mem) (dst : Nat) : List Byte → Mem
  | [] => m
  | b :: bytes => (m.writeByte dst b).memcpy (dst + 1) bytes

/-- `a - b` on unsigned words. -/
def sub32 (a b : Nat) : Nat := u32 (a + 2 ^ 32 - b)

section Root

variable (m : Mem) (root : Nat)

def maxEntries : Nat := m.read root
def numEntries : Nat := m.read (root + 4)
def locked : Nat := m.read (root + 8)
def rootSize : Nat := m.read (root + 12)

/-- `&root->entries[i]`. -/
def entryAddr (i : Nat) : Nat := u32 (root + sizeofRoot + i * sizeofEntry)

end Root

section Entry

variable (m : Mem) (entry : Nat)

def entryMagic : Nat := m.read entry
def entryStart : Nat := m.read (entry + 4)
def entrySize : Nat := m.read (entry + 8)
def entryId : Nat := m.read (entry + 12)

end Entry

section Source

variable (top : Nat)

def getTopAligned : Nat := alignDown top dynCbmemAlignSize

def pointerAddr : Nat := sub32 (getTopAligned top) sizeofRootPointer

def getRoot (m : Mem) : Nat :=
  if m.read (pointerAddr top) ≠ cbmemPointerMagic then 0 else m.read (pointerAddr top + 4)

def cbmemEntryAssign (m : Mem) (entry id start size : Nat) : Mem :=
  (((m.write entry cbmemEntryMagic).write (entry + 4) start).write (entry + 8) size).write
    (entry + 12) id

def cbmemEntryAppend (m : Mem) (root id start size : Nat) : Nat × Mem :=
  let entry := entryAddr root (numEntries m root)
  let m := m.write (root + 4) (u32 (numEntries m root + 1))
  (entry, cbmemEntryAssign m entry id start size)

/-- The loop of `validate_entries` over `n` entries from index `i` on; it
says whether all of them pass. -/
def validateFrom (m : Mem) (root : Nat) : (n i currentEnd : Nat) → Bool
  | 0, _, _ => true
  | n + 1, i, currentEnd =>
    let entry := entryAddr root i
    if entryMagic m entry ≠ cbmemEntryMagic then false
    else if entryStart m entry % dynCbmemAlignSize ≠ 0 then false
    else if u32 (entryStart m entry + entrySize m entry) ≠ currentEnd then false
    else validateFrom m root n (i + 1) (entryStart m entry)

def validateEntries (m : Mem) (root : Nat) : Bool :=
  validateFrom m root (numEntries m root) 0 (getTopAligned top)

def cbmemBase (m : Mem) : Nat :=
  let root := getRoot top m
  if root = 0 then 0
  else if numEntries m root > 0 then entryStart m (entryAddr root (numEntries m root - 1))
  else root

def cbmemEntryFind (m : Mem) (id : Nat) : Nat :=
  let root := getRoot top m
  if root = 0 then 0
  else match (List.range (numEntries m root)).find? fun i => entryId m (entryAddr root i) == id with
    | some i => entryAddr root i
    | none => 0

def cbmemEntryAdd (m : Mem) (id size64 : Nat) : Nat × Mem :=
  let entry := cbmemEntryFind top m id
  if entry ≠ 0 then (entry, m)
  else if size64 > uintMax then (0, m)
  else
    let root := getRoot top m
    if root = 0 then (0, m)
    else if locked m root ≠ 0 then (0, m)
    else if maxEntries m root = numEntries m root then (0, m)
    else
      let alignedSize := alignDown (u32 (size64 + (dynCbmemAlignSize - 1))) dynCbmemAlignSize
      cbmemEntryAppend m root id (sub32 (cbmemBase top m) alignedSize) alignedSize

/-- `entry - &root->entries[0]`: the difference in bytes is signed. -/
def entryNum (root entry : Nat) : Nat :=
  let diff := sub32 entry (entryAddr root 0)
  if diff < 2 ^ 31 then diff / sizeofEntry else diff / sizeofEntry + (2 ^ 32 - 2 ^ 28)

def cbmemEntryRemove (m : Mem) (entry : Nat) : Int × Mem :=
  let root := getRoot top m
  if root = 0 then (-1, m)
  else if numEntries m root = 0 then (-1, m)
  else if locked m root ≠ 0 then (-1, m)
  else if entryNum root entry = sub32 (numEntries m root) 1 then
    (0, m.write (root + 4) (sub32 (numEntries m root) 1))
  else (-1, m)

-- ---------------------------------------------------------------------------
-- The hooks
-- ---------------------------------------------------------------------------

/-- `NULL` too where the entry lies at address 0. -/
def cbmemAdd (m : Mem) (id size : Nat) : Nat × Mem :=
  let (entry, m) := cbmemEntryAdd top m id size
  if entry = 0 then (0, m) else (entryStart m entry, m)

def cbmemFind (m : Mem) (id : Nat) : Nat :=
  let entry := cbmemEntryFind top m id
  if entry = 0 then 0 else entryStart m entry

/-- The table of `c_start.S`. -/
def gdt : List Byte :=
  [0, 0, 0, 0, 0, 0, 0, 0,
   0, 0, 0, 0, 0, 0, 0, 0,
   0xff, 0xff, 0, 0, 0, 0x9b, 0xcf, 0,
   0xff, 0xff, 0, 0, 0, 0x93, 0xcf, 0,
   0, 0, 0, 0, 0, 0, 0, 0,
   0xff, 0xff, 0, 0, 0, 0x9a, 0, 0,
   0xff, 0xff, 0, 0, 0, 0x92, 0, 0,
   0, 0, 0, 0, 0, 0x93, 0x8f, 0,
   0xff, 0xff, 0, 0, 0, 0x9b, 0x8f, 0]

def moveGdt (m : Mem) : Mem :=
  if cbmemFind top m cbmemIdGdt ≠ 0 then m
  else
    let (newgdt, m) := cbmemAdd top m cbmemIdGdt (alignUp gdt.length 512)
    if newgdt = 0 then m else m.memcpy newgdt gdt

/-- A function of the section `.car.migrate`: it adds an entry of its own, and stores into memory
when it has got one. -/
structure Migration where
  id : Nat
  size : Nat
  store : (start : Nat) → Mem → Mem

/-- The stage that calls: `preRam` is `__PRE_RAM__`, and what follows it is for the romstage the
cache-as-ram variables, whether they have moved and who moves with them, for the ramstage ACPI. -/
structure Stage where
  preRam : Bool
  carMigrated : Bool
  carData : List Byte
  migrations : List Migration
  haveAcpiResume : Bool
  acpiSlpType : Nat

def Migration.call (migration : Migration) (m : Mem) : Mem :=
  let (start, m) := cbmemAdd top m migration.id migration.size
  if start = 0 then m else migration.store start m

def carMigrateVariables (stage : Stage) (m : Mem) : Stage × Mem :=
  -- in the ramstage they are plain variables
  if stage.preRam = false then (stage, m)
  else if stage.carMigrated then (stage, m)
  else
    let (migratedBase, m) := cbmemAdd top m cbmemIdCarGlobals stage.carData.length
    if migratedBase = 0 then (stage, m)
    else
      ({ stage with carMigrated := true },
        stage.migrations.foldl (fun m migration => migration.call top m)
          (m.memcpy migratedBase stage.carData))

def cbmemArchInit (stage : Stage) (m : Mem) : Mem := if stage.preRam then m else moveGdt top m

/-- `cbmem_arch_init(); car_migrate_variables();` -/
def hooks (stage : Stage) (m : Mem) : Stage × Mem :=
  carMigrateVariables top stage (cbmemArchInit top stage m)

/-- `cbmem_handle_acpi_resume` -/
def Stage.handleAcpiResume (stage : Stage) : Stage :=
  if stage.haveAcpiResume ∧ stage.preRam = false ∧ (stage.acpiSlpType = 3 ∨ stage.acpiSlpType = 2)
  then { stage with acpiSlpType := 0 }
  else stage

-- ---------------------------------------------------------------------------
-- Initialization
-- ---------------------------------------------------------------------------

/-- `cbmem_initialize_empty` up to its hooks. -/
def placeRoot (m : Mem) : Mem :=
  let rootAddr := alignDown (sub32 (getTopAligned top) rootMinSize) dynCbmemAlignSize
  let pointerAddr := pointerAddr top
  let maxEntries := sub32 pointerAddr (rootAddr + sizeofRoot) / sizeofEntry
  let m := m.write pointerAddr cbmemPointerMagic
  let m := m.write (pointerAddr + 4) rootAddr
  let m := m.write rootAddr maxEntries
  let m := m.write (rootAddr + 4) 0
  let m := m.write (rootAddr + 8) 0
  let m := m.write (rootAddr + 12) (u32 (sub32 pointerAddr rootAddr + sizeofRootPointer))
  (cbmemEntryAppend m rootAddr cbmemIdRoot rootAddr (rootSize m rootAddr)).2

def cbmemInitializeEmpty (stage : Stage) (m : Mem) : Stage × Mem :=
  hooks top stage (placeRoot top m)

def cbmemFailRecovery (stage : Stage) (m : Mem) : Nat × Stage × Mem :=
  let (stage, m) := cbmemInitializeEmpty top stage m
  (1, carMigrateVariables top (stage.handleAcpiResume) m)

/-- In the romstage a recovery locks the root. -/
def lockRoot (stage : Stage) (m : Mem) : Mem :=
  if stage.preRam then m.write (getRoot top m + 8) 1 else m

def cbmemInitialize (stage : Stage) (m : Mem) : Nat × Stage × Mem :=
  let root := getRoot top m
  if root = 0 then cbmemFailRecovery top stage m
  else if getTopAligned top ≠ u32 (rootSize m root + root) then cbmemFailRecovery top stage m
  else if numEntries m root > maxEntries m root then cbmemFailRecovery top stage m
  else if u32 (maxEntries m root * sizeofEntry) >
      sub32 (sub32 (rootSize m root) sizeofRootPointer) sizeofRoot then
    cbmemFailRecovery top stage m
  else if validateEntries top m root = false then cbmemFailRecovery top stage m
  else (0, hooks top stage (lockRoot top stage m))

end Source

end ItxLlama.Coreboot.Dynamic
