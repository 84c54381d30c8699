import ItxLlama.Lib.Bytes
import ItxLlama.Lib.StringSet
import ItxLlama.Lib.Word

/-!
# SMBIOS tables

`arch/x86/boot/smbios.c`, with the structures that devices supply, and the reader of
SeaBIOS, `fw/biostables.c`. A structure is its formatted area and then its strings. The
bytes behind `*current` are those that the next structure overwrites.
-/

namespace ItxLlama.Coreboot.Smbios

open Lib.Word Lib.Bytes

/-- A C string without its terminator. -/
abbrev CString := { s : List Byte // 0 ∉ s }

-- ---------------------------------------------------------------------------
-- Strings
-- ---------------------------------------------------------------------------

/-- A string stored over the start of some bytes, with two zeroes. -/
def storeString (str area : List Byte) : List Byte := str ++ [0, 0] ++ area.drop (str.length + 2)

/-- The loop of `smbios_add_string`, where `p` is at string number `i`: the bytes from `p` on. -/
def addStringFrom (str : List Byte) : (fuel : Nat) → (p : List Byte) → (i : Nat) → List Byte × Nat
  | 0, p, i => (p, i)
  | fuel + 1, p, i =>
    let s := p.takeWhile (· ≠ 0)
    if s = [] then (storeString str p, i)
    else if s = str then (p, i)
    else
      let r := addStringFrom str fuel (p.drop (s.length + 1)) (i + 1)
      (s ++ [0] ++ r.1, r.2)

/-- `smbios_add_string`, on the bytes from `eos` on. -/
def addString (eos str : List Byte) : List Byte × Nat := addStringFrom str eos.length eos 1

def stringTableLenFrom : (fuel : Nat) → (p : List Byte) → Nat
  | 0, _ => 0
  | fuel + 1, p =>
    let s := p.takeWhile (· ≠ 0)
    if s = [] then 0 else s.length + 1 + stringTableLenFrom fuel (p.drop (s.length + 1))

def stringTableLen (eos : List Byte) : Nat := stringTableLenFrom eos.length eos + 1

-- ---------------------------------------------------------------------------
-- Structures
-- ---------------------------------------------------------------------------

/-- How a structure ends. `plain` counts the two bytes of `eos`; `fields` adds a string for
each field, in this order, and `oem` keeps the number of the last string in its first byte. -/
inductive StringPart where
  | plain
  | fields (strings : List (Nat × CString))
  | oem (strings : List CString)

/-- The bytes behind the header, with zeroes for the string fields, and what becomes the strings. -/
structure Structure where
  type : Byte
  body : List Byte
  strings : StringPart
  length : body.length < 252
  fields : ∀ fs, strings = .fields fs → fs ≠ [] ∧ fs.length < 255 ∧ (fs.map Prod.fst).Nodup ∧
    ∀ f ∈ fs, f.1 < body.length
  oem : ∀ ss, strings = .oem ss → body.length = 1

/-- `t->length`, the size without `eos`. -/
def Structure.formatted (s : Structure) : Nat := s.body.length + 4

def u16Bytes (x : Nat) : List Byte := [BitVec.ofNat 8 x, BitVec.ofNat 8 (x / 2 ^ 8)]

def u64Bytes (x : Nat) : List Byte := le32Bytes x ++ le32Bytes (x / 2 ^ 32)

def Structure.header (s : Structure) (handle : Nat) : List Byte :=
  [s.type, BitVec.ofNat 8 s.formatted] ++ u16Bytes handle

/-- `t->field = smbios_add_string(t->eos, str)`. -/
def addField (r : List Byte × List Byte) (f : Nat × CString) : List Byte × List Byte :=
  let (eos, i) := addString r.2 f.2
  (r.1.set f.1 (BitVec.ofNat 8 i), eos)

/-- `t->count = smbios_add_string(t->eos, oem_strings[i])`. -/
def addOem (r : List Byte × List Byte) (str : CString) :
    List Byte × List Byte := addField r (0, str)

/-- The bytes up to the new `*current`. -/
def Structure.write (s : Structure) (handle : Nat) : List Byte :=
  match s.strings with
  | .plain => s.header handle ++ s.body ++ [0, 0]
  | .fields fs =>
    let r := fs.foldl addField (s.body, [0, 0])
    s.header handle ++ r.1 ++ r.2.take (stringTableLen r.2)
  | .oem ss =>
    let r := ss.foldl addOem (s.body, [0, 0])
    s.header handle ++ r.1 ++ r.2.take (stringTableLen r.2)

/-- What the tables are made of. -/
structure Config where
  manufacturer : CString
  productName : CString
  mainboardVendor : CString
  serialNumber : CString
  version : CString
  dmiDate : CString
  localversion : CString
  corebootVersion : CString
  cpuVendor : CString
  processorName : CString
  romSize : Nat
  cpuid1 : Nat × Nat × Nat
  acpiTables : Bool

def coreboot : CString := ⟨[0x63, 0x6f, 0x72, 0x65, 0x62, 0x6f, 0x6f, 0x74], by decide⟩

def stateSafe : Byte := 3

section Types

variable (c : Config)

def writeType0 : Structure where
  type := 0
  body := [0, 0] ++ u16Bytes 0 ++ [0, BitVec.ofNat 8 (c.romSize / 65535 + 255)] ++
    u64Bytes (2 ^ 7 + 2 ^ 16 + 2 ^ 11) ++ [if c.acpiTables then 1 else 0, 4, 4, 0, 0, 0]
  strings := .fields [(0, coreboot), (4, c.dmiDate),
    (1, if c.localversion.1 ≠ [] then c.localversion else c.corebootVersion)]
  length := by simp [u16Bytes, u64Bytes, le32Bytes]
  fields := by
    rintro _ ⟨⟩
    simp [u16Bytes, u64Bytes, le32Bytes]
  oem := fun _ h => nomatch h

def writeType1 : Structure where
  type := 1
  body := List.replicate 23 0
  strings := .fields [(0, c.manufacturer), (1, c.productName), (3, c.serialNumber), (2, c.version)]
  length := by simp
  fields := by
    rintro _ ⟨⟩
    simp
  oem := fun _ h => nomatch h

def writeType3 : Structure where
  type := 3
  body := [0, 3, 0, 0, 0, stateSafe, stateSafe, stateSafe, stateSafe] ++ le32Bytes 0 ++ [0, 0, 0, 0]
  strings := .fields [(0, c.manufacturer)]
  length := by simp [le32Bytes]
  fields := by
    rintro _ ⟨⟩
    simp [le32Bytes]
  oem := fun _ h => nomatch h

def writeType4 : Structure where
  type := 4
  body :=
    let (eax, ebx, edx) := c.cpuid1
    [0, 3, if eax > 0 then 0x0c else 0x6, 0] ++ le32Bytes eax ++ le32Bytes edx ++ [0, 0] ++ u16Bytes 0 ++
      u16Bytes 0 ++ u16Bytes 0 ++ [0, 1] ++ u16Bytes 0xffff ++ u16Bytes 0xffff ++ u16Bytes 0xffff ++
      [0, 0, 0, BitVec.ofNat 8 (ebx / 2 ^ 16), 0, 0] ++ u16Bytes 0 ++ u16Bytes 0
  strings := .fields [(3, c.cpuVendor), (12, c.processorName)]
  length := by simp [le32Bytes, u16Bytes]
  fields := by
    rintro _ ⟨⟩
    simp [le32Bytes, u16Bytes]
  oem := fun _ h => nomatch h

def writeType11 (oemStrings : List CString) : Structure where
  type := 11
  body := [0]
  strings := .oem oemStrings
  length := by simp
  fields := fun _ h => nomatch h
  oem := fun _ _ => rfl

/-- `elog_smbios_write_type15`, of a log of `totalSize` bytes at `address`. -/
def elogWriteType15 (totalSize address : Nat) : Structure where
  type := 15
  body := u16Bytes (totalSize + 2 ^ 16 - 1) ++ u16Bytes 0 ++ u16Bytes 8 ++ [3, 1] ++ le32Bytes 0 ++
    le32Bytes address ++ [0x88, 0, 2]
  strings := .plain
  length := by simp [le32Bytes, u16Bytes]
  fields := fun _ h => nomatch h
  oem := fun _ h => nomatch h

def data16 (memorySize : Nat) : Structure where
  type := 16
  body := [3, 3, 3] ++ le32Bytes memorySize ++ u16Bytes 0 ++ u16Bytes 0 ++ u64Bytes 0
  strings := .plain
  length := by simp [le32Bytes, u16Bytes, u64Bytes]
  fields := fun _ h => nomatch h
  oem := fun _ h => nomatch h

def virtual : CString := ⟨[0x56, 0x69, 0x72, 0x74, 0x75, 0x61, 0x6c], by decide⟩

def data17 (memorySize parentHandle : Nat) : Structure where
  type := 17
  body := u16Bytes parentHandle ++ u16Bytes 0 ++ u16Bytes 64 ++ u16Bytes 64 ++
    u16Bytes (memorySize / 1024) ++
    [9, 0, 0, 0, 0x12] ++ u16Bytes 0x80 ++ u16Bytes 200 ++ [0, 0, 0, 0, 0] ++ u16Bytes 0 ++ u16Bytes 200
  strings := .fields [(12, virtual), (19, c.mainboardVendor)]
  length := by simp [u16Bytes]
  fields := by
    rintro _ ⟨⟩
    simp [u16Bytes]
  oem := fun _ h => nomatch h

def writeType32 : Structure where
  type := 32
  body := List.replicate 7 0
  strings := .plain
  length := by simp
  fields := fun _ h => nomatch h
  oem := fun _ h => nomatch h

def type41 (name : CString) (irq addr : Byte) : Structure where
  type := 41
  body := [0, 0x81, irq] ++ u16Bytes 0 ++ [addr, 0]
  strings := .fields [(0, name)]
  length := by simp [u16Bytes]
  fields := by
    rintro _ ⟨⟩
    simp [u16Bytes]
  oem := fun _ h => nomatch h

def writeType127 : Structure where
  type := 127
  body := []
  strings := .plain
  length := by decide
  fields := fun _ h => nomatch h
  oem := fun _ h => nomatch h

end Types

-- ---------------------------------------------------------------------------
-- The tables
-- ---------------------------------------------------------------------------

/-- What the log of events comes to: not configured, no memory for its copy, or a structure. -/
inductive Elog where
  | absent
  | noMemory
  | log (totalSize address : Nat)

/-- What `get_smbios_data` of a device writes. -/
inductive Device where
  | rdc (memorySize : Nat)
  | qemu (memorySize : Nat)
  | onboard (devices : List (CString × Byte × Byte))
  | oemStrings (strings : List CString)

def Device.structures (c : Config) (handle : Nat) : Device → List Structure
  | .rdc memorySize => [data16 memorySize]
  | .qemu memorySize => [data16 memorySize, data17 c memorySize handle]
  | .onboard devices => devices.map fun d => type41 d.1 d.2.1 d.2.2
  | .oemStrings strings => [writeType11 strings]

/-- The structures so far, each with its handle, and the next handle. -/
structure Table where
  written : List (Nat × Structure)
  handle : Nat

def Table.put (t : Table) (s : Structure) : Table := ⟨t.written ++ [(t.handle, s)], t.handle + 1⟩

def Table.bytes (t : Table) : List Byte := t.written.flatMap fun w => w.2.write w.1

def Table.elog (t : Table) : Elog → Table
  | .absent => t
  | .noMemory => { t with handle := t.handle + 1 }
  | .log totalSize address => t.put (elogWriteType15 totalSize address)

def Table.device (c : Config) (t : Table) (d : Device) :
    Table := (d.structures c t.handle).foldl Table.put t

def table (c : Config) (elog : Elog) (devices : List Device) : Table :=
  let t := [writeType0 c, writeType1 c, writeType3 c, writeType4 c].foldl Table.put ⟨[], 0⟩
  let t := (t.elog elog).put writeType32
  (devices.foldl (Table.device c) t).put writeType127

/-- The fields of `smbios_entry` that say where the structures are. -/
structure Entry where
  structTableAddress : Nat
  structTableLength : Nat
  structCount : Nat

/-- `sizeof(struct smbios_entry)`. -/
def sizeofEntry : Nat := 31

/-- Where `smbios_write_tables` puts the structures. -/
def tablesAddress (current : Nat) : Nat := alignUp (alignUp current 16 + sizeofEntry) 16

def entryOf (current : Nat) (t : Table) : Entry where
  structTableAddress := u32 (tablesAddress current)
  structTableLength := u16 t.bytes.length
  structCount := u16 t.handle

-- ---------------------------------------------------------------------------
-- The reader
-- ---------------------------------------------------------------------------

/-- The loop of `smbios_next`, up to the end of a structure. -/
def scanEnd (m : Nat → Byte) (end_ : Nat) : (fuel : Nat) → (prev : Nat) → Nat
  | 0, prev => prev
  | fuel + 1, prev =>
    if prev < end_ ∧ (m (prev - 1) ≠ 0 ∨ m (prev - 2) ≠ 0) then scanEnd m end_ fuel (prev + 1) else prev

/-- `sizeof(struct smbios_structure_header)`. -/
def sizeofHeader : Nat := 4

def smbiosNext (m : Nat → Byte) (smbios : Entry) (prev : Option Nat) : Option Nat :=
  let start := smbios.structTableAddress
  let end_ := start + smbios.structTableLength
  let found := match prev with
    | none => some start
    | some prev =>
      if prev + sizeofHeader > end_ then none
      else
        let prev := prev + (m (prev + 1)).toNat + 2
        some (scanEnd m end_ (end_ - prev) prev)
  match found with
  | none => none
  | some prev =>
    if prev ≥ end_ ∨ prev + sizeofHeader ≥ end_ ∨ prev + (m (prev + 1)).toNat ≥ end_ then none
    else some prev

end ItxLlama.Coreboot.Smbios
