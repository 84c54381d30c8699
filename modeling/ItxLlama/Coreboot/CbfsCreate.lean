import ItxLlama.Coreboot.CbfsImage
import ItxLlama.Lib.Buffer
import ItxLlama.Lib.Word

/-!
# A new CBFS image

`cbfs_image_create` of cbfstool. It checks its offsets against the image size
in `size_t`, where a negative offset and a length can sum to a small number,
and the entries against the length of the bootblock where its end is meant.

`layout_iff` says for which offsets the areas come out apart all the same.
-/

namespace ItxLlama.Coreboot.Cbfs

open Lib.Word
open Lib.Bytes
open Lib.Buffer
open Lib.Signed

def cbfsComponentNull : Nat := 0xffffffff
def cbfsHeaderVersion : Nat := 0x31313132
def cbfsFilenameAlign : Nat := 16
def cbfsContentDefaultValue : Byte := 0xff

-- ---------------------------------------------------------------------------
-- cbfs_image.c
-- ---------------------------------------------------------------------------

def cbfsCalculateFileHeaderSize (name : List Byte) : Nat :=
  sizeofFile + alignUp32 (name.length + 1) cbfsFilenameAlign

def cbfsCreateEmptyEntry (m : Int → Byte) (entry : Int) (len : Nat) (name : List Byte) :
    Int → Byte :=
  let offset := cbfsCalculateFileHeaderSize name
  let m := fill m entry sizeofFile cbfsContentDefaultValue
  let m := put m entry cbfsFileMagic
  let m := put m (entry + 12) (be32Bytes cbfsComponentNull)
  let m := put m (entry + 8) (be32Bytes len)
  let m := put m (entry + 16) (be32Bytes 0)
  let m := put m (entry + 20) (be32Bytes offset)
  let m := fill m (entry + sizeofFile) (offset - sizeofFile) 0
  let m := put m (entry + sizeofFile) (name ++ [0])
  fill m (entry + offset) len cbfsContentDefaultValue

/-- What `cbfs_image_create` is given; cbfstool keeps the size in a `uint32_t`. -/
structure CreateArgs where
  arch : Nat
  size : Nat
  align : BitVec 32
  bootblock : List Byte
  bootblockOffset : BitVec 32
  headerOffset : BitVec 32
  entriesOffset : BitVec 32
  size_lt : size < 2 ^ 32
  bootblock_lt : bootblock.length < 2 ^ 63

def isTopAlignedAddress (x : BitVec 32) : Bool := x.toNat > 0x80000000

/-- A sum of an `int32_t` and a `size_t`. -/
def sizeT (x : Int) : Nat := uint64 x

/-- `cbfs_len` shortened to an area that lies after the entries. -/
def endBefore (entries offset : Int) (cbfsLen : Nat) : Nat :=
  if offset > entries ∧ uint32 offset < cbfsLen then uint32 offset else cbfsLen

namespace CreateArgs

variable (args : CreateArgs)

/-- An offset after the adjustment of legacy top-aligned addresses. -/
def realOffset (x : BitVec 32) : Int :=
  (if isTopAlignedAddress x then x + BitVec.ofNat 32 args.size else x).toInt

def entries : Int := args.realOffset args.entriesOffset
def boot : Int := args.realOffset args.bootblockOffset
def header : Int := args.realOffset args.headerOffset

def alignment : Nat := if args.align = 0 then 64 else args.align.toNat

/-- The header as far as it is written: its pad is not. -/
def headerBytes : List Byte :=
  be32Bytes cbfsHeaderMagic ++ be32Bytes cbfsHeaderVersion ++ be32Bytes args.size ++
    be32Bytes args.bootblock.length ++ be32Bytes args.alignment ++
    be32Bytes (uint32 args.entries) ++ be32Bytes args.arch

/-- What `cbfs_len` is before the header and the alignment are taken off. -/
def areaEnd : Nat :=
  let cbfsLen := u32 args.size
  let cbfsLen := endBefore args.entries args.boot cbfsLen
  endBefore args.entries args.header cbfsLen

def entryHeaderLen : Nat := cbfsCalculateFileHeaderSize []

def cbfsLen : Nat :=
  uint32 (args.areaEnd - (args.entries + args.alignment + entryHeaderLen))

end CreateArgs

/-- `none` for the result -1. `m` is the memory the buffer is made in. -/
def cbfsImageCreate (args : CreateArgs) (m : Int → Byte) : Option (Int → Byte) :=
  let m := fill m 0 args.size cbfsContentDefaultValue
  if sizeT (args.boot + args.bootblock.length) > args.size then none
  else if args.entries > args.boot ∧ sizeT args.entries < args.bootblock.length then none
  else
    let m := put m args.boot args.bootblock
    if sizeT (args.header + sizeofHeader) > args.size then none
    else
      let m := put m args.header args.headerBytes
      if alignUp32 (uint32 args.entries) args.alignment ≠ uint32 args.entries then none
      else if sizeT (args.entries + CreateArgs.entryHeaderLen) > args.size then none
      else some (cbfsCreateEmptyEntry m args.entries args.cbfsLen [])

-- ---------------------------------------------------------------------------
-- What a new image should be
-- ---------------------------------------------------------------------------

section

variable (args : CreateArgs)

/-- Where the area that the first entry starts in ends. -/
def CreateArgs.nextArea : Int :=
  let upTo (x last : Int) := if args.entries < x then min last x else last
  upTo args.header (upTo args.boot args.size)

/-- The empty entry is in the image and apart from the bootblock and the header.
With one unit of the alignment, which is never given to it, it takes all that is
there. The bootblock is in the image, but for what the header is written over. -/
structure Layout (img : Int → Byte) : Prop where
  entry_nonneg : 0 ≤ args.entries
  entry_inside : args.entries + fileOffset (view img args.entries) 0 +
    fileLen (view img args.entries) 0 ≤ args.size
  boot_apart : ∀ x, args.entries ≤ x → x < args.entries + fileOffset (view img args.entries) 0 +
    fileLen (view img args.entries) 0 → x < args.boot ∨ args.boot + args.bootblock.length ≤ x
  header_apart : ∀ x, args.entries ≤ x → x < args.entries + fileOffset (view img args.entries) 0 +
    fileLen (view img args.entries) 0 → x < args.header ∨ args.header + sizeofHeader ≤ x
  len_eq : args.entries + fileOffset (view img args.entries) 0 +
    fileLen (view img args.entries) 0 + args.alignment = args.nextArea
  boot_inside : ∀ i < args.bootblock.length, 0 ≤ args.boot + i ∧ args.boot + i < args.size
  boot_eq : ∀ i < args.bootblock.length,
    (args.boot + i < args.header ∨ args.header + args.headerBytes.length ≤ args.boot + i) →
    img (args.boot + i) = args.bootblock.getD i 0

/-- What the checks leave open. -/
structure Placed : Prop where
  entry_nonneg : 0 ≤ args.entries
  boot_nonneg : 0 ≤ args.boot
  boot : args.entries < args.boot ∨ args.boot + args.bootblock.length ≤ args.entries
  header : args.entries < args.header ∨ args.header + sizeofHeader ≤ args.entries
  room : args.entries + args.alignment + CreateArgs.entryHeaderLen ≤ args.nextArea

end

-- ---------------------------------------------------------------------------
-- The empty entry
-- ---------------------------------------------------------------------------

section Entry

variable {m : Int → Byte} {entry : Int} {len : Nat} {name : List Byte}

theorem createEmptyEntry_offset :
    fileOffset (view (cbfsCreateEmptyEntry m entry len []) entry) 0 = CreateArgs.entryHeaderLen := by
  have hoff : cbfsCalculateFileHeaderSize [] = 40 := by decide
  simp only [fileOffset, cbfsCreateEmptyEntry, CreateArgs.entryHeaderLen, hoff, sizeofFile]
  rw [be32_fill_apart (by omega), be32_put_apart (by omega), be32_fill_apart (by omega)]
  exact be32_put _ 20

theorem createEmptyEntry_len :
    fileLen (view (cbfsCreateEmptyEntry m entry len []) entry) 0 = u32 len := by
  have hoff : cbfsCalculateFileHeaderSize [] = 40 := by decide
  simp only [fileLen, cbfsCreateEmptyEntry, hoff, sizeofFile]
  rw [be32_fill_apart (by omega), be32_put_apart (by omega), be32_fill_apart (by omega),
    be32_put_apart (by simp; omega), be32_put_apart (by simp; omega)]
  exact be32_put _ 8

theorem createEmptyEntry_apart (h : x < entry ∨ entry + CreateArgs.entryHeaderLen + len ≤ x) :
    cbfsCreateEmptyEntry m entry len [] x = m x := by
  have hoff : cbfsCalculateFileHeaderSize [] = 40 := by decide
  simp only [cbfsCreateEmptyEntry, CreateArgs.entryHeaderLen, hoff, sizeofFile] at h ⊢
  rw [fill_apart (by omega), put_apart (by simp; omega), fill_apart (by omega),
    put_apart (by simp; omega), put_apart (by simp; omega), put_apart (by simp; omega),
    put_apart (by simp; omega), put_apart (by simp [cbfsFileMagic]; omega), fill_apart (by omega)]

end Entry

-- ---------------------------------------------------------------------------
-- The checks
-- ---------------------------------------------------------------------------

section Checks

variable {args : CreateArgs} {img m : Int → Byte}

theorem endBefore_eq (he : 0 ≤ e) (hx : x < 2 ^ 31) :
    (endBefore e x n : Int) = if e < x then min (n : Int) x else n := by
  unfold endBefore uint32
  split <;> split <;> omega

theorem sizeT_le (hlo : -2 ^ 63 ≤ x) (hhi : x < 2 ^ 64) (hs : n < 2 ^ 63) (h : sizeT x ≤ n) :
    0 ≤ x ∧ x ≤ n := by
  unfold sizeT uint64 at h
  omega

namespace CreateArgs

theorem realOffset_bounds (args : CreateArgs) (x : BitVec 32) :
    -2 ^ 31 ≤ args.realOffset x ∧ args.realOffset x < 2 ^ 31 :=
  ⟨BitVec.le_toInt _, BitVec.toInt_lt⟩

theorem boot_bounds (args : CreateArgs) : -2 ^ 31 ≤ args.boot ∧ args.boot < 2 ^ 31 :=
  args.realOffset_bounds _

theorem header_bounds (args : CreateArgs) : -2 ^ 31 ≤ args.header ∧ args.header < 2 ^ 31 :=
  args.realOffset_bounds _

theorem entryHeaderLen_eq : entryHeaderLen = 40 := by decide

theorem areaEnd_eq (he : 0 ≤ args.entries) : (args.areaEnd : Int) = args.nextArea := by
  rw [areaEnd, nextArea, endBefore_eq he args.header_bounds.2, endBefore_eq he args.boot_bounds.2,
    u32_eq args.size_lt]

theorem nextArea_le (args : CreateArgs) : args.nextArea ≤ args.size := by
  unfold nextArea
  grind

theorem nextArea_le_boot (h : args.entries < args.boot) : args.nextArea ≤ args.boot := by
  unfold nextArea
  grind

theorem nextArea_le_header (h : args.entries < args.header) : args.nextArea ≤ args.header := by
  unfold nextArea
  grind

end CreateArgs

/-- What is known where the result is 0. -/
structure Created (args : CreateArgs) (img m : Int → Byte) : Prop where
  boot_fits : sizeT (args.boot + args.bootblock.length) ≤ args.size
  entry_fits : sizeT (args.entries + CreateArgs.entryHeaderLen) ≤ args.size
  img_eq : img = cbfsCreateEmptyEntry
    (put (put (fill m 0 args.size cbfsContentDefaultValue) args.boot args.bootblock)
      args.header args.headerBytes) args.entries args.cbfsLen []

theorem created (h : cbfsImageCreate args m = some img) : Created args img m := by
  unfold cbfsImageCreate at h
  split at h
  · cases h
  rename_i hboot
  split at h
  · cases h
  dsimp only at h
  split at h
  · cases h
  split at h
  · cases h
  split at h
  · cases h
  rename_i hentry
  cases h
  exact ⟨Nat.le_of_not_lt hboot, Nat.le_of_not_lt hentry, rfl⟩

namespace Created

variable (hc : Created args img m)
include hc

theorem boot_end :
    0 ≤ args.boot + args.bootblock.length ∧ args.boot + args.bootblock.length ≤ args.size := by
  have hb := args.boot_bounds
  have hlen := args.bootblock_lt
  have hs := args.size_lt
  exact sizeT_le (by omega) (by omega) (by omega) hc.boot_fits

theorem offset_eq : fileOffset (view img args.entries) 0 = CreateArgs.entryHeaderLen := by
  rw [hc.img_eq, createEmptyEntry_offset]

theorem len_eq : fileLen (view img args.entries) 0 = args.cbfsLen := by
  rw [hc.img_eq, createEmptyEntry_len, u32_eq]
  unfold CreateArgs.cbfsLen uint32
  omega

theorem boot_get (hi : i < args.bootblock.length)
    (hentry : args.boot + i < args.entries ∨
      args.entries + CreateArgs.entryHeaderLen + args.cbfsLen ≤ args.boot + i)
    (hheader : args.boot + i < args.header ∨ args.header + args.headerBytes.length ≤ args.boot + i) :
    img (args.boot + i) = args.bootblock.getD i 0 := by
  rw [hc.img_eq, createEmptyEntry_apart hentry, put_apart hheader, put_get hi]

end Created

-- ---------------------------------------------------------------------------
-- The layout
-- ---------------------------------------------------------------------------

theorem Placed.cbfsLen_eq (hp : Placed args) :
    args.entries + CreateArgs.entryHeaderLen + args.cbfsLen + args.alignment = args.nextArea := by
  have hroom := hp.room
  have hnext := args.nextArea_le
  have hs := args.size_lt
  have he := hp.entry_nonneg
  rw [CreateArgs.cbfsLen, CreateArgs.areaEnd_eq he, uint32]
  omega

theorem Placed.layout (hp : Placed args) (hc : Created args img m) : Layout args img := by
  have hlen := hp.cbfsLen_eq
  have hnext := args.nextArea_le
  have hboot : ∀ x, args.entries ≤ x →
      x < args.entries + CreateArgs.entryHeaderLen + args.cbfsLen →
      x < args.boot ∨ args.boot + args.bootblock.length ≤ x := by
    intro x hx hend
    rcases hp.boot with h | h
    · have := CreateArgs.nextArea_le_boot h
      omega
    · omega
  have hend := hc.boot_end
  have hnonneg := hp.boot_nonneg
  constructor
  case entry_nonneg => exact hp.entry_nonneg
  case entry_inside => rw [hc.offset_eq, hc.len_eq]; omega
  case boot_apart => rwa [hc.offset_eq, hc.len_eq]
  case header_apart =>
    rw [hc.offset_eq, hc.len_eq]
    intro x hx hend
    rcases hp.header with h | h
    · have := CreateArgs.nextArea_le_header h
      omega
    · omega
  case len_eq => rwa [hc.offset_eq, hc.len_eq]
  case boot_inside => intro i hi; omega
  case boot_eq =>
    intro i hi hheader
    refine hc.boot_get hi ?_ hheader
    by_contra hin
    have := hboot (args.boot + i) (by omega) (by omega)
    omega

theorem Layout.placed (hl : Layout args img) (hc : Created args img m) : Placed args := by
  have hoff := hc.offset_eq
  have h40 := CreateArgs.entryHeaderLen_eq
  have hin := hl.boot_inside
  have hend := hc.boot_end
  constructor
  case entry_nonneg => exact hl.entry_nonneg
  case boot_nonneg =>
    rcases Nat.eq_zero_or_pos args.bootblock.length with h0 | hpos
    · omega
    · have := (hin 0 hpos).1
      omega
  case boot => exact hl.boot_apart _ (Int.le_refl _) (by omega)
  case header => exact hl.header_apart _ (Int.le_refl _) (by omega)
  case room =>
    have hlen := hl.len_eq
    omega

theorem layout_iff (h : cbfsImageCreate args m = some img) : Layout args img ↔ Placed args :=
  ⟨fun hl => hl.placed (created h), fun hp => hp.layout (created h)⟩

theorem cbfsImageCreate_layout (h : cbfsImageCreate args m = some img) (hp : Placed args) :
    Layout args img := (layout_iff h).2 hp

/-- A bootblock that leaves space for the header within itself, as on ARM. -/
def armArgs : CreateArgs where
  arch := 0x10
  size := 0x400
  align := 64
  bootblock := List.replicate 0x40 0
  bootblockOffset := 0
  headerOffset := 0x10
  entriesOffset := 0x80
  size_lt := by decide
  bootblock_lt := by decide

theorem cbfsImageCreate_layout_arm :
    ∃ img, cbfsImageCreate armArgs (fun _ => 0) = some img ∧ Layout armArgs img :=
  ⟨_, rfl, cbfsImageCreate_layout rfl ⟨by decide, by decide, by decide, by decide, by decide⟩⟩

/-- The header is written over the space left for it. -/
theorem cbfsImageCreate_headerInBootblock :
    ∃ img, cbfsImageCreate armArgs (fun _ => 0) = some img ∧
      ¬∀ i < armArgs.bootblock.length, img (armArgs.boot + i) = armArgs.bootblock.getD i 0 := by
  refine ⟨_, rfl, fun h => ?_⟩
  have h16 := h 16 (by decide)
  revert h16
  decide

end Checks

end ItxLlama.Coreboot.Cbfs
