import ItxLlama.Lib.Bytes
import ItxLlama.Lib.Word

/-!
# CBFS images

The file format of `cbfs.h` and the walk of `cbfs_image.c` in cbfstool. A
pointer into the image is its offset from the start of the buffer.
-/

namespace ItxLlama.Coreboot.Cbfs

open Lib.Word
open Lib.Bytes

-- ---------------------------------------------------------------------------
-- The format
-- ---------------------------------------------------------------------------

def cbfsHeaderMagic : Nat := 0x4f524243

/-- `LARCHIVE` -/
def cbfsFileMagic : List Byte := [0x4c, 0x41, 0x52, 0x43, 0x48, 0x49, 0x56, 0x45]

def sizeofFile : Nat := 24
def sizeofHeader : Nat := 32

section Fields

variable (m : Nat → Byte) (header file : Nat)

def headerMagic : Nat := be32 m header
def headerRomsize : Nat := be32 m (header + 8)
def headerBootblocksize : Nat := be32 m (header + 12)
def headerAlign : Nat := be32 m (header + 16)
def headerOffset : Nat := be32 m (header + 20)

/-- `memcmp(file->magic, CBFS_FILE_MAGIC, 8) == 0` -/
def hasMagic : Bool := cbfsFileMagic.zipIdx.all fun (c, i) => m (file + i) = c

def fileLen : Nat := be32 m (file + 8)
def fileType : Nat := be32 m (file + 12)
def fileOffset : Nat := be32 m (file + 20)

end Fields

-- ---------------------------------------------------------------------------
-- cbfstool
-- ---------------------------------------------------------------------------

/-- The buffer, and where the master header is in it. -/
structure Image where
  data : Nat → Byte
  size : Nat
  header : Nat

def alignUp32 (value align : Nat) : Nat :=
  if value % align ≠ 0 then u32 (value + (align - value % align)) else value

def Image.align (img : Image) : Nat := headerAlign img.data img.header

def cbfsIsValidEntry (img : Image) (entry : Nat) : Bool :=
  entry + 8 < img.size ∧ hasMagic img.data entry

def cbfsFindFirstEntry (img : Image) : Nat := headerOffset img.data img.header

def cbfsGetEntryAddr (entry : Nat) : Nat := u32 entry

/-- It asserts that the entry is valid. -/
def cbfsFindNextEntry (img : Image) (entry : Nat) : Nat :=
  let addr := cbfsGetEntryAddr entry
  let addr := u32 (addr + u32 (fileOffset img.data entry + fileLen img.data entry))
  alignUp32 addr img.align

/-- A callback gets the image and an entry, and can change the image and what
`arg` points to; another result than 0 ends the walk. -/
abbrev Callback (σ : Type) := Image → Nat → σ → Image × σ × Int

/-- The loop of `cbfs_walk`. `none` is a walk that has not ended within its bound. -/
def cbfsWalk (callback : Callback σ) : (fuel : Nat) → Image → (entry count : Nat) → σ →
    Option (Image × σ × Nat)
  | 0, _, _, _, _ => none
  | fuel + 1, img, entry, count, arg =>
    if cbfsIsValidEntry img entry then
      let (img, arg, result) := callback img entry arg
      if result ≠ 0 then some (img, arg, count + 1)
      else cbfsWalk callback fuel img (cbfsFindNextEntry img entry) (count + 1) arg
    else some (img, arg, count)

/-- A callback that lists what the walk visits. -/
def listEntry : Callback (List Nat) := fun img entry seen => (img, seen ++ [entry], 0)

/-- A callback that stops at the first entry that passes a test. -/
def findEntry (test : Nat → Bool) : Callback (Option Nat) := fun img entry found =>
  if test entry then (img, some entry, 1) else (img, found, 0)

-- ---------------------------------------------------------------------------
-- Laws
-- ---------------------------------------------------------------------------

variable {m m' : Nat → Byte} {img : Image}

theorem hasMagic_iff : hasMagic m a = true ↔ ∀ i < 8, m (a + i) = cbfsFileMagic.getD i 0 := by
  constructor
  · intro h i hi
    match i, hi with
    | 0, _ | 1, _ | 2, _ | 3, _ | 4, _ | 5, _ | 6, _ | 7, _ =>
      simp_all [hasMagic, cbfsFileMagic, List.zipIdx]
  · intro h
    have h0 := h 0 (by decide)
    have h1 := h 1 (by decide)
    have h2 := h 2 (by decide)
    have h3 := h 3 (by decide)
    have h4 := h 4 (by decide)
    have h5 := h 5 (by decide)
    have h6 := h 6 (by decide)
    have h7 := h 7 (by decide)
    simp_all [hasMagic, cbfsFileMagic, List.zipIdx]

theorem hasMagic_congr (h : ∀ i < 8, m (a + i) = m' (b + i)) : hasMagic m a = hasMagic m' b := by
  rw [Bool.eq_iff_iff, hasMagic_iff, hasMagic_iff]
  exact forall₂_congr fun i hi => by rw [h i hi]

end ItxLlama.Coreboot.Cbfs
