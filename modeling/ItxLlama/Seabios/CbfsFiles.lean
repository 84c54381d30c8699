import ItxLlama.Coreboot.CbfsCore

/-!
# The CBFS reader of SeaBIOS

`coreboot_cbfs_init` of `fw/coreboot.c` and the list of `romfile.c`. The
files go to the front of the list; a links file adds more names for them.
-/

namespace ItxLlama.Seabios.CbfsFiles

open Lib.Word
open Lib.Bytes
open Coreboot.Cbfs

def lzmaPropertiesSize : Nat := 5

/-- A `cbfs_romfile_s`; the name is without its terminator. -/
structure Romfile where
  name : List Byte
  size : Nat
  fhdr : Nat
  data : Nat
  rawsize : Nat
  flags : Nat
  deriving DecidableEq, Repr

/-- What the allocations give, and the decompression. -/
structure Env where
  mallocTmp : (n : Nat) → Bool
  mallocTmphigh : (size : Nat) → Bool
  ulzma : (src : List Byte) → (maxlen : Nat) → Option (List Byte)

def lzmaSuffix : List Byte := [0x2e, 0x6c, 0x7a, 0x6d, 0x61]

def linksName : List Byte := [0x6c, 0x69, 0x6e, 0x6b, 0x73]

/-- `ALIGN` on unsigned words. -/
def alignMask (x a : Nat) : Nat := u32 (x + (a - 1)) &&& (2 ^ 32 - 1 - (a - 1))

section Init

variable (mem : Nat → Byte) (env : Env)

/-- The `cbfs_romfile_s` of the file at `fhdr`. -/
def newRomfile (fhdr : Nat) : Romfile :=
  let name := strtcpy (fetch mem) (u32 (fhdr + sizeofFile)) 128
  let size := fileLen (fetch mem) fhdr
  let data := u32 (fhdr + fileOffset (fetch mem) fhdr)
  if name.length > 5 ∧ name.drop (name.length - 5) = lzmaSuffix then
    { name := name.take (name.length - 5)
      size := le32 (fetch mem) (data + lzmaPropertiesSize)
      fhdr := fhdr, data := data, rawsize := size, flags := 1 }
  else { name := name, size := size, fhdr := fhdr, data := data, rawsize := size, flags := 0 }

/-- The loop of `coreboot_cbfs_init`; `n` counts the allocations and `root` is
`RomfileRoot`. `none` is a loop that has not ended within its bound. -/
def cbfsInitLoop (romstart romsize align : Nat) :
    (fuel n fhdr : Nat) → List Romfile → Option (List Romfile × Nat)
  | 0, _, _, _ => none
  | fuel + 1, n, fhdr, root =>
    if u32 (fhdr + 2 ^ 32 - romstart) > romsize then some (root, n)
    else if le64 (fetch mem) fhdr ≠ 0x455649484352414c then some (root, n)
    else if env.mallocTmp n = false then some (root, n + 1)
    else
      let cfile := newRomfile mem fhdr
      cbfsInitLoop romstart romsize align fuel (n + 1)
        (alignMask (u32 (cfile.data + cfile.rawsize)) align) (cfile :: root)

/-- `memcmp(prefix, cur->name, len)`; a prefix that ends in the terminator asks for the name. -/
def romfileFindprefix (root : List Romfile) (pre : List Byte) : Option Romfile :=
  root.find? fun cur => pre.isPrefixOf (cur.name ++ [0])

def romfileFind (root : List Romfile) (name : List Byte) : Option Romfile :=
  romfileFindprefix root (name ++ [0])

def bytesAt (a len : Nat) : List Byte := (List.range len).map fun i => fetch mem (a + i)

/-- What `cbfs_copyfile` puts into a buffer of `maxlen` bytes. -/
def cbfsCopyfile (cfile : Romfile) (maxlen : Nat) : Option (List Byte) :=
  let src := bytesAt mem cfile.data cfile.rawsize
  if cfile.flags ≠ 0 then
    if env.mallocTmphigh cfile.rawsize = false then none else env.ulzma src maxlen
  else if cfile.rawsize > maxlen then none
  else some src

/-- The string in the buffer that `romfile_loadfile` returns. -/
def romfileLoadfile (root : List Romfile) (name : List Byte) : Option (List Byte) := do
  let file ← romfileFind root name
  if file.size = 0 then none
  if env.mallocTmphigh (file.size + 1) = false then none
  let data ← cbfsCopyfile mem env file file.size
  some ((data.take file.size).takeWhile (· ≠ 0))

/-- `*p <= ' '`, of a signed character. -/
def blank (c : Byte) : Bool := c.toInt ≤ 0x20

def nullTrailingSpace (buf : List Byte) : List Byte :=
  (buf.reverse.dropWhile blank).reverse.dropWhile blank

/-- The lines of a links file; `next` is what is left of it. -/
def processLines : (lines : List (List Byte)) → (n : Nat) → List Romfile → List Romfile
  | [], _, root => root
  | line :: lines, n, root =>
    let linkname := nullTrailingSpace (line.takeWhile (· ≠ 0x23))
    match linkname.dropWhile (· ≠ 0x20) with
    | [] => processLines lines n root
    | _ :: destname =>
      let linkname := linkname.takeWhile (· ≠ 0x20)
      match romfileFind root (nullTrailingSpace destname) with
      | none => processLines lines n root
      | some cufile =>
        if env.mallocTmp n = false then root
        else processLines lines (n + 1) ({ cufile with name := linkname.take 127 } :: root)

def processLinksFile (root : List Romfile) (n : Nat) : List Romfile :=
  match romfileLoadfile mem env root linksName with
  | none => root
  | some links => processLines env (links.splitOn 0x0a) n root

/-- `coreboot_cbfs_init` with `CONFIG_CBFS_LOCATION` 0, over an empty list. -/
def corebootCbfsInit (fuel : Nat) : Option (List Romfile) := do
  let hdr := le32 (fetch mem) 0xfffffffc
  if headerMagic (fetch mem) hdr ≠ cbfsHeaderMagic then some []
  else
    let romsize := headerRomsize (fetch mem) hdr
    let romstart := u32 (2 ^ 32 - romsize)
    let (root, n) ← cbfsInitLoop mem env romstart romsize (headerAlign (fetch mem) hdr) fuel 0
      (u32 (romstart + headerOffset (fetch mem) hdr)) []
    some (processLinksFile mem env root n)

end Init

end ItxLlama.Seabios.CbfsFiles
