import ItxLlama.Lib.Glob
import ItxLlama.Llama.SpiFlash

/-!
# The boot order

`boot.c` from `loadBootOrder` to `bootprio_find_usb`, and the disk strings of
`llama_boot_disk_strings.h`. A C string is the list of its characters
without the terminator.
-/

namespace ItxLlama.Seabios.Boot

open ItxLlama.Llama (Byte)

abbrev CString := List Char

/-- A string literal; irreducible, so that its characters are not computed
where they do not matter. -/
@[irreducible] def cstr (s : String) : CString := s.toList

theorem cstr_eq (s : String) : cstr s = s.toList := by
  unfold cstr
  rfl

def llamaBootDiskStringSd : CString :=
  cstr "/pci@i0cf8/*@c/drive@0/disk@0\n"

def llamaBootDiskStringUsb : CString :=
  cstr "/pci@i0cf8/usb@a,1/storage@1/*@0/*@0,0\n" ++
    cstr "/pci@i0cf8/usb@a,1/usb-*@1\n" ++
    cstr "/pci@i0cf8/usb@a,1/storage@2/*@0/*@0,0\n" ++
    cstr "/pci@i0cf8/usb@a,1/usb-*@2\n" ++
    cstr "/pci@i0cf8/usb@a,1/hub@1/usb-*@1\n" ++
    cstr "/pci@i0cf8/usb@a,1/hub@1/usb-*@2\n" ++
    cstr "/pci@i0cf8/usb@a,1/hub@1/usb-*@3\n" ++
    cstr "/pci@i0cf8/usb@a,1/hub@1/usb-*@4\n"

def llamaBootDiskStringSata : CString :=
  cstr "/pci@i0cf8/*@c/drive@1/disk@0\n"

def llamaBootDiskStringVfloppy : CString :=
  cstr "/rom@floppyimg/*\n"

-- ---------------------------------------------------------------------------
-- Strings
-- ---------------------------------------------------------------------------

/-- `snprintf` at the end of `buf`, in a buffer of `size` bytes. -/
def snprintf (size : Nat) (buf text : CString) : CString := (buf ++ text).take (size - 1)

/-- `%x` -/
def putprettyhex (val : BitVec 32) : CString := Nat.toDigits 16 val.toNat

/-- `%d` -/
def putint (val : BitVec 32) : CString :=
  if val.toInt < 0 then '-' :: Nat.toDigits 10 (-val).toNat else Nat.toDigits 10 val.toNat

def nullTrailingSpace (buf : CString) : CString :=
  (buf.reverse.dropWhile (· ≤ ' ')).reverse.dropWhile (· ≤ ' ')

def globPrefix (glob str : CString) : Option CString := Lib.Glob.matchPrefix '*' '/' glob str

-- ---------------------------------------------------------------------------
-- Loading
-- ---------------------------------------------------------------------------

/-- An entry of `bootorder` is `none` until a pointer is written there. -/
structure BootOrder where
  bootorder : List (Option CString)
  bootorderCount : Nat
  deriving DecidableEq, Repr

/-- The `sizeof` of each string counts its terminator. -/
def fSize : Nat :=
  (llamaBootDiskStringSd.length + 1) + (llamaBootDiskStringUsb.length + 1) +
    (llamaBootDiskStringSata.length + 1) + (llamaBootDiskStringVfloppy.length + 1)

/-- The text that the switch prints into `f`; `none` in its default, which
prints nothing. -/
def bootOrderText (bootOrderIndex : Byte) : Option CString :=
  match bootOrderIndex.toNat with
  | 0 => some (snprintf fSize [] (llamaBootDiskStringSata ++ llamaBootDiskStringSd ++
      llamaBootDiskStringUsb ++ llamaBootDiskStringVfloppy))
  | 1 => some (snprintf fSize [] (llamaBootDiskStringSata ++ llamaBootDiskStringUsb ++
      llamaBootDiskStringSd ++ llamaBootDiskStringVfloppy))
  | 2 => some (snprintf fSize [] (llamaBootDiskStringSd ++ llamaBootDiskStringSata ++
      llamaBootDiskStringUsb ++ llamaBootDiskStringVfloppy))
  | 3 => some (snprintf fSize [] (llamaBootDiskStringSd ++ llamaBootDiskStringUsb ++
      llamaBootDiskStringSata ++ llamaBootDiskStringVfloppy))
  | 4 => some (snprintf fSize [] (llamaBootDiskStringUsb ++ llamaBootDiskStringSata ++
      llamaBootDiskStringSd ++ llamaBootDiskStringVfloppy))
  | 5 => some (snprintf fSize [] (llamaBootDiskStringUsb ++ llamaBootDiskStringSd ++
      llamaBootDiskStringSata ++ llamaBootDiskStringVfloppy))
  | _ => none

/-- `while (f[i]) { if (f[i] == '\n') BootorderCount++; i++; }` from 1 -/
def countEntries (f : CString) : Nat := f.count '\n' + 1

/-- `do … while (f)`: `strchr` finds the next line, or ends the loop. `none`
is a write outside the array, or a loop that has not ended within its
bound. -/
def fillEntries : (fuel : Nat) → (i : Nat) → (f : CString) → (bootorder : List (Option CString)) →
    Option (List (Option CString))
  | 0, _, _, _ => none
  | fuel + 1, i, f, bootorder =>
    if i < bootorder.length then
      let bootorder := bootorder.set i (some (nullTrailingSpace (f.takeWhile (· ≠ '\n'))))
      match f.dropWhile (· ≠ '\n') with
      | [] => some bootorder
      | _ :: f => fillEntries fuel (i + 1) f bootorder
    else none

/-- The answers of the two calls of `malloc_tmphigh`: whether `f` and
`Bootorder` were allocated. -/
structure HeapAnswers where
  f : Bool
  bootorder : Bool

/-- `none` is text that is printed through NULL or read without having been
printed. -/
def loadBootOrder (bootOrderIndex : Byte) (heap : HeapAnswers) : Option BootOrder := do
  let f ← if heap.f then bootOrderText bootOrderIndex else none
  let count := countEntries f
  if heap.bootorder then
    let bootorder ← fillEntries (f.length + 1) 0 f (List.replicate count none)
    pure ⟨bootorder, count⟩
  else pure ⟨[], 0⟩

-- ---------------------------------------------------------------------------
-- Priorities
-- ---------------------------------------------------------------------------

def BootOrder.entryMatches (o : BootOrder) (glob : CString) (i : Nat) : Bool :=
  match o.bootorder[i]? with
  | some (some entry) => (globPrefix glob entry).isSome
  | _ => false

def findPrio (o : BootOrder) (glob : CString) : Int :=
  match (List.range o.bootorderCount).find? (o.entryMatches glob) with
  | some i => i + 1
  | none => -1

/-- A `pci_device` by its chain of parents; `rootbus` is read of a device
without a parent only. -/
inductive PciDevice where
  | root (rootbus : Byte) (bdf : BitVec 16)
  | child (parent : PciDevice) (bdf : BitVec 16)
  deriving DecidableEq, Repr

def pciBdfToDev (bdf : BitVec 16) : BitVec 32 := ((bdf >>> 3) &&& 0x1f).setWidth 32
def pciBdfToFn (bdf : BitVec 16) : BitVec 32 := (bdf &&& 0x07).setWidth 32

def fwPciDomain : CString := cstr "/pci@i0cf8"

/-- `char desc[256]` -/
def descSize : Nat := 256

/-- The node of the device itself, behind that of its parent. -/
def pciNode (p devname : CString) (bdf : BitVec 16) : CString :=
  let dev := pciBdfToDev bdf
  let fn := pciBdfToFn bdf
  let p := snprintf descSize p ('/' :: devname ++ '@' :: putprettyhex dev)
  if fn ≠ 0 then snprintf descSize p (',' :: putprettyhex fn) else p

def buildPciPath (devname : CString) : PciDevice → CString
  | .root rootbus bdf =>
    let p := if rootbus ≠ 0 then
      snprintf descSize [] (cstr "/pci-root@" ++ putprettyhex (rootbus.setWidth 32)) else []
    pciNode (snprintf descSize p fwPciDomain) devname bdf
  | .child parent bdf => pciNode (buildPciPath (cstr "pci-bridge") parent) devname bdf

def bootprioFindAtaDevice (o : BootOrder) (pci : Option PciDevice) (chanid slave : BitVec 32) :
    Int :=
  match pci with
  | none => -1
  | some pci =>
    let p := buildPciPath (cstr "*") pci
    findPrio o (snprintf descSize p
      (cstr "/drive@" ++ putprettyhex chanid ++ cstr "/disk@" ++ putprettyhex slave))

def bootprioFindNamedRom (o : BootOrder) (name : CString) (inst : BitVec 32) : Int :=
  let p := snprintf descSize [] (cstr "/rom@" ++ name)
  findPrio o (if inst ≠ 0 then snprintf descSize p (cstr ":rom" ++ putint inst) else p)

/-- A `usbhub_s` by the ports that lead to it; a root hub has no `usbdev`. -/
inductive UsbHub where
  | root (cntl : PciDevice)
  | hub (cntl : PciDevice) (upstream : UsbHub) (port : BitVec 32)
  deriving DecidableEq, Repr

def UsbHub.cntl : UsbHub → PciDevice
  | .root cntl => cntl
  | .hub cntl _ _ => cntl

structure UsbDevice where
  hub : UsbHub
  port : BitVec 32
  deriving DecidableEq, Repr

def buildUsbPath (buf : CString) : UsbHub → CString
  | .root _ => buf
  | .hub _ upstream port =>
    snprintf descSize (buildUsbPath buf upstream) (cstr "/hub@" ++ putprettyhex (port + 1))

def bootprioFindUsb (o : BootOrder) (usbdev : UsbDevice) (lun : BitVec 32) : Int :=
  let p := buildPciPath (cstr "usb") usbdev.hub.cntl
  let p := buildUsbPath p usbdev.hub
  let ret := findPrio o (snprintf descSize p
    (cstr "/storage@" ++ putprettyhex (usbdev.port + 1) ++ cstr "/*@0/*@0," ++ putint lun))
  if ret ≥ 0 then ret
  else findPrio o (snprintf descSize p (cstr "/usb-*@" ++ putprettyhex (usbdev.port + 1)))

-- ---------------------------------------------------------------------------
-- Boot devices
-- ---------------------------------------------------------------------------

/-- A `romfile_s` that `ramdisk_setup` finds; the name is a `char[128]`. -/
structure FloppyImage where
  name : CString
  fits : name.length < 128
  found : cstr "floppyimg/" <+: name

/-- Hard disks and CD drives on ATA channels and behind USB ports, and the
floppy image in flash. -/
inductive BootDevice where
  | ata (pci : Option PciDevice) (chanid slave : BitVec 32)
  | usb (usbdev : UsbDevice) (lun : BitVec 32)
  | floppyImage (image : FloppyImage)

def BootDevice.prio (o : BootOrder) : BootDevice → Int
  | .ata pci chanid slave => bootprioFindAtaDevice o pci chanid slave
  | .usb usbdev lun => bootprioFindUsb o usbdev lun
  | .floppyImage image => bootprioFindNamedRom o image.name 0

end ItxLlama.Seabios.Boot
