import ItxLlama.Lib.Checked
import ItxLlama.Lib.Word

/-!
# The configuration of a USB device

`hw/usb.c`, the set-up functions of the drivers and the allocation of pipes, as
far as they read the configuration: the buffer has the length that the device
named in its first answer, and every byte that is read of it is a checked read.
-/

namespace ItxLlama.Seabios.Usb

open Lib.Word Lib.Bytes Lib.Checked
open StateTransition

def usbDtInterface : Byte := 0x04
def usbDtEndpoint : Byte := 0x05
def usbDtEndpointCompanion : Byte := 0x30

def usbClassHid : Byte := 3
def usbClassMassStorage : Byte := 8
def usbClassHub : Byte := 9

def usbEndpointDirMask : Byte := 0x80
def usbEndpointNumberMask : Byte := 0x0f
def usbEndpointXfertypeMask : Byte := 0x03
def usbEndpointXferControl : Byte := 0
def usbEndpointXferBulk : Byte := 2
def usbEndpointXferInt : Byte := 3
def usbDirIn : Byte := 0x80
def usbDirOut : Byte := 0

def usbInterfaceSubclassBoot : Byte := 1
def usbInterfaceProtocolKeyboard : Byte := 1
def usbInterfaceProtocolMouse : Byte := 2

def usScScsi : Byte := 0x06
def usScAtapi8070 : Byte := 0x05
def usScAtapi8020 : Byte := 0x02
def usPrBulk : Byte := 0x50
def usPrUas : Byte := 0x62

/-- `&config[1]` -/
def iface : Nat := 9

/-- `&usbdev->iface[1]` -/
def ifaceEnd : Nat := iface + 9

/-- The options of the build that decide which of this code there is. -/
structure Options where
  usbUhci : Bool
  usbOhci : Bool
  usbEhci : Bool
  usbXhci : Bool
  usbMsc : Bool
  usbUas : Bool
  usbHub : Bool
  usbKeyboard : Bool
  usbMouse : Bool

/-- `seabios.config` -/
def shipped : Options where
  usbUhci := false
  usbOhci := true
  usbEhci := true
  usbXhci := false
  usbMsc := true
  usbUas := false
  usbHub := true
  usbKeyboard := false
  usbMouse := false

/-- `USB_TYPE_*` -/
inductive UsbType where
  | uhci
  | ohci
  | ehci
  | xhci
  deriving DecidableEq, Repr

/-- What one allocation of a pipe gets: a pipe, of the free list or with all its memory; for an xHCI
controller an input context as well, and commands that succeed. -/
structure PipeOutcome where
  pipe : Bool
  inctx : Bool
  commands : Bool

/-- What the device answers and the rest of the machine does; a `Bool` says that it succeeds. -/
structure Env where
  options : Options
  cntl : UsbType
  highSpeed : Bool
  getDeviceInfo8 : Option (Nat → Byte)
  updatePipe : Bool
  getConfigHead : Bool
  mallocTmphigh : Nat → Bool
  getConfig : Bool
  setConfiguration : Byte → Bool
  hubSetup : Int
  keyboardPipe : Bool
  mousePipe : Bool
  setProtocol : Bool
  setIdle : Bool
  -- one for each pipe of the driver
  allocPipe : Nat → PipeOutcome
  mscDrives : Bool
  uasDrive : Bool

section Code

variable (env : Env) (read : Nat → Guarded Byte)

def readU16 (a : Nat) : Guarded Nat := do
  return (← read a).toNat + (← read (a + 1)).toNat * 2 ^ 8

/-- A turn of the loop of `findEndPointDesc`. -/
def endPointTurn (imax : Int) (type dir : Byte) (epdesc : Nat) : Guarded (Option Nat ⊕ Nat) := do
  if (epdesc : Int) ≥ iface + imax then return .inl none
  let bDescriptorType ← read (epdesc + 1)
  if bDescriptorType = usbDtInterface then return .inl none
  if bDescriptorType = usbDtEndpoint then
    if (← read (epdesc + 2)) &&& usbEndpointDirMask = dir then
      if (← read (epdesc + 3)) &&& usbEndpointXfertypeMask = type then
        return .inl (some epdesc)
  return .inr (epdesc + (← read epdesc).toNat)

/-- Find the first endpoint of a given type in an interface description. -/
def findEndPointDesc (turns : Nat) (imax : Int) (type dir : Byte) : Guarded (Option Nat) :=
  loop (endPointTurn read imax type dir) turns ifaceEnd

/-- The null pointer is not in the buffer. -/
def readEp (epdesc : Option Nat) (k : Nat) : Guarded Byte :=
  match epdesc with
  | none => throw .outside
  | some epdesc => read (epdesc + k)

def wMaxPacketSize (epdesc : Option Nat) : Guarded Nat := do
  return (← readEp read epdesc 4).toNat + (← readEp read epdesc 5).toNat * 2 ^ 8

/-- What a pipe has from its endpoint descriptor. -/
structure UsbPipe where
  ep : Byte
  maxpacket : Nat
  eptype : Byte
  deriving DecidableEq

def usbDesc2pipe (epdesc : Option Nat) : Guarded UsbPipe := do
  let bEndpointAddress ← readEp read epdesc 2
  let maxpacket ← wMaxPacketSize read epdesc
  let bmAttributes ← readEp read epdesc 3
  return ⟨bEndpointAddress &&& usbEndpointNumberMask, maxpacket,
    bmAttributes &&& usbEndpointXfertypeMask⟩

def usbGetFrameExp (epdesc : Option Nat) : Guarded Nat := do
  let period := (← readEp read epdesc 6).toNat
  if env.highSpeed = false then return Nat.log2 period
  return if period ≤ 4 then 0 else period - 4

/-- `uhci_alloc_intr_pipe`, and those of the other controllers; the frame exponent and the packet
size are what the memory and the schedule go by. -/
def allocIntrPipe (out : PipeOutcome) (epdesc : Option Nat) : Guarded (Option UsbPipe) := do
  let _frameexp ← usbGetFrameExp env read epdesc
  let _maxpacket ← wMaxPacketSize read epdesc
  if out.pipe = false then return none
  return some (← usbDesc2pipe read epdesc)

/-- `uhci_alloc_pipe` and `ehci_alloc_pipe` -/
def allocPipe (enabled : Bool) (out : PipeOutcome) (epdesc : Option Nat) :
    Guarded (Option UsbPipe) := do
  if enabled = false then return none
  let eptype := (← readEp read epdesc 3) &&& usbEndpointXfertypeMask
  if eptype = usbEndpointXferInt then allocIntrPipe env read out epdesc
  else if out.pipe = false then return none
  else return some (← usbDesc2pipe read epdesc)

def uhciAllocPipe := allocPipe env read env.options.usbUhci

def ehciAllocPipe := allocPipe env read env.options.usbEhci

def ohciAllocPipe (out : PipeOutcome) (epdesc : Option Nat) : Guarded (Option UsbPipe) := do
  if env.options.usbOhci = false then return none
  let eptype := (← readEp read epdesc 3) &&& usbEndpointXfertypeMask
  if eptype = usbEndpointXferInt then allocIntrPipe env read out epdesc
  -- no bulk transfers
  else if eptype ≠ usbEndpointXferControl then return none
  else if out.pipe = false then return none
  else return some (← usbDesc2pipe read epdesc)

def xhciAllocPipe (out : PipeOutcome) (epdesc : Option Nat) : Guarded (Option UsbPipe) := do
  if env.options.usbXhci = false then return none
  let eptype := (← readEp read epdesc 3) &&& usbEndpointXfertypeMask
  let _bEndpointAddress ← readEp read epdesc 2
  if out.pipe = false then return none
  let pipe ← usbDesc2pipe read epdesc
  if out.inctx = false then return none
  if eptype = usbEndpointXferInt then
    let _frameexp ← usbGetFrameExp env read epdesc
    return if out.commands then some pipe else none
  return if out.commands then some pipe else none

/-- Allocation `n` of a driver. -/
def usbAllocPipe (n : Nat) (epdesc : Option Nat) : Guarded (Option UsbPipe) :=
  match env.cntl with
  | .uhci => uhciAllocPipe env read (env.allocPipe n) epdesc
  | .ohci => ohciAllocPipe env read (env.allocPipe n) epdesc
  | .ehci => ehciAllocPipe env read (env.allocPipe n) epdesc
  | .xhci => xhciAllocPipe env read (env.allocPipe n) epdesc

def usbKbdSetup (epdesc : Nat) : Guarded Int := do
  if env.options.usbKeyboard = false then return -1
  if env.keyboardPipe then return -1
  if (← wMaxPacketSize read (some epdesc)) ≠ 8 then return -1
  if env.setProtocol = false then return -1
  if env.setIdle = false then return -1
  let some _ ← usbAllocPipe env read 0 (some epdesc) | return -1
  return 0

def usbMouseSetup (epdesc : Nat) : Guarded Int := do
  if env.options.usbMouse = false then return -1
  if env.mousePipe then return -1
  let maxpacket ← wMaxPacketSize read (some epdesc)
  if maxpacket < 3 ∨ maxpacket > 8 then return -1
  if env.setProtocol = false then return -1
  let some _ ← usbAllocPipe env read 0 (some epdesc) | return -1
  return 0

/-- `usb_hid_setup` once it has an endpoint. -/
def hidProtocol (epdesc : Nat) : Guarded Int := do
  let bInterfaceProtocol ← read (iface + 7)
  if bInterfaceProtocol = usbInterfaceProtocolKeyboard then usbKbdSetup env read epdesc
  else if bInterfaceProtocol = usbInterfaceProtocolMouse then usbMouseSetup env read epdesc
  else return -1

def usbHidSetup (turns : Nat) (imax : Int) : Guarded Int := do
  if env.options.usbKeyboard = false ∧ env.options.usbMouse = false then return -1
  if (← read (iface + 6)) ≠ usbInterfaceSubclassBoot then return -1
  let some epdesc ← findEndPointDesc read turns imax usbEndpointXferInt usbDirIn | return -1
  hidProtocol env read epdesc

def usbMscSetup (turns : Nat) (imax : Int) : Guarded Int := do
  if env.options.usbMsc = false then return -1
  let bInterfaceSubClass ← read (iface + 6)
  if bInterfaceSubClass ≠ usScScsi ∧ bInterfaceSubClass ≠ usScAtapi8070 ∧
      bInterfaceSubClass ≠ usScAtapi8020 then return -1
  let indesc ← findEndPointDesc read turns imax usbEndpointXferBulk usbDirIn
  let outdesc ← findEndPointDesc read turns imax usbEndpointXferBulk usbDirOut
  match indesc, outdesc with
  | some indesc, some outdesc =>
    let inpipe ← usbAllocPipe env read 0 (some indesc)
    let outpipe ← usbAllocPipe env read 1 (some outdesc)
    if inpipe = none ∨ outpipe = none then return -1
    return if env.mscDrives then 0 else -1
  | _, _ => return -1

/-- The variables of the loop of `usb_uas_setup`; `count` counts the allocations. -/
structure UasWalk where
  desc : Nat
  ep : Option Nat
  count : Nat
  command : Option UsbPipe
  status : Option UsbPipe
  dataIn : Option UsbPipe
  dataOut : Option UsbPipe

/-- The pipe with this id is allocated. -/
def UasWalk.setPipe (s : UasWalk) (id : Byte) (pipe : Option UsbPipe) : UasWalk :=
  if id = 1 then { s with command := pipe }
  else if id = 2 then { s with status := pipe }
  else if id = 3 then { s with dataIn := pipe }
  else { s with dataOut := pipe }

/-- A turn of the loop of `usb_uas_setup`; it fails with `none`. -/
def uasTurn (s : UasWalk) : Guarded (Option UasWalk ⊕ UasWalk) := do
  let desc := s.desc + (← read s.desc).toNat
  let bDescriptorType ← read (desc + 1)
  if bDescriptorType = usbDtEndpoint then return .inr { s with desc := desc, ep := some desc }
  if bDescriptorType = usbDtEndpointCompanion then return .inl none
  if bDescriptorType = 0x24 then
    let id ← read (desc + 2)
    if id = 1 ∨ id = 2 ∨ id = 3 ∨ id = 4 then
      let pipe ← usbAllocPipe env read s.count s.ep
      return .inr ({ s with desc := desc, count := s.count + 1 }.setPipe id pipe)
    return .inl none
  return .inl (some s)

def uasStart : UasWalk := ⟨iface, none, 0, none, none, none, none⟩

def usbUasSetup (turns : Nat) : Guarded Int := do
  if env.options.usbUas = false then return -1
  if (← read (iface + 6)) ≠ usScScsi then return -1
  let some s ← loop (uasTurn env read) turns uasStart | return -1
  if s.command = none ∨ s.status = none ∨ s.dataIn = none ∨ s.dataOut = none then return -1
  return if env.uasDrive then 0 else -1

def usbHubSetup : Guarded Int := do
  if env.options.usbHub = false then return -1
  return env.hubSetup

/-- The driver for the class of the interface; without one for its protocol, `ret` is still 0. -/
def driverSetup (turns : Nat) (bInterfaceClass : Byte) (imax : Int) : Guarded Int := do
  if bInterfaceClass = usbClassHub then return ← usbHubSetup env
  if bInterfaceClass = usbClassMassStorage then
    let bInterfaceProtocol ← read (iface + 7)
    if bInterfaceProtocol = usPrBulk then usbMscSetup env read turns imax
    else if bInterfaceProtocol = usPrUas then usbUasSetup env read turns
    else return 0
  else usbHidSetup env read turns imax

/-- `configure_usb_device` from the class of the interface on. -/
def configureInterface (turns : Nat) : Guarded Int := do
  let bInterfaceClass ← read (iface + 5)
  if bInterfaceClass ≠ usbClassHid ∧ bInterfaceClass ≠ usbClassMassStorage ∧
      bInterfaceClass ≠ usbClassHub then return 0
  if env.setConfiguration (← read 5) = false then return 0
  let wTotalLength ← readU16 read 2
  let ret ← driverSetup env read turns bInterfaceClass (wTotalLength - iface)
  if ret ≠ 0 then return 0
  return 1

end Code

section Configure

variable (env : Env) (cfg config : Nat → Byte)

/-- The size of the buffer that holds the configuration, if there is one. -/
def getDeviceConfig : Option Nat :=
  let wTotalLength := le16 cfg 2
  if env.getConfigHead = false then none
  -- `malloc_tmphigh(0)` is NULL
  else if wTotalLength = 0 ∨ env.mallocTmphigh wTotalLength = false then none
  else if env.getConfig = false then none
  else some wTotalLength

def maxpacketOf (dinfo : Nat → Byte) : Nat :=
  if le16 dinfo 2 ≥ 0x0300 then u16 (2 ^ ((dinfo 7).toNat % 32)) else (dinfo 7).toNat

def configureUsbDevice (turns : Nat) : Guarded Int := do
  let some dinfo := env.getDeviceInfo8 | return 0
  if maxpacketOf dinfo < 8 then return 0
  if env.updatePipe = false then return -1
  let some size := getDeviceConfig env cfg | return 0
  configureInterface env (readIn 0 size config) turns

end Configure

end ItxLlama.Seabios.Usb
