import ItxLlama.Coreboot.DeviceTree

/-!
# Allocating addresses, and the top of low memory

The second pass of the allocator and `dev_configure` of `device/device.c`,
and `pci_domain_set_resources` of `northbridge/dmp/vortex86ex`, which takes
the top of low memory from the addresses the allocator left. A domain has one
link, and reads no resources here: the store is what they read.
-/

namespace ItxLlama.Coreboot

open Lib.Word

/-- Clear of the bits (`flags &= ~bits`). -/
def Resource.clear (r : Resource) (bits : BitVec 32) : Resource :=
  { r with flags := r.flags &&& ~~~bits }

def Resource.setFlags (r : Resource) (bits : BitVec 32) : Resource :=
  { r with flags := r.flags ||| bits }

/-- The loop of `allocate_resources`, after the resource `last`. -/
def allocateLoop (bus : Devices) (bridge : ResPtr) (typeMask type : BitVec 32) :
    Nat → Option ResPtr → (base : Nat) → Store → Option Store
  | 0, _, _, _ => none
  | fuel + 1, last, base, h =>
    match largestResource h bus last typeMask type with
    | none => some h
    | some p =>
      let resource := h.res p
      let resource := { resource with limit := min resource.limit (h.res bridge).limit }
      if resource.size = 0 then
        allocateLoop bus bridge typeMask type fuel (some p) base
          (h.write p ({ resource with base := resource.limit }.setFlags ioresourceAssigned))
      else
        let base := skipLegacyIo resource base
        let start := round base resource.align
        if u64 (start + resource.size + (2 ^ 64 - 1)) ≤ resource.limit then
          allocateLoop bus bridge typeMask type fuel (some p) (u64 (start + resource.size))
            (h.write p (({ resource with base := start }.setFlags ioresourceAssigned).clear
              ioresourceStored))
        else
          -- It did not fit, and keeps the base the sizing pass gave it.
          allocateLoop bus bridge typeMask type fuel (some p) base (h.write p resource)

/-- What `allocate_resources` does before it goes below. -/
def allocateBus (bus : Devices) (bridge : ResPtr) (typeMask type : BitVec 32) (h : Store) :
    Option Store := do
  let h ← allocateLoop bus bridge typeMask type (h.length + 1) none (h.res bridge).base h
  some (h.write bridge ((h.res bridge).setFlags ioresourceAssigned))

mutual
/-- The buses behind the bridges among these devices, allocated. -/
def allocateBridges (typeMask type : BitVec 32) : Devices → Store → Option Store
  | .nil, h => some h
  | .cons _ resources links sibling, h => do
    let h ← match links with
      | .nil => some h
      | .cons _ _ _ =>
        forBridges typeMask type (fun n p type h => allocateLink typeMask type n p links h)
          resources h
    allocateBridges typeMask type sibling h

/-- `allocate_resources` of the link with the number, for its bridge resource. -/
def allocateLink (typeMask type n : BitVec 32) (bridge : ResPtr) : Links → Store → Option Store
  | .nil, _ => none
  | .cons num children next, h =>
    if num = n then do
      let h ← allocateBus children bridge (typeMask ||| ioresourcePrefetch) type h
      allocateBridges (typeMask ||| ioresourcePrefetch) type children h
    else allocateLink typeMask type n bridge next h
end

def allocateResources (bus : Devices) (bridge : ResPtr) (typeMask type : BitVec 32) (h : Store) :
    Option Store := do
  let h ← allocateBus bus bridge typeMask type h
  allocateBridges typeMask type bus h

-- ---------------------------------------------------------------------------
-- Keeping clear of fixed resources
-- ---------------------------------------------------------------------------

def memMask : BitVec 32 := ioresourceMem
def prefType : BitVec 32 := ioresourcePrefetch ||| ioresourceMem

/-- The limits for one kind of resource. -/
structure Limit where
  base : Nat := 0
  limit : Nat := 2 ^ 64 - 1
  deriving DecidableEq, Repr

structure Constraints where
  pref : Limit := {}
  io : Limit := {}
  mem : Limit := {}
  deriving DecidableEq, Repr

/-- Change the limits of the resource's kind: prefetchable, memory or I/O. -/
def Constraints.adjust (c : Constraints) (r : Resource) (f : Limit → Limit) : Constraints :=
  if r.isType memMask prefType then { c with pref := f c.pref }
  else if r.isType memMask ioresourceMem then { c with mem := f c.mem }
  else if r.isType ioresourceIo ioresourceIo then { c with io := f c.io }
  else c

def Limit.cap (lim : Limit) (limit : Nat) : Limit := { lim with limit := min lim.limit limit }

/-- Lower the limits to those of one of the domain's own resources. -/
def Constraints.cap (c : Constraints) (r : Resource) : Constraints where
  pref := if r.isType memMask prefType then c.pref.cap r.limit else c.pref
  mem := if r.isType memMask ioresourceMem then c.mem.cap r.limit else c.mem
  io := if r.isType ioresourceIo ioresourceIo then c.io.cap r.limit else c.io

/-- The limits of the resource's kind. -/
def Constraints.limitOf (c : Constraints) (r : Resource) : Option Limit :=
  if r.isType memMask prefType then some c.pref
  else if r.isType memMask ioresourceMem then some c.mem
  else if r.isType ioresourceIo ioresourceIo then some c.io
  else none

/-- `(signed long long)n`. -/
def s64 (n : Nat) : Int := if n < 2 ^ 63 then n else (n : Int) - 2 ^ 64

/-- Go above or below a fixed resource, whichever leaves more room. -/
def Limit.avoid (lim : Limit) (res : Resource) : Limit :=
  let last := u64 (res.base + res.size + (2 ^ 64 - 1))
  if last < lim.base ∨ res.base > lim.limit then lim
  else if s64 (u64 (lim.limit + 2 ^ 64 - last)) > s64 (u64 (res.base + 2 ^ 64 - lim.base)) then
    { lim with base := u64 (res.base + res.size) }
  else { lim with limit := u64 (res.base + (2 ^ 64 - 1)) }

/-- The part of `constrain_resources` about the device's own resources. -/
def constrainList (h : Store) (resources : List ResPtr) (limits : Constraints) : Constraints :=
  resources.foldl (fun limits p =>
    let res := h.res p
    if !res.has ioresourceFixed || res.size = 0 then limits
    else limits.adjust res (·.avoid res)) limits

mutual
/-- `constrain_resources` of every enabled device on a bus. -/
def constrainBus (h : Store) : Devices → Constraints → Constraints
  | .nil, limits => limits
  | .cons enabled resources links sibling, limits =>
    constrainBus h sibling
      (if enabled then constrainLinks h links (constrainList h resources limits) else limits)

def constrainLinks (h : Store) : Links → Constraints → Constraints
  | .nil, limits => limits
  | .cons _ children next, limits => constrainLinks h next (constrainBus h children limits)
end

structure Domain where
  resourceList : List ResPtr
  bus : Devices

def avoidFixedResources (dev : Domain) (h : Store) : Store :=
  let free := dev.resourceList.filter fun p => !(h.res p).has ioresourceFixed
  let limits := free.foldl (fun limits p => limits.cap (h.res p)) ({} : Constraints)
  let limits := constrainBus h dev.bus (constrainList h dev.resourceList limits)
  free.foldl (fun h p =>
    let res := h.res p
    match limits.limitOf res with
    | none => h
    | some lim =>
      h.write p { res with base := max res.base lim.base, limit := min res.limit lim.limit }) h

-- ---------------------------------------------------------------------------
-- Configuring the tree
-- ---------------------------------------------------------------------------

def resourceMax (r : Resource) : Nat :=
  alignDown (u64 (r.limit + 2 ^ 64 - r.size + 1)) (2 ^ r.align)

/-- One pass of the allocator over the domain's own resources. -/
def domainPass (pass : Devices → ResPtr → BitVec 32 → BitVec 32 → Store → Option Store)
    (bus : Devices) : List ResPtr → Store → Option Store
  | [], h => some h
  | p :: rest, h => do
    let res := h.res p
    let h ←
      if res.has ioresourceFixed then some h
      else if res.has ioresourcePrefetch then pass bus p memMask prefType h
      else if res.has ioresourceMem then pass bus p memMask ioresourceMem h
      else if res.has ioresourceIo then pass bus p ioresourceIo ioresourceIo h
      else some h
    domainPass pass bus rest h

/-- `dev_configure` with this domain the only one, from the resources read to
where they are assigned. -/
def devConfigure (dev : Domain) (h : Store) : Option Store := do
  let h ← domainPass computeResources dev.bus dev.resourceList h
  let h := avoidFixedResources dev h
  let h := dev.resourceList.foldl (fun h p =>
    let res := h.res p
    if !res.has ioresourceMem || res.has ioresourceFixed then h
    else h.write p { res with base := resourceMax res }) h
  domainPass allocateResources dev.bus dev.resourceList h

-- ---------------------------------------------------------------------------
-- The top of low memory
-- ---------------------------------------------------------------------------

def tolmTest (h : Store) (best : Option ResPtr) (new : ResPtr) : Option ResPtr :=
  match best with
  | none => some new
  | some b => if (h.res b).base > (h.res new).base then some new else some b

def findPciTolm (h : Store) (bus : Devices) : Nat :=
  let min := (searchBusResources h ioresourceMem ioresourceMem bus).foldl (tolmTest h) none
  match min with
  | none => 0xffffffff
  | some m => if 0xffffffff > (h.res m).base then (h.res m).base else 0xffffffff

def fixedMemResource (index : BitVec 32) (basek sizek : Nat) (type : BitVec 32) :
    Option Resource :=
  if sizek = 0 then none
  else some {
    base := u64 (basek * 1024)
    size := u64 (sizek * 1024)
    index
    flags := ioresourceMem ||| ioresourceFixed ||| ioresourceStored ||| ioresourceAssigned ||| type }

def ramResource (index : BitVec 32) (basek sizek : Nat) : Option Resource :=
  fixedMemResource index basek sizek ioresourceCacheable

/-- The writes of `set_cmos_memory_size`, each a register and its value. -/
def setCmosMemorySize (sizek : Nat) : List (Nat × Nat) :=
  let extMemSize := min (u32 (sizek + 2 ^ 32 - 1024)) 65535
  [(0x15, 0x80), (0x16, 0x02), (0x17, extMemSize % 256), (0x18, extMemSize / 256 % 256)]

/-- What `pci_domain_set_resources` tells others. -/
structure MemoryReport where
  topOfRam : Option Nat := none
  ram : List Resource := []
  cmos : List (Nat × Nat) := []
  deriving DecidableEq, Repr

/-- The KiB the DRAM size register stands for. -/
def dramSizeK (sizeReg : BitVec 16) : Nat :=
  (2 * 1024) <<< ((sizeReg >>> 8) &&& 0xf).toNat

/-- `pci_domain_set_resources`; `sizeReg` is register 0x6c of the first device. -/
def pciDomainSetResources (h : Store) (bus : Devices) (sizeReg : BitVec 16) : MemoryReport :=
  let pciTolm := findPciTolm h bus
  match bus with
  | .nil => {}
  | .cons _ _ _ _ =>
    let tomk := dramSizeK sizeReg
    let tolmk := pciTolm >>> 10
    let tolmk := if tolmk ≥ tomk then tomk else tolmk
    { topOfRam := some (u32 (tolmk * 1024))
      ram := (ramResource 10 0 640).toList ++
        (ramResource 11 768 (u32 (tolmk + 2 ^ 32 - 768))).toList
      cmos := setCmosMemorySize tolmk }

end ItxLlama.Coreboot
