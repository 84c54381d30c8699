import ItxLlama.Lib.Word

/-!
# The device tree and its resources

`device/device.c` and `device/device_util.c`: the tree of devices and buses,
the search for resources on a bus, and the two passes of the allocator. A
pointer to a resource is its place in the store, so that what the allocator
writes through one pointer every list sees. The tree itself does not change.
A dereferenced null link, or a loop that has not ended after a round for
every resource there is, is `none`.
-/

namespace ItxLlama.Coreboot

open Lib.Word

structure Resource where
  base : Nat := 0
  size : Nat := 0
  limit : Nat := 0
  flags : BitVec 32 := 0
  index : BitVec 32 := 0
  align : Nat := 0
  gran : Nat := 0
  deriving DecidableEq, Repr

abbrev ResPtr := Nat

/-- Where the resources are. -/
abbrev Store := List Resource

def Store.res (h : Store) (p : ResPtr) : Resource := h.getD p {}

def Store.write (h : Store) (p : ResPtr) (r : Resource) : Store := h.set p r

mutual
/-- `bus->children`: a device and the siblings after it. -/
inductive Devices where
  | nil
  | cons (enabled : Bool) (resourceList : List ResPtr) (linkList : Links) (sibling : Devices)

/-- `dev->link_list`: a bus and the further links of the device. -/
inductive Links where
  | nil
  | cons (linkNum : BitVec 32) (children : Devices) (next : Links)
end

def ioresourceIo : BitVec 32 := 0x100
def ioresourceMem : BitVec 32 := 0x200
def ioresourcePrefetch : BitVec 32 := 0x1000
def ioresourceCacheable : BitVec 32 := 0x4000
def ioresourceSubtractive : BitVec 32 := 0x40000
def ioresourceBridge : BitVec 32 := 0x80000
def ioresourceStored : BitVec 32 := 0x20000000
def ioresourceAssigned : BitVec 32 := 0x40000000
def ioresourceFixed : BitVec 32 := 0x80000000

/-- `resource->flags & bit`. -/
def Resource.has (r : Resource) (bit : BitVec 32) : Bool := r.flags &&& bit != 0

def Resource.isType (r : Resource) (typeMask type : BitVec 32) : Bool :=
  r.flags &&& typeMask == type

def ioindexSubtractiveLink (index : BitVec 32) : BitVec 32 := index &&& 0xff

def ioindexLink (index : BitVec 32) : BitVec 32 := (index &&& 0xf0000) >>> 16

-- ---------------------------------------------------------------------------
-- Searching a bus
-- ---------------------------------------------------------------------------

/-- The loop of `search_bus_resources` over one device's resources. `subbus`
searches the device's link of a given number; without one the loop breaks. -/
def searchList (h : Store) (typeMask type : BitVec 32)
    (subbus : BitVec 32 → Option (List ResPtr)) : List ResPtr → List ResPtr
  | [] => []
  | p :: rest =>
    let res := h.res p
    if !res.isType typeMask type then searchList h typeMask type subbus rest
    else if res.has ioresourceSubtractive then
      match subbus (ioindexSubtractiveLink res.index) with
      | none => []
      | some found => found ++ searchList h typeMask type subbus rest
    else p :: searchList h typeMask type subbus rest

mutual
/-- The resources `search` is called on, in order. -/
def searchBusResources (h : Store) (typeMask type : BitVec 32) : Devices → List ResPtr
  | .nil => []
  | .cons enabled resources links sibling =>
    (if enabled then
      searchList h typeMask type (fun n => searchLink h typeMask type n links) resources
    else []) ++ searchBusResources h typeMask type sibling

/-- The search behind the first link with the number. -/
def searchLink (h : Store) (typeMask type n : BitVec 32) : Links → Option (List ResPtr)
  | .nil => none
  | .cons num children next =>
    if num = n then some (searchBusResources h typeMask type children)
    else searchLink h typeMask type n next
end

structure PickLargestState where
  result : Option ResPtr := none
  seenLast : Bool := false
  deriving DecidableEq, Repr

def pickLargestResource (h : Store) (last : Option ResPtr) (state : PickLargestState)
    (p : ResPtr) : PickLargestState :=
  let resource := h.res p
  if last = some p then { state with seenLast := true }
  else if resource.has ioresourceFixed then state
  else
    let before := match last with
      | none => false
      | some l =>
        (h.res l).align < resource.align ∨
          (h.res l).align = resource.align ∧ (h.res l).size < resource.size ∨
          (h.res l).align = resource.align ∧ (h.res l).size = resource.size ∧ !state.seenLast
    if before then state
    else
      match state.result with
      | none => { state with result := some p }
      | some q =>
        if (h.res q).align < resource.align ∨
            (h.res q).align = resource.align ∧ (h.res q).size < resource.size then
          { state with result := some p }
        else state

def largestResource (h : Store) (bus : Devices) (last : Option ResPtr)
    (typeMask type : BitVec 32) : Option ResPtr :=
  ((searchBusResources h typeMask type bus).foldl (pickLargestResource h last) {}).result

-- ---------------------------------------------------------------------------
-- The allocator
-- ---------------------------------------------------------------------------

/-- `round(val, pow)`, in 64 bits. -/
def round (val pow : Nat) : Nat := alignDown (u64 (val + (2 ^ pow - 1))) (2 ^ pow)

/-- Where a bridge's window can start. -/
def Resource.startBase (bridge : Resource) : Nat := round bridge.base bridge.align

/-- Keep an I/O base off the legacy aliases and the VGA registers. -/
def skipLegacyIo (resource : Resource) (base : Nat) : Nat :=
  if resource.has ioresourceIo then
    if base / 0x100 % 4 ≠ 0 then u64 (alignDown base 0x400 + 0x400)
    else if 0x3b0 ≤ base ∧ base ≤ 0x3df then 0x3e0
    else base
  else base

/-- The sizing loop of `compute_resources`, after the resource `last`. -/
def computeLoop (bus : Devices) (bridge : ResPtr) (typeMask type : BitVec 32) :
    Nat → Option ResPtr → (base : Nat) → Store → Option (Nat × Store)
  | 0, _, _, _ => none
  | fuel + 1, last, base, h =>
    match largestResource h bus last typeMask type with
    | none => some (base, h)
    | some p =>
      let resource := h.res p
      if resource.size = 0 then computeLoop bus bridge typeMask type fuel (some p) base h
      else
        let br := h.res bridge
        let h := h.write bridge
          { br with align := max br.align resource.align, limit := min br.limit resource.limit }
        let base := round (skipLegacyIo resource base) resource.align
        computeLoop bus bridge typeMask type fuel (some p) (u64 (base + resource.size))
          (h.write p { resource with base := base })

/-- The loop over one device's resources that hands the buses behind its
bridge resources to `behind`, in both passes. -/
def forBridges (typeMask type : BitVec 32)
    (behind : BitVec 32 → ResPtr → (type : BitVec 32) → Store → Option Store) :
    List ResPtr → Store → Option Store
  | [], h => some h
  | p :: rest, h =>
    let res := h.res p
    if !res.has ioresourceBridge || !res.isType typeMask type then
      forBridges typeMask type behind rest h
    else do
      let h ← behind (ioindexLink res.index) p (type ||| (res.flags &&& ioresourcePrefetch)) h
      forBridges typeMask type behind rest h

/-- What `compute_resources` does once the bridges below are sized. -/
def computeBus (bus : Devices) (bridge : ResPtr) (typeMask type : BitVec 32) (base : Nat)
    (h : Store) : Option Store := do
  let (base, h) ← computeLoop bus bridge typeMask type (h.length + 1) none base h
  let br := h.res bridge
  some (h.write bridge { br with size := u64 (round base br.gran + 2 ^ 64 - br.startBase) })

mutual
/-- The buses behind the bridges among these devices, sized. -/
def computeBridges (typeMask type : BitVec 32) : Devices → Store → Option Store
  | .nil, h => some h
  | .cons _ resources links sibling, h => do
    let h ← match links with
      | .nil => some h
      | .cons _ _ _ =>
        forBridges typeMask type (fun n p type h => computeLink typeMask type n p links h)
          resources h
    computeBridges typeMask type sibling h

/-- `compute_resources` of the link with the number, for its bridge resource. -/
def computeLink (typeMask type n : BitVec 32) (bridge : ResPtr) : Links → Store → Option Store
  | .nil, _ => none
  | .cons num children next, h =>
    if num = n then do
      let base := (h.res bridge).startBase
      let h ← computeBridges (typeMask ||| ioresourcePrefetch) type children h
      computeBus children bridge (typeMask ||| ioresourcePrefetch) type base h
    else computeLink typeMask type n bridge next h
end

def computeResources (bus : Devices) (bridge : ResPtr) (typeMask type : BitVec 32) (h : Store) :
    Option Store := do
  let base := (h.res bridge).startBase
  let h ← computeBridges typeMask type bus h
  computeBus bus bridge typeMask type base h

end ItxLlama.Coreboot
