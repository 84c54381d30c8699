import ItxLlama.Lib.Stores
import ItxLlama.Seabios.Translation

/-!
# Enhanced disk drive parameters

`fill_generic_edd`, `fill_ata_edd` and `fill_edd` of `block.c`. The caller's
buffer is an `int13dpt_s` that starts with its own size. What a call stores
is a list: the checksum is computed from the buffer with the stores before it.
-/

namespace ItxLlama.Seabios

open Lib.Bytes Lib.Stores

/-- What the kinds of drive differ in. -/
structure AtaDrive where
  iobase1 : Nat
  iobase2 : Nat
  irq : Nat
  pciBdf : Nat
  chanid : Nat
  slave : Nat
  atapi : Bool
  translation : Translation
  deriving DecidableEq, Repr

inductive EddType where
  | ata (adrive : AtaDrive)
  | virtio (cntlId : Nat)
  | other
  deriving DecidableEq, Repr

structure EddDrive where
  type : EddType
  pchs : Chs
  sectors : Nat
  blksize : Nat
  deriving DecidableEq, Repr

/-- The other arguments of `fill_generic_edd`. -/
structure EddPath where
  dpteSo : Nat
  ifaceType : Option (List Char)
  bdf : Nat
  channel : Nat
  iobase : Nat
  devicePath : Nat
  deriving DecidableEq, Repr

-- ---------------------------------------------------------------------------
-- The stages
-- ---------------------------------------------------------------------------

def putSize (v : Nat) : Store := ⟨0, 2, v⟩

def edd1 (d : EddDrive) : List Store :=
  putSize 26 ::
  (if d.sectors = 2 ^ 64 - 1 then
    -- 0x74 = removable, media change, lockable, max values
    [⟨2, 2, 0x74⟩, ⟨4, 4, 0xffffffff⟩, ⟨8, 4, 0xffffffff⟩, ⟨12, 4, 0xffffffff⟩]
  else
    (if d.sectors > d.pchs.sector * d.pchs.head * 0x3fff then
      -- geometry is invalid
      [⟨2, 2, 0x00⟩, ⟨4, 4, 0x3fff⟩]
    else
      -- geometry is valid
      [⟨2, 2, 0x02⟩, ⟨4, 4, d.pchs.cylinder⟩]) ++
    [⟨8, 4, d.pchs.head⟩, ⟨12, 4, d.pchs.sector⟩]) ++
  [⟨16, 8, d.sectors⟩, ⟨24, 2, d.blksize⟩]

def edd2 (p : EddPath) : List Store := [putSize 30, ⟨26, 4, p.dpteSo⟩]

def putChars (a : Nat) (s : List Char) : List Store :=
  s.zipIdx.map fun c => ⟨a + c.2, 1, c.1.toNat⟩

/-- `bdf != -1`, for a drive that is not on the ISA bus. -/
def pciPath (p : EddPath) (t13 : Bool) : Nat :=
  let bdf := p.bdf % 2 ^ 16
  let path := (bdf >>> 8) ||| (((bdf >>> 3) &&& 0x1f) <<< 8) ||| ((bdf &&& 0x07) <<< 16)
  if t13 then path ||| (p.channel <<< 24) else path

def edd3 (p : EddPath) (iface : List Char) (t13 : Bool) : List Store :=
  [⟨30, 2, 0xbedd⟩, ⟨32, 1, if t13 then 44 else 36⟩, ⟨33, 1, 0⟩, ⟨34, 2, 0⟩] ++
  putChars 40 (iface.take 8) ++
  (if p.bdf ≠ 0xffffffff then putChars 36 "PCI ".toList ++ [⟨48, 8, pciPath p t13⟩]
  else putChars 36 "ISA ".toList ++ [⟨48, 8, p.iobase⟩]) ++
  (if t13 then [⟨56, 8, p.devicePath⟩, ⟨64, 8, 0⟩] else [⟨56, 8, p.devicePath⟩])

/-- The bytes of the device path in front of its checksum. -/
def pathLength (t13 : Bool) : Nat := if t13 then 43 else 35

/-- `-checksum_far(seg, (void*)param_far+30, len)`, behind the bytes it is for. -/
def putChecksum (m : Nat → Byte) (t13 : Bool) : Store :=
  ⟨30 + pathLength t13, 1, (-sumBytes m 30 (pathLength t13)).toNat⟩

/-- The return code, and what is stored in the buffer `m`. -/
def fillGenericEdd (m : Nat → Byte) (d : EddDrive) (p : EddPath) : Nat × List Store :=
  let size := le16 m 0
  let t13 := size = 74
  -- buffer is too small
  if size < 26 then (diskRetEparam, [])
  else if size < 30 ∨ p.dpteSo = 0 then (diskRetSuccess, edd1 d)
  else
    match p.ifaceType with
    | none => (diskRetSuccess, edd1 d ++ edd2 p)
    | some iface =>
      if size < 66 then (diskRetSuccess, edd1 d ++ edd2 p)
      else
        let stores := edd1 d ++ edd2 p ++ edd3 p iface t13
        (diskRetSuccess, stores ++ [putChecksum (run m stores) t13])

-- ---------------------------------------------------------------------------
-- The wrappers
-- ---------------------------------------------------------------------------

def dpteOptions (a : AtaDrive) : Nat :=
  let options :=
    if a.atapi then (1 <<< 5) ||| (1 <<< 6)
    else match a.translation with
      | .none => 0
      | .lba => (1 <<< 3) ||| (1 <<< 9)
      | .large => 1 <<< 3
      | .rechs => (1 <<< 3) ||| (3 <<< 9)
  options ||| (1 <<< 4) ||| (1 <<< 7)

/-- `DefaultDPTE`, with its checksum. -/
def fillDpte (dpte : Nat → Byte) (a : AtaDrive) : List Store :=
  let stores : List Store :=
    [⟨0, 2, a.iobase1⟩, ⟨2, 2, a.iobase2 + 2⟩,
      ⟨4, 1, (if a.slave ≠ 0 then 0xb0 else 0xa0) ||| 0x40⟩, ⟨5, 1, 0xcb⟩, ⟨6, 1, a.irq⟩,
      ⟨7, 1, 1⟩, ⟨8, 1, 0⟩, ⟨9, 1, 0⟩, ⟨10, 2, dpteOptions a⟩,
      ⟨12, 2, 0⟩, ⟨14, 1, 0x11⟩]
  stores ++ [⟨15, 1, (-sumBytes (run dpte stores) 0 15).toNat⟩]

def ataPath (dpteSo : Nat) (a : AtaDrive) : EddPath :=
  { dpteSo, ifaceType := some "ATA     ".toList, bdf := a.pciBdf, channel := a.chanid,
    iobase := a.iobase1, devicePath := a.slave }

def virtioPath (cntlId : Nat) : EddPath :=
  { dpteSo := 0xffffffff, ifaceType := some "SCSI    ".toList, bdf := cntlId, channel := 0,
    iobase := 0, devicePath := 0 }

def otherPath : EddPath :=
  { dpteSo := 0, ifaceType := none, bdf := 0, channel := 0, iobase := 0, devicePath := 0 }

/-- `dpteSo` is the far address of `DefaultDPTE`. -/
def EddDrive.path (d : EddDrive) (dpteSo : Nat) : EddPath :=
  match d.type with
  | .ata a => ataPath dpteSo a
  | .virtio cntlId => virtioPath cntlId
  | .other => otherPath

/-- `fill_edd`, with what an ATA drive stores in `DefaultDPTE`. -/
def fillEdd (m dpte : Nat → Byte) (dpteSo : Nat) (d : EddDrive) : (Nat × List Store) × List Store :=
  (fillGenericEdd m d (d.path dpteSo),
    match d.type with
    | .ata a => fillDpte dpte a
    | _ => [])

-- ---------------------------------------------------------------------------
-- What is stored
-- ---------------------------------------------------------------------------

theorem edd1_stores (d : EddDrive) : ∃ ws, edd1 d = putSize 26 :: ws ∧
    (∀ w ∈ ws, 2 ≤ w.addr) ∧ extent (edd1 d) = 26 := by
  refine ⟨_, rfl, ?_, ?_⟩
  · split
    · simp
    split <;> simp
  · simp only [edd1]
    split
    · rfl
    split <;> rfl

theorem edd2_extent (p : EddPath) : extent (edd2 p) = 30 := rfl

theorem mem_putChars (h : w ∈ putChars a s) : a ≤ w.addr ∧ w.addr + w.len ≤ a + s.length := by
  obtain ⟨⟨c, i⟩, hc, rfl⟩ := List.mem_map.mp h
  have := (List.mem_zipIdx hc).2.1
  simp only
  omega

/-- The four letters of the bus and the path behind the interface type. -/
theorem mem_hostBus (hs : s.length = 4) (h : w ∈ putChars 36 s ++ [⟨48, 8, v⟩]) :
    30 ≤ w.addr ∧ w.addr + w.len ≤ 56 := by
  rcases List.mem_append.mp h with h | h
  · have := mem_putChars h
    omega
  · obtain rfl := List.mem_singleton.mp h
    simp

theorem edd3_stores (p : EddPath) (iface : List Char) (t13 : Bool) :
    ∀ w ∈ edd3 p iface t13, 30 ≤ w.addr ∧ w.addr + w.len ≤ 30 + pathLength t13 := by
  have hlen : 35 ≤ pathLength t13 := by cases t13 <;> decide
  have hiface : (iface.take 8).length ≤ 8 := List.length_take_le 8 iface
  intro w hw
  simp only [edd3, List.mem_append, or_assoc] at hw
  rcases hw with hhead | hchars | hbus | hpath
  · simp only [List.mem_cons, List.not_mem_nil, or_false] at hhead
    rcases hhead with rfl | rfl | rfl | rfl <;> simp only <;> omega
  · have := mem_putChars hchars
    omega
  · have := by
      split at hbus
      · exact mem_hostBus rfl hbus
      · exact mem_hostBus rfl hbus
    omega
  · cases t13
    · obtain rfl := List.mem_singleton.mp hpath
      exact ⟨by simp only; omega, Nat.le_of_ble_eq_true rfl⟩
    · simp only [if_true, List.mem_cons, List.not_mem_nil, or_false] at hpath
      rcases hpath with rfl | rfl <;> simp only [pathLength, if_true] <;> omega

theorem size_edd1 (m : Nat → Byte) (d : EddDrive) : le16 (run m (edd1 d)) 0 = 26 := by
  obtain ⟨ws, hws, haddr, -⟩ := edd1_stores d
  rw [hws]
  exact run_le16 (by decide) fun w hw => .inl (haddr w hw)

/-- Later stores behind the DPTE address leave the size of the second stage. -/
theorem size_edd2 (m : Nat → Byte) (d : EddDrive) (p : EddPath) (h : ∀ w ∈ ws, 30 ≤ w.addr) :
    le16 (run m (edd1 d ++ edd2 p ++ ws)) 0 = 30 := by
  rw [List.append_assoc, run_append]
  refine run_le16 (by decide) fun w hw => .inl ?_
  rcases List.mem_cons.mp hw with rfl | hw
  · simp
  · exact Nat.le_trans (by decide) (h w hw)

theorem mem_edd1 (h : w ∈ edd1 d) : w.addr + w.len ≤ 26 := by
  obtain ⟨_, _, _, hextent⟩ := edd1_stores d
  exact extent_le_iff.mp (Nat.le_of_eq hextent) w h

theorem mem_edd2 (h : w ∈ edd2 p) : w.addr < 30 ∧ w.addr + w.len ≤ 30 := by
  simp only [edd2, List.mem_cons, List.not_mem_nil, or_false] at h
  rcases h with rfl | rfl <;> simp [putSize]

theorem extent_edd2 (d : EddDrive) (p : EddPath) : extent (edd1 d ++ edd2 p) = 30 := by
  obtain ⟨_, _, _, hextent⟩ := edd1_stores d
  rw [extent_append, hextent, edd2_extent]
  rfl

/-- The ways a call ends. -/
inductive EddStage (m : Nat → Byte) (d : EddDrive) (p : EddPath) : Nat × List Store → Prop
  | rejected : le16 m 0 < 26 → EddStage m d p (diskRetEparam, [])
  | first : 26 ≤ le16 m 0 → le16 m 0 < 30 ∨ p.dpteSo = 0 → EddStage m d p (diskRetSuccess, edd1 d)
  | second : 30 ≤ le16 m 0 → le16 m 0 < 66 ∨ p.ifaceType = none →
      EddStage m d p (diskRetSuccess, edd1 d ++ edd2 p)
  | third (iface : List Char) : 66 ≤ le16 m 0 → p.dpteSo ≠ 0 → p.ifaceType = some iface →
      EddStage m d p (diskRetSuccess, edd1 d ++ edd2 p ++ edd3 p iface (le16 m 0 = 74) ++
        [putChecksum (run m (edd1 d ++ edd2 p ++ edd3 p iface (le16 m 0 = 74))) (le16 m 0 = 74)])

theorem fillGenericEdd_stage (m : Nat → Byte) (d : EddDrive) (p : EddPath) :
    EddStage m d p (fillGenericEdd m d p) := by
  simp only [fillGenericEdd]
  split
  · exact .rejected ‹_›
  split
  · exact .first (Nat.le_of_not_lt ‹_›) ‹_›
  rename_i hsecond
  obtain ⟨hsize, hdpte⟩ := not_or.mp hsecond
  split
  · exact .second (Nat.le_of_not_lt hsize) (.inr ‹_›)
  split
  · exact .second (Nat.le_of_not_lt hsize) (.inl ‹_›)
  · exact .third _ (Nat.le_of_not_lt ‹_›) hdpte ‹_›

/-- What every call keeps to. -/
structure EddSafe (m : Nat → Byte) (r : Nat × List Store) : Prop where
  inside : ∀ w ∈ r.2, w.addr + w.len ≤ le16 m 0
  rejected : le16 m 0 < 26 → r.1 = diskRetEparam ∧ r.2 = []
  /-- The device path part starts at byte 30. -/
  checksum : (∃ w ∈ r.2, 30 ≤ w.addr) →
    sumBytes (run m r.2) 30 (pathLength (le16 m 0 = 74) + 1) = 0

/-- The size field also says what was filled. -/
structure EddRight (m : Nat → Byte) (r : Nat × List Store) : Prop extends EddSafe m r where
  size : 26 ≤ le16 m 0 → le16 (run m r.2) 0 = extent r.2

theorem pathLength_lt (h : 66 ≤ n) : 30 + pathLength (n = 74) < n := by
  by_cases ht13 : n = 74
  · rw [pathLength, if_pos (decide_eq_true ht13)]
    omega
  · rw [pathLength, if_neg (by simpa using ht13)]
    omega

theorem EddStage.safe (h : EddStage m d p r) : EddSafe m r := by
  cases h with
  | rejected hsize => exact ⟨by simp, fun _ => ⟨rfl, rfl⟩, by simp⟩
  | first hsize =>
    refine ⟨fun w hw => Nat.le_trans (mem_edd1 hw) hsize,
      fun h => absurd hsize (Nat.not_le.mpr h), ?_⟩
    rintro ⟨w, hw, haddr⟩
    have := mem_edd1 hw
    omega
  | second hsize =>
    refine ⟨fun w hw => Nat.le_trans ?_ hsize, fun h => absurd h (by omega), ?_⟩
    · rcases List.mem_append.mp hw with hw | hw
      · exact Nat.le_trans (mem_edd1 hw) (by decide)
      · exact (mem_edd2 hw).2
    · rintro ⟨w, hw, haddr⟩
      rcases List.mem_append.mp hw with hw | hw
      · have := mem_edd1 hw
        omega
      · exact absurd (mem_edd2 hw).1 (Nat.not_lt.mpr haddr)
  | third iface hsize =>
    have hlen := pathLength_lt hsize
    refine ⟨fun w hw => ?_, fun h => absurd h (by omega), fun _ => ?_⟩
    · rcases List.mem_append.mp hw with hw | hw
      · rcases List.mem_append.mp hw with hw | hw
        · rcases List.mem_append.mp hw with hw | hw
          · exact Nat.le_trans (mem_edd1 hw) (by omega)
          · exact Nat.le_trans (mem_edd2 hw).2 (by omega)
        · exact Nat.le_trans (edd3_stores _ _ _ w hw).2 (Nat.le_of_lt hlen)
      · obtain rfl := List.mem_singleton.mp hw
        exact hlen
    · simp only [run_append _ (_ ++ _ ++ _) [_]]
      exact sumBytes_closed _ 30 _

theorem EddStage.right (h : EddStage m d p r) :
    EddRight m r ↔ le16 m 0 < 66 ∨ p.dpteSo = 0 ∨ p.ifaceType = none := by
  cases h with
  | rejected hsize =>
    exact iff_of_true
      ⟨(EddStage.rejected hsize : EddStage m d p _).safe,
        fun h => absurd h (by omega)⟩ (.inl (by omega))
  | first hsize hend =>
    refine iff_of_true ⟨(EddStage.first hsize hend : EddStage m d p _).safe, fun _ => ?_⟩
      (hend.imp (fun h => by omega) .inl)
    obtain ⟨_, _, _, hextent⟩ := edd1_stores d
    exact (size_edd1 m d).trans hextent.symm
  | second hsize hend =>
    refine iff_of_true ⟨(EddStage.second hsize hend).safe, fun _ => ?_⟩ (hend.imp_right .inr)
    have h30 : le16 (run m (edd1 d ++ edd2 p ++ [])) 0 = 30 := size_edd2 m d p (by simp)
    rw [List.append_nil] at h30
    exact h30.trans (extent_edd2 d p).symm
  | third iface hsize hdpte hiface =>
    refine iff_of_false (fun h => ?_) (by simp [hdpte, hiface]; omega)
    have hfield := h.size (by omega)
    rw [List.append_assoc _ _ [_], size_edd2 m d p, extent_append] at hfield
    · have : 30 + pathLength (le16 m 0 = 74) + 1 ≤ extent
          (edd3 p iface (le16 m 0 = 74) ++ [putChecksum (run m (edd1 d ++ edd2 p ++
            edd3 p iface (le16 m 0 = 74))) (le16 m 0 = 74)]) :=
        extent_le_iff.mp (Nat.le_refl _) (putChecksum _ _)
          (List.mem_append_right _ (List.mem_singleton_self _))
      omega
    · intro w hw
      rcases List.mem_append.mp hw with hw | hw
      · exact (edd3_stores _ _ _ w hw).1
      · obtain rfl := List.mem_singleton.mp hw
        exact Nat.le_add_right 30 _

theorem fillDpte_sum (dpte : Nat → Byte) (a : AtaDrive) :
    sumBytes (run dpte (fillDpte dpte a)) 0 16 = 0 := by
  rw [fillDpte, run_append]
  exact sumBytes_closed _ 0 15

theorem EddDrive.path_third (d : EddDrive) (dpteSo : Nat) :
    (d.path dpteSo).dpteSo = 0 ∨ (d.path dpteSo).ifaceType = none ↔
      d.type = .other ∨ (∃ a, d.type = .ata a) ∧ dpteSo = 0 := by
  cases h : d.type <;> simp [EddDrive.path, h, ataPath, virtioPath, otherPath]

/-- Both the generic function and what INT 13h AH=48h calls. -/
theorem eddRight_iff (m dpte : Nat → Byte) (d : EddDrive) (p : EddPath) (dpteSo : Nat) :
    (EddRight m (fillGenericEdd m d p) ↔ le16 m 0 < 66 ∨ p.dpteSo = 0 ∨ p.ifaceType = none) ∧
    (EddRight m (fillEdd m dpte dpteSo d).1 ↔
      le16 m 0 < 66 ∨ d.type = .other ∨ (∃ a, d.type = .ata a) ∧ dpteSo = 0) := by
  refine ⟨(fillGenericEdd_stage m d p).right, ?_⟩
  rw [← d.path_third dpteSo]
  exact (fillGenericEdd_stage m d (d.path dpteSo)).right

def eddBuffer : Nat → Byte := fun i => if i = 0 then 66 else 0

def eddVirtio : EddDrive :=
  { type := .virtio 0x18, pchs := ⟨1, 1, 1⟩, sectors := 1000, blksize := 512 }

/-- A virtio disk asked for 66 bytes fills them and says 30. -/
theorem edd_66_says_30 : let r := (fillEdd eddBuffer (fun _ => 0) 0 eddVirtio).1
    le16 (run eddBuffer r.2) 0 = 30 ∧ extent r.2 = 66 ∧ ¬ EddRight eddBuffer r := by
  have hextent : extent (fillEdd eddBuffer (fun _ => 0) 0 eddVirtio).1.2 = 66 := by decide
  have hfield : le16 (run eddBuffer (fillEdd eddBuffer (fun _ => 0) 0 eddVirtio).1.2) 0 = 30 := by
    decide +kernel
  refine ⟨hfield, hextent, fun h => ?_⟩
  have := h.size (by decide)
  rw [hfield, hextent] at this
  exact absurd this (by decide)

end ItxLlama.Seabios
