import ItxLlama.Coreboot.SmbiosRead
import Mathlib.Algebra.BigOperators.Group.List.Basic

/-!
# Which SMBIOS tables are read back

A table is read back just where every structure with strings has one, none of its
fields is given the empty string, and the last OEM string is the last new one.
-/

namespace ItxLlama.Coreboot.Smbios

open Lib.Word Lib.Bytes Lib.StringSet

-- ---------------------------------------------------------------------------
-- Enumeration
-- ---------------------------------------------------------------------------

/-- The reader finds the structures at these addresses and then no more. -/
def Enumerates (m : Nat → Byte) (e : Entry) : Option Nat → List Nat → Prop
  | prev, [] => smbiosNext m e prev = none
  | prev, a :: rest => smbiosNext m e prev = some a ∧ Enumerates m e (some a) rest

/-- The structure ends with two zeroes. -/
def Complete (s : Structure) : Prop := s.isPlain ∨ s.set ≠ []

section Enumerate

variable {m : Nat → Byte} {e : Entry} {s : Structure}

theorem tail_of_plain (h : s.isPlain) : s.tail = [0, 0] := by
  unfold Structure.isPlain at h
  rw [Structure.tail, h]

theorem tail_of_not_plain (h : ¬ s.isPlain) : s.tail = terminated s.set ++ [0] := by
  unfold Structure.isPlain at h
  unfold Structure.tail
  split
  · exact absurd ‹_› h
  · rfl

theorem firstDouble_tail (h : Complete s) (rest : List Byte) :
    firstDouble (s.tail ++ rest) = s.tail.length := by
  by_cases hplain : s.isPlain
  · rw [tail_of_plain hplain]
    exact firstDouble_zeros rest
  · rw [tail_of_not_plain hplain, List.append_assoc, List.length_append]
    exact firstDouble_terminated (strings_set s) (h.resolve_left hplain) rest

theorem two_le_tail (h : Complete s) : 2 ≤ s.tail.length := by
  by_cases hplain : s.isPlain
  · rw [tail_of_plain hplain]
    exact Nat.le_refl 2
  · have hlen := length_terminated_ge s.set
    have hpos := List.length_pos_iff.mpr (h.resolve_left hplain)
    rw [tail_of_not_plain hplain, List.length_append, List.length_singleton]
    omega

/-- The last test of the reader. -/
def checkNext (m : Nat → Byte) (e : Entry) (a : Nat) : Option Nat :=
  let end_ := e.structTableAddress + e.structTableLength
  if a ≥ end_ ∨ a + sizeofHeader ≥ end_ ∨ a + (m (a + 1)).toNat ≥ end_ then none else some a

theorem smbiosNext_none : smbiosNext m e none = checkNext m e e.structTableAddress := rfl

theorem smbiosNext_some (hend : e.structTableAddress + e.structTableLength = top)
    (hloc : Located m top a s body rest) (h : Complete s) :
    smbiosNext m e (some a) = checkNext m e (a + s.formatted + s.tail.length) := by
  have hends := hloc.ends
  have htwo := two_le_tail h
  have hrun : a + s.formatted + (s.tail ++ rest).length = top := by
    rw [List.length_append]
    exact hends
  have hscan := scanEnd_firstDouble hloc.tail (by rw [List.length_append]; omega) hrun
  rw [firstDouble_tail h] at hscan
  have hfits : ¬ a + sizeofHeader > top := by
    unfold sizeofHeader
    rw [Structure.formatted] at hends
    omega
  unfold smbiosNext
  simp only
  rw [hend, if_neg hfits, hloc.length, hscan]
  simp only [checkNext]
  rw [hend]

theorem checkNext_located (hend : e.structTableAddress + e.structTableLength = top)
    (hloc : Located m top a s body rest) : checkNext m e a = some a := by
  have hends := hloc.ends
  obtain ⟨more, htail⟩ := tail_eq s
  have hpos : 0 < s.tail.length := by
    rw [htail, List.length_append, List.length_cons]
    omega
  unfold checkNext
  simp only
  rw [hend, hloc.length]
  refine if_neg ?_
  rw [Structure.formatted] at hends ⊢
  unfold sizeofHeader
  omega

theorem enumerates_of_complete {ws : List (Nat × Structure)} (hm : Has m a (written ws))
    (hend : e.structTableAddress + e.structTableLength = a + (written ws).length)
    (hcomplete : ∀ w ∈ ws, Complete w.2) (hprev : smbiosNext m e prev = checkNext m e a) :
    Enumerates m e prev (addresses a ws) := by
  induction ws generalizing a prev with
  | nil =>
    refine hprev.trans (if_pos (Or.inl ?_))
    rw [hend]
    exact Nat.le_refl _
  | cons w ws ih =>
    obtain ⟨hw, hws⟩ := List.forall_mem_cons.mp hcomplete
    obtain ⟨body, rest, hloc⟩ := @located_of_mem m a (a, w.2) (w :: ws) hm List.mem_cons_self
    have hcons : written (w :: ws) = w.2.write w.1 ++ written ws := List.flatMap_cons
    obtain ⟨body', hwrote⟩ := w.2.wrote w.1
    have hsize : (w.2.write w.1).length = w.2.formatted + w.2.tail.length := by
      rw [hwrote.write, List.length_append, List.length_append, length_header, hwrote.length,
        Structure.formatted]
      omega
    rw [hcons] at hm
    refine ⟨hprev.trans (checkNext_located hend hloc), ?_⟩
    refine ih (has_append.mp hm).2 ?_ hws ?_
    · rw [hend, hcons, List.length_append, Nat.add_assoc]
    · rw [smbiosNext_some hend hloc hw, hsize, Nat.add_assoc]

/-- The reader goes two bytes behind the formatted area at least. -/
theorem smbiosNext_ge (hlen : (m (a + 1)).toNat = n) (h : smbiosNext m e (some a) = some a') :
    a + n + 2 ≤ a' := by
  unfold smbiosNext at h
  simp only at h
  split at h
  · exact nomatch h
  · rename_i prev hfound
    split at hfound
    · exact nomatch hfound
    · rw [hlen] at hfound
      have hge := scanEnd_ge m (e.structTableAddress + e.structTableLength)
        (e.structTableAddress + e.structTableLength - (a + n + 2)) (a + n + 2)
      rw [Option.some.inj hfound] at hge
      split at h
      · exact nomatch h
      · exact Option.some.inj h ▸ hge

theorem tail_of_incomplete (h : ¬ Complete s) : s.tail = [0] := by
  obtain ⟨hplain, hset⟩ := not_or.mp h
  rw [tail_of_not_plain hplain, not_not.mp hset]
  rfl

theorem complete_of_enumerates {ws : List (Nat × Structure)} (hm : Has m a (written ws))
    (h : Enumerates m e prev (addresses a ws)) (hlast : ∀ w, ws.getLast? = some w → Complete w.2) :
    ∀ w ∈ ws, Complete w.2 := by
  induction ws generalizing a prev with
  | nil => exact fun w hw => nomatch hw
  | cons w ws ih =>
    have hcons : written (w :: ws) = w.2.write w.1 ++ written ws := List.flatMap_cons
    obtain ⟨body, rest, hloc⟩ := @located_of_mem m a (a, w.2) (w :: ws) hm List.mem_cons_self
    obtain ⟨body', hwrote⟩ := w.2.wrote w.1
    have hsize : (w.2.write w.1).length = w.2.formatted + w.2.tail.length := by
      rw [hwrote.write, List.length_append, List.length_append, length_header, hwrote.length,
        Structure.formatted]
      omega
    rw [hcons] at hm
    have hrest := (has_append.mp hm).2
    cases ws with
    | nil => exact fun w' hw' => List.mem_singleton.mp hw' ▸ hlast w rfl
    | cons w' ws =>
      obtain ⟨-, hnext⟩ := h
      have hw : Complete w.2 := by
        by_contra hw
        have hge := smbiosNext_ge hloc.length hnext.1
        rw [hsize, tail_of_incomplete hw, List.length_singleton] at hge
        simp only at hge
        omega
      refine List.forall_mem_cons.mpr ⟨hw, ih hrest hnext fun w'' hw'' => hlast w'' ?_⟩
      rw [List.getLast?_cons_cons]
      exact hw''

end Enumerate

-- ---------------------------------------------------------------------------
-- Structures
-- ---------------------------------------------------------------------------

/-- The last string is the last new one, and there are at most 255 different ones. -/
def LastNew (strs : List (List Byte)) : Prop :=
  ∃ last, strs.getLast? = some last ∧ (collect strs).getLast? = some last ∧
    (collect strs).length < 256

/-- The strings that a structure can be given. -/
def Structure.Tidy (s : Structure) : Prop :=
  match s.strings with
  | .plain => True
  | .fields fs => ∀ f ∈ fs, f.2.1 ≠ []
  | .oem strs => LastNew (strs.map Subtype.val)

section Structure

variable {m : Nat → Byte} {e : Entry} {s : Structure} {body rest : List Byte}

theorem Structure.Tidy.complete (h : s.Tidy) : Complete s := by
  unfold Structure.Tidy at h
  unfold Complete Structure.isPlain Structure.set Structure.given
  cases hs : s.strings with
  | plain => exact Or.inl rfl
  | fields fs =>
    rw [hs] at h
    right
    obtain ⟨hne, -⟩ := s.fields fs hs
    obtain ⟨f, fs', rfl⟩ := List.exists_cons_of_ne_nil hne
    have hin : f.2.1 ∈ collect ((f :: fs').map fun f => f.2.1) :=
      mem_collect (List.mem_map_of_mem List.mem_cons_self) (h f List.mem_cons_self)
    exact List.ne_nil_of_mem hin
  | oem strs =>
    rw [hs] at h
    right
    obtain ⟨last, -, hlast, -⟩ := h
    intro hnil
    simp only at hnil
    rw [hnil] at hlast
    exact nomatch hlast

theorem Located.denotes (hloc : Located m top a s body rest) (h : s.Tidy)
    (hend : e.structTableAddress + e.structTableLength = top) (hf : f ∈ s.fieldStrings) :
    (stringsAt m e a)[(m (a + 4 + f.1)).toNat - 1]? = some f.2.1 := by
  obtain ⟨handle, hwrote, -⟩ := hloc.bytes
  obtain ⟨k, hpos, hlt, hfield, hstr⟩ := hwrote.fields f hf
  have hne : f.2.1 ≠ [] := by
    unfold Structure.Tidy at h
    unfold Structure.fieldStrings at hf
    cases hs : s.strings with
    | plain =>
      rw [hs] at hf
      exact nomatch hf
    | fields fs =>
      rw [hs] at h hf
      exact h f hf
    | oem strs =>
      rw [hs] at hf
      exact nomatch hf
  rw [hloc.strings hend, hloc.field hfield, BitVec.toNat_ofNat, Nat.mod_eq_of_lt hlt]
  exact hstr hne

theorem Located.nonempty (hloc : Located m top a s body rest)
    (hend : e.structTableAddress + e.structTableLength = top) (hf : f ∈ s.fieldStrings)
    (h : m (a + 4 + f.1) ≠ 0 → (stringsAt m e a)[(m (a + 4 + f.1)).toNat - 1]? = some f.2.1) :
      f.2.1 ≠ [] := by
  obtain ⟨handle, hwrote, -⟩ := hloc.bytes
  obtain ⟨k, hpos, hlt, hfield, -⟩ := hwrote.fields f hf
  rw [hloc.strings hend, hloc.field hfield] at h
  have hne : BitVec.ofNat 8 k ≠ 0 := by
    intro hzero
    have hk := congrArg BitVec.toNat hzero
    rw [BitVec.toNat_ofNat, Nat.mod_eq_of_lt hlt] at hk
    exact absurd hk (Nat.ne_of_gt hpos)
  exact (strings_set s).nonempty _ (List.mem_of_getElem? (h hne))

/-- The count of a type 11 structure is right just where its last string is the last new one. -/
theorem Located.oem_iff {strs : List CString} (hloc : Located m top a s body rest)
    (hs : s.strings = .oem strs)
    (hend : e.structTableAddress + e.structTableLength = top) (hcomplete : Complete s) :
    (m (a + 4)).toNat = (stringsAt m e a).length ↔ LastNew (strs.map Subtype.val) := by
  obtain ⟨handle, hwrote, -⟩ := hloc.bytes
  have hset : s.set = collect (strs.map Subtype.val) := by
    rw [Structure.set, Structure.given, hs]
  have hnil : collect (strs.map Subtype.val) ≠ [] := by
    rw [← hset]
    refine hcomplete.resolve_left fun hplain => ?_
    rw [Structure.isPlain, hs] at hplain
    cases hplain
  have hstrings := strings_set s
  rw [hloc.strings hend, hset]
  rw [hset] at hstrings
  cases strs using List.reverseRecOn with
  | nil => exact absurd rfl hnil
  | append_singleton init last =>
    have hbody := hwrote.oem _ hs init last rfl
    have hfield : m (a + 4 + 0) = _ := hloc.field (b := BitVec.ofNat 8
      (position (collect (init.map Subtype.val)) last.1)) (by rw [hbody]; rfl)
    rw [Nat.add_zero] at hfield
    rw [hfield, BitVec.toNat_ofNat]
    rw [List.map_append, List.map_singleton, collect_concat] at hstrings hnil ⊢
    unfold LastNew
    rw [List.getLast?_concat, collect_concat]
    have hle := position_le (collect (init.map Subtype.val)) last.1
    by_cases hold : last.1 ∈ collect (init.map Subtype.val)
    · have hsame : add (collect (init.map Subtype.val)) last.1 = collect (init.map Subtype.val) :=
        if_pos (Or.inr hold)
      rw [hsame] at hstrings ⊢
      have hplace := position_eq_length_iff hstrings.nodup hold
      have hin : position (collect (init.map Subtype.val))
        last.1 ≤ (collect (init.map Subtype.val)).length := by
        rw [position, if_pos hold]
        exact List.idxOf_lt_length_of_mem hold
      constructor
      · intro hcount
        exact ⟨last.1, rfl, hplace.mp (by omega), by omega⟩
      · rintro ⟨last', hlast', hend', hlt⟩
        obtain rfl := Option.some.inj hlast'
        rw [hplace.mpr hend']
        exact Nat.mod_eq_of_lt hlt
    · have hposition : position (collect (init.map Subtype.val)) last.1 =
          (collect (init.map Subtype.val)).length + 1 := if_neg hold
      rw [hposition]
      by_cases hempty : last.1 = []
      · have hsame : add (collect (init.map Subtype.val)) last.1 = collect (init.map Subtype.val) :=
          if_pos (Or.inl hempty)
        rw [hsame] at hstrings ⊢
        constructor
        · intro hcount
          omega
        · rintro ⟨last', hlast', hend', -⟩
          obtain rfl := Option.some.inj hlast'
          exact absurd hempty (hstrings.nonempty _ (List.mem_of_getLast? hend'))
      · have hnew : add (collect (init.map Subtype.val)) last.1 = collect
          (init.map Subtype.val) ++ [last.1] :=
          if_neg (not_or.mpr ⟨hempty, hold⟩)
        rw [hnew, List.length_append, List.length_singleton, List.getLast?_concat]
        constructor
        · intro hcount
          exact ⟨last.1, rfl, rfl, by omega⟩
        · rintro ⟨-, -, -, hlt⟩
          exact Nat.mod_eq_of_lt hlt

end Structure

-- ---------------------------------------------------------------------------
-- The table
-- ---------------------------------------------------------------------------

/-- What the reader finds is what was written. -/
structure ReadBack (m : Nat → Byte) (e : Entry) (start : Nat) (t : Table) : Prop where
  enumerated : Enumerates m e none (addresses start t.written)
  count : e.structCount = t.written.length
  length : e.structTableLength = t.bytes.length
  fields : ∀ p ∈ placed start t.written, ∀ f ∈ p.2.fieldStrings, m (p.1 + 4 + f.1) ≠ 0 →
    (stringsAt m e p.1)[(m (p.1 + 4 + f.1)).toNat - 1]? = some f.2.1
  oem : ∀ p ∈ placed start t.written, ∀ strs, p.2.strings = .oem strs →
    (m (p.1 + 4)).toNat = (stringsAt m e p.1).length

def Structure.size (s : Structure) : Nat := s.formatted + s.tail.length

def tableSize (t : Table) : Nat := (t.written.map fun w => w.2.size).sum

/-- The strings of the structures that every board has. -/
structure Config.Tidy (c : Config) : Prop where
  dmiDate : c.dmiDate.1 ≠ []
  biosVersion : c.localversion.1 ≠ [] ∨ c.corebootVersion.1 ≠ []
  manufacturer : c.manufacturer.1 ≠ []
  productName : c.productName.1 ≠ []
  serialNumber : c.serialNumber.1 ≠ []
  version : c.version.1 ≠ []
  cpuVendor : c.cpuVendor.1 ≠ []
  processorName : c.processorName.1 ≠ []

def Device.Tidy (c : Config) : Device → Prop
  | .rdc _ => True
  | .qemu _ => c.mainboardVendor.1 ≠ []
  | .onboard devices => ∀ d ∈ devices, d.1.1 ≠ []
  | .oemStrings strings => LastNew (strings.map Subtype.val)

/-- No field gets the empty string, the last OEM string of a device is its last new one, the log
of events is written where there is one, and the structures take less than 64 KiB. -/
structure Tidy (c : Config) (elog : Elog) (devices : List Device) : Prop where
  config : c.Tidy
  supplied : ∀ d ∈ devices, d.Tidy c
  log : elog ≠ .noMemory
  size : tableSize (table c elog devices) < 2 ^ 16

section Table

variable {c : Config} {t : Table}

theorem written_length (ws : List (Nat × Structure)) :
    (written ws).length = (ws.map fun w => w.2.size).sum := by
  induction ws with
  | nil => rfl
  | cons w ws ih =>
    obtain ⟨body, hwrote⟩ := w.2.wrote w.1
    have hcons : written (w :: ws) = w.2.write w.1 ++ written ws := List.flatMap_cons
    rw [hcons, List.length_append, ih, List.map_cons, List.sum_cons, hwrote.write,
      List.length_append,
      List.length_append, length_header, hwrote.length, Structure.size, Structure.formatted]
    omega

theorem forall_placed {P : Structure → Prop} {start : Nat} {ws : List (Nat × Structure)} :
    (∀ p ∈ placed start ws, P p.2) ↔ ∀ w ∈ ws, P w.2 := by
  induction ws generalizing start with
  | nil => exact ⟨fun _ w hw => (nomatch hw), fun _ p hp => (nomatch hp)⟩
  | cons w ws ih =>
    rw [placed, List.forall_mem_cons, List.forall_mem_cons, ih]

theorem forall_put {P : Structure → Prop} {s : Structure} :
    (∀ w ∈ (t.put s).written, P w.2) ↔ (∀ w ∈ t.written, P w.2) ∧ P s := by
  rw [Table.put, List.forall_mem_append, List.forall_mem_singleton]

theorem forall_foldl_put {P : Structure → Prop} (ss : List Structure) (t : Table) :
    (∀ w ∈ (ss.foldl Table.put t).written, P w.2) ↔ (∀ w ∈ t.written, P w.2) ∧ ∀ s ∈ ss, P s := by
  induction ss generalizing t with
  | nil => exact ⟨fun h => ⟨h, fun _ hs => (nomatch hs)⟩, fun h => h.1⟩
  | cons s ss ih => rw [List.foldl_cons, ih, forall_put, List.forall_mem_cons, and_assoc]

theorem tidy_structures (c : Config) (handle : Nat) (d : Device) :
    (∀ s ∈ d.structures c handle, s.Tidy) ↔ d.Tidy c := by
  cases d with
  | rdc memorySize =>
    exact ⟨fun _ => trivial, fun _ s hs => List.mem_singleton.mp hs ▸ trivial⟩
  | qemu memorySize =>
    constructor
    · intro h
      have h17 := h (data17 c memorySize handle) (List.mem_cons_of_mem _ (List.mem_singleton_self _))
      exact h17 (19, c.mainboardVendor) (List.mem_cons_of_mem _ (List.mem_singleton_self _))
    · intro h s hs
      obtain rfl | rfl : s = data16 memorySize ∨ s = data17 c memorySize handle :=
        List.mem_pair.mp hs
      · trivial
      · intro f hf
        obtain rfl | rfl : f = (12, virtual) ∨ f = (19, c.mainboardVendor) := List.mem_pair.mp hf
        · decide
        · exact h
  | onboard devices =>
    constructor
    · intro h d hd
      exact h _ (List.mem_map_of_mem hd) (0, d.1) (List.mem_singleton_self _)
    · intro h s hs
      obtain ⟨d, hd, rfl⟩ := List.mem_map.mp hs
      intro f hf
      obtain rfl := List.mem_singleton.mp hf
      exact h d hd
  | oemStrings strings =>
    constructor
    · intro h
      exact h _ (List.mem_singleton_self _)
    · intro h s hs
      obtain rfl := List.mem_singleton.mp hs
      exact h

theorem tidy_devices (c : Config) (devices : List Device) (t : Table) :
    (∀ w ∈ (devices.foldl (Table.device c) t).written, w.2.Tidy) ↔
      (∀ w ∈ t.written, w.2.Tidy) ∧ ∀ d ∈ devices, d.Tidy c := by
  induction devices generalizing t with
  | nil => exact ⟨fun h => ⟨h, fun _ hd => (nomatch hd)⟩, fun h => h.1⟩
  | cons d devices ih =>
    rw [List.foldl_cons, ih, Table.device, forall_foldl_put, tidy_structures, List.forall_mem_cons,
      and_assoc]

theorem tidy_elog (t : Table) (elog : Elog) :
    (∀ w ∈ (t.elog elog).written, w.2.Tidy) ↔ ∀ w ∈ t.written, w.2.Tidy := by
  cases elog with
  | absent => exact Iff.rfl
  | noMemory => exact Iff.rfl
  | log totalSize address => exact forall_put.trans ⟨fun h => h.1, fun h => ⟨h, trivial⟩⟩

theorem tidy_config (c : Config) :
    (∀ s ∈ [writeType0 c, writeType1 c, writeType3 c, writeType4 c], s.Tidy) ↔ c.Tidy := by
  simp only [List.forall_mem_cons, List.not_mem_nil, false_implies, implies_true, and_true]
  constructor
  · rintro ⟨h0, h1, h3, h4⟩
    have hversion := h0 (1, if c.localversion.1 ≠ [] then c.localversion else c.corebootVersion)
      (List.mem_cons_of_mem _ (List.mem_cons_of_mem _ (List.mem_singleton_self _)))
    exact {
      dmiDate := h0 (4, c.dmiDate) (List.mem_cons_of_mem _ List.mem_cons_self)
      biosVersion := by
        by_cases hlocal : c.localversion.1 ≠ []
        · exact Or.inl hlocal
        · simp only [if_neg hlocal] at hversion
          exact Or.inr hversion
      manufacturer := h3 (0, c.manufacturer) (List.mem_singleton_self _)
      productName := h1 (1, c.productName) (List.mem_cons_of_mem _ List.mem_cons_self)
      serialNumber := h1 (3, c.serialNumber)
        (List.mem_cons_of_mem _ (List.mem_cons_of_mem _ List.mem_cons_self))
      version := h1 (2, c.version)
        (List.mem_cons_of_mem _ (List.mem_cons_of_mem _ (List.mem_cons_of_mem _
          (List.mem_singleton_self _))))
      cpuVendor := h4 (3, c.cpuVendor) List.mem_cons_self
      processorName := h4 (12, c.processorName) (List.mem_cons_of_mem _ (List.mem_singleton_self _)) }
  · intro h
    refine ⟨fun f hf => ?_, fun f hf => ?_, fun f hf => ?_, fun f hf => ?_⟩
    · obtain rfl | hf := List.mem_cons.mp hf
      · decide
      · obtain rfl | hf := List.mem_cons.mp hf
        · exact h.dmiDate
        · obtain rfl := List.mem_singleton.mp hf
          simp only
          split
          · assumption
          · exact h.biosVersion.resolve_left ‹_›
    · obtain rfl | hf := List.mem_cons.mp hf
      · exact h.manufacturer
      · obtain rfl | hf := List.mem_cons.mp hf
        · exact h.productName
        · obtain rfl | hf := List.mem_cons.mp hf
          · exact h.serialNumber
          · exact List.mem_singleton.mp hf ▸ h.version
    · exact List.mem_singleton.mp hf ▸ h.manufacturer
    · obtain rfl | hf := List.mem_cons.mp hf
      · exact h.cpuVendor
      · exact List.mem_singleton.mp hf ▸ h.processorName

theorem tidy_table (c : Config) (elog : Elog) (devices : List Device) :
    (∀ w ∈ (table c elog devices).written, w.2.Tidy) ↔ c.Tidy ∧ ∀ d ∈ devices, d.Tidy c := by
  have hnone : ∀ w ∈ (⟨[], 0⟩ : Table).written, w.2.Tidy := fun w hw => nomatch hw
  have h32 : writeType32.Tidy := trivial
  have h127 : writeType127.Tidy := trivial
  unfold table
  rw [forall_put, tidy_devices, forall_put, tidy_elog, forall_foldl_put, tidy_config]
  exact ⟨fun h => ⟨h.1.1.1.2, h.1.2⟩, fun h => ⟨⟨⟨⟨hnone, h.1⟩, h32⟩, h.2⟩, h127⟩⟩

/-- Every handle but that of a log that was not written has its structure. -/
theorem handle_table (c : Config) (elog : Elog) (devices : List Device) :
    (elog ≠ .noMemory → (table c elog devices).handle = (table c elog devices).written.length) ∧
      (elog = .noMemory → (table c elog devices).handle = (table c elog devices).written.length + 1) := by
  have hput : ∀ {t : Table} {s k}, t.handle = t.written.length + k →
      (t.put s).handle = (t.put s).written.length + k := by
    intro t s k h
    show t.handle + 1 = (t.written ++ [(t.handle, s)]).length + k
    rw [List.length_append, List.length_singleton, h]
    omega
  have hputs : ∀ (ss : List Structure) {t : Table} {k}, t.handle = t.written.length + k →
      (ss.foldl Table.put t).handle = (ss.foldl Table.put t).written.length + k := by
    intro ss
    induction ss with
    | nil => exact fun h => h
    | cons s ss ih => exact fun h => ih (hput h)
  have hdevices : ∀ (ds : List Device) {t : Table} {k}, t.handle = t.written.length + k →
      (ds.foldl (Table.device c) t).handle = (ds.foldl (Table.device c) t).written.length + k := by
    intro ds
    induction ds with
    | nil => exact fun h => h
    | cons d ds ih => exact fun h => ih (hputs _ h)
  unfold table
  cases elog with
  | absent => exact ⟨fun _ => hput (hdevices devices (hput (k := 0) rfl)), fun h => (nomatch h)⟩
  | noMemory => exact ⟨fun h => absurd rfl h, fun _ => hput (hdevices devices (hput (k := 1) rfl))⟩
  | log totalSize address =>
    exact ⟨fun _ => hput (hdevices devices (hput (k := 0) (hput (k := 0) rfl))),
      fun h => (nomatch h)⟩

section Entry

variable {elog : Elog} {devices : List Device} {m : Nat → Byte} {start current : Nat}

theorem last_table (h : (table c elog devices).written.getLast? = some w) : w.2 = writeType127 := by
  have hlast : (table c elog devices).written.getLast? =
      some ((devices.foldl (Table.device c)
        (((([writeType0 c, writeType1 c, writeType3 c, writeType4 c].foldl
        Table.put ⟨[], 0⟩).elog elog).put writeType32))).handle,
          writeType127) := List.getLast?_concat
  rw [hlast] at h
  exact (Option.some.inj h) ▸ rfl

theorem tidy_of_readBack (hm : Has m start (table c elog devices).bytes)
    (h : ReadBack m (entryOf current (table c elog devices)) start (table c elog devices))
    (haddr : (entryOf current (table c elog devices)).structTableAddress = start) :
      Tidy c elog devices := by
  have hend : (entryOf current (table c elog devices)).structTableAddress +
      (entryOf current (table c elog devices)).structTableLength =
        start + (written (table c elog devices).written).length := by
    rw [haddr, h.length]
    rfl
  have hcomplete := complete_of_enumerates hm h.enumerated fun w hw => Or.inl (last_table hw ▸ rfl)
  have hstructures : ∀ p ∈ placed start (table c elog devices).written, p.2.Tidy := by
    intro p hp
    obtain ⟨body, rest, hloc⟩ := located_of_mem hm hp
    have hfields : ∀ f ∈ p.2.fieldStrings, f.2.1 ≠ [] :=
      fun f hf => hloc.nonempty hend hf (h.fields p hp f hf)
    unfold Structure.fieldStrings at hfields
    unfold Structure.Tidy
    cases hs : p.2.strings with
    | plain => trivial
    | fields fs =>
      rw [hs] at hfields
      exact hfields
    | oem strs => exact (hloc.oem_iff hs hend (forall_placed.mpr hcomplete p hp)).mp (h.oem p hp strs hs)
  obtain ⟨hconfig, hdevices⟩ := (tidy_table c elog devices).mp (forall_placed.mp hstructures)
  have hlength := h.length
  have hcount := h.count
  exact {
    config := hconfig
    supplied := hdevices
    log := by
      intro hlog
      have hlost : u16 ((table c elog devices).written.length + 1) = (table c elog
        devices).written.length := by
        rw [← (handle_table c elog devices).2 hlog]
        exact hcount
      unfold u16 at hlost
      omega
    size := by
      have hbytes : (table c elog devices).bytes.length = tableSize (table c elog devices) :=
        written_length _
      rw [← hbytes, ← hlength]
      exact Nat.mod_lt _ (by decide) }

theorem readBack_of_tidy (hm : Has m start (table c elog devices).bytes) (h : Tidy c elog devices)
    (haddr : (entryOf current (table c elog devices)).structTableAddress = start) :
    ReadBack m (entryOf current (table c elog devices)) start (table c elog devices) := by
  have hbytes : (table c elog devices).bytes.length = tableSize (table c elog devices) :=
    written_length _
  have hlength : (entryOf current (table c elog devices)).structTableLength = (table c elog
    devices).bytes.length :=
    u16_eq (hbytes ▸ h.size)
  have hend : (entryOf current (table c elog devices)).structTableAddress +
      (entryOf current (table c elog devices)).structTableLength =
        start + (written (table c elog devices).written).length := by
    rw [haddr, hlength]
    rfl
  have htidy := (tidy_table c elog devices).mpr ⟨h.config, h.supplied⟩
  have hcomplete : ∀ w ∈ (table c elog devices).written, Complete w.2 :=
    fun w hw => (htidy w hw).complete
  -- each structure takes five bytes at least, so that there are less than 64 K of them
  have hsmall : (table c elog devices).written.length < 2 ^ 16 := by
    refine Nat.lt_of_le_of_lt ?_ h.size
    have hone : ∀ w ∈ (table c elog devices).written, 1 ≤ w.2.size := by
      intro w _
      unfold Structure.size Structure.formatted
      omega
    have hsum := List.length_le_sum_of_one_le ((table c elog devices).written.map fun w => w.2.size) (by
      intro n hn
      obtain ⟨w, hw, rfl⟩ := List.mem_map.mp hn
      exact hone w hw)
    rw [List.length_map] at hsum
    exact hsum
  exact {
    enumerated := enumerates_of_complete hm hend hcomplete (by rw [smbiosNext_none, haddr])
    count := by
      rw [entryOf, (handle_table c elog devices).1 h.log]
      exact u16_eq hsmall
    length := hlength
    fields := by
      intro p hp f hf _
      obtain ⟨body, rest, hloc⟩ := located_of_mem hm hp
      exact hloc.denotes (forall_placed.mpr htidy p hp) hend hf
    oem := by
      intro p hp strs hs
      obtain ⟨body, rest, hloc⟩ := located_of_mem hm hp
      have hp' := forall_placed.mpr htidy p hp
      refine (hloc.oem_iff hs hend hp'.complete).mpr ?_
      rw [Structure.Tidy, hs] at hp'
      exact hp' }

end Entry

end Table

/-- The structures are read back from the memory that holds them, with their count, their
length, their string fields and the counts of OEM strings, exactly for tidy strings. -/
theorem read_back_iff (c : Config) (elog : Elog) (devices : List Device) (current : Nat)
    (m : Nat → Byte)
    (haddr : tablesAddress current < 2 ^ 32)
      (hm : Has m (tablesAddress current) (table c elog devices).bytes) :
    ReadBack m (entryOf current (table c elog devices)) (tablesAddress current) (table c elog devices) ↔
      Tidy c elog devices := by
  have hstart : (entryOf current (table c elog devices)).structTableAddress = tablesAddress current :=
    u32_eq haddr
  exact ⟨fun h => tidy_of_readBack hm h hstart, fun h => readBack_of_tidy hm h hstart⟩

/-- A board whose strings are all `A`, but for the manufacturer. -/
def boardOf (manufacturer : CString) : Config :=
  let a : CString := ⟨[0x41], by decide⟩
  { manufacturer, productName := a, mainboardVendor := a, serialNumber := a, version := a,
    dmiDate := a,
    localversion := a, corebootVersion := a, cpuVendor := a, processorName := a, romSize :=
      0x200000,
    cpuid1 := (0, 0x10000, 0), acpiTables := true }

/-- The bytes at an address and zeroes around them. -/
def memoryOf (start : Nat) (bytes : List Byte) : Nat → Byte := fun x => bytes.getD (x - start) 0

theorem has_memoryOf (start : Nat) (bytes : List Byte) :
    Has (memoryOf start bytes) start bytes := by
  intro i _
  rw [memoryOf, Nat.add_sub_cancel_left]

theorem read_back_iff_board :
    let t := table (boardOf ⟨[0x42], by decide⟩) .absent [.oemStrings [⟨[0x43], by decide⟩]]
    ReadBack (memoryOf (tablesAddress 0xf0000) t.bytes) (entryOf 0xf0000 t)
      (tablesAddress 0xf0000) t := by
  refine (read_back_iff _ _ _ 0xf0000 _ (by decide) (has_memoryOf _ _)).mpr ?_
  exact {
    config := ⟨by decide, Or.inl (by decide), by decide, by decide, by decide, by decide, by decide,
      by decide⟩
    supplied := fun d hd => List.mem_singleton.mp hd ▸ ⟨[0x43], by decide, by decide, by decide⟩
    log := fun h => nomatch h
    size := by decide }

/-- With an empty manufacturer the structure of type 32 is not found. -/
theorem not_read_back :
    ¬ ∀ (c : Config) (elog : Elog) (devices : List Device) (current : Nat) (m : Nat → Byte),
    tablesAddress current < 2 ^ 32 → Has m (tablesAddress current) (table c elog devices).bytes →
    ReadBack m (entryOf current (table c elog devices)) (tablesAddress current)
      (table c elog devices) := by
  intro h
  let t := table (boardOf ⟨[], by decide⟩) .absent []
  have hread := h (boardOf ⟨[], by decide⟩) .absent [] 0xf0000 (memoryOf (tablesAddress 0xf0000) t.bytes)
    (by decide) (has_memoryOf _ _)
  have htidy := tidy_of_readBack (has_memoryOf _ _) hread (by decide)
  exact htidy.config.manufacturer rfl

end ItxLlama.Coreboot.Smbios
