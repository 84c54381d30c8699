import ItxLlama.Seabios.BootPaths

/-!
# Boot priorities

The class of a device by its place in the machine, and what its priority is:
a device of a listed place matches entries of its own class and no others,
so the priorities follow the order of the classes. The floppy image is the
exception: the star of its entry is compared as a letter.
-/

namespace ItxLlama.Seabios.Boot

open ItxLlama.Llama (Byte)
open Lib.Glob

-- ---------------------------------------------------------------------------
-- Classes
-- ---------------------------------------------------------------------------

/-- The SD and SATA disks are the two channels of one controller; USB is the
listed ports of one controller. -/
def BootDevice.diskClass : BootDevice → Option DiskClass
  | .ata none _ _ => none
  | .ata (some pci) chanid slave =>
    if pci.slot = some (0xc, 0) ∧ slave = 0 then
      if chanid = 1 then some .sata else if chanid = 0 then some .sd else none
    else none
  | .usb usbdev _ =>
    if usbdev.hub.cntl.slot = some (0xa, 1) ∧ usbdev.hub.ports ++ [usbdev.port + 1] ∈ listedPorts
    then some .usb else none
  | .floppyImage _ => some .vfloppy

/-- The globs that the search tries, in turn. -/
def BootDevice.globs : BootDevice → List CString
  | .ata none _ _ => []
  | .ata (some pci) chanid slave => [desc (ataText pci chanid slave)]
  | .usb usbdev lun =>
    [ desc (usbText usbdev.hub.cntl usbdev.hub (storageTail (usbdev.port + 1) lun)),
      desc (usbText usbdev.hub.cntl usbdev.hub (usbTail (usbdev.port + 1))) ]
  | .floppyImage image => [desc (floppyText image)]

/-- Every device but a floppy image whose entry does not match its name. -/
def BootDevice.Listed : BootDevice → Prop
  | .floppyImage image => image.Stars
  | _ => True

theorem BootDevice.matches_class {d : BootDevice} (hg : g ∈ d.globs) (hk : Entry k e)
    (hm : Matches g e) : d.diskClass = some k := by
  cases d with
  | ata pci chanid slave =>
    cases pci with
    | none => cases hg
    | some pci =>
      rw [List.mem_singleton.mp hg, ata_matches hk] at hm
      obtain ⟨hslot, hslave, hkind⟩ := hm
      rcases hkind with ⟨rfl, rfl⟩ | ⟨rfl, rfl⟩ <;> simp [BootDevice.diskClass, hslot, hslave]
  | usb usbdev lun =>
    have hm : k = .usb ∧ usbdev.hub.cntl.slot = some (0xa, 1) ∧
        usbdev.hub.ports ++ [usbdev.port + 1] ∈ listedPorts := by
      rcases List.mem_pair.mp hg with rfl | rfl
      · exact usb_matches (.storage lun) hk hm
      · exact usb_matches .usb hk hm
    obtain ⟨rfl, hslot, hlisted⟩ := hm
    exact if_pos ⟨hslot, hlisted⟩
  | floppyImage image =>
    rw [List.mem_singleton.mp hg, floppy_matches hk] at hm
    exact congrArg some hm.1.symm

theorem BootDevice.class_matches {d : BootDevice} (hc : d.diskClass = some k) (hl : d.Listed) :
    ∃ g ∈ d.globs, ∃ e ∈ k.entries, Matches g e := by
  cases d with
  | ata pci chanid slave =>
    cases pci with
    | none => cases hc
    | some pci =>
      simp only [BootDevice.diskClass] at hc
      split at hc
      · obtain ⟨hslot, hslave⟩ := ‹_ ∧ _›
        refine ⟨_, List.mem_singleton_self _, ?_⟩
        split at hc
        · cases hc
          exact ⟨ataEntry 1, by simp [DiskClass.entries],
            (ata_matches .sata).mpr ⟨hslot, hslave, .inl ⟨rfl, by assumption⟩⟩⟩
        split at hc
        · cases hc
          exact ⟨ataEntry 0, by simp [DiskClass.entries],
            (ata_matches .sd).mpr ⟨hslot, hslave, .inr ⟨rfl, by assumption⟩⟩⟩
        · cases hc
      · cases hc
  | usb usbdev lun =>
    simp only [BootDevice.diskClass] at hc
    split at hc
    · cases hc
      obtain ⟨hslot, hlisted⟩ := ‹_ ∧ _›
      exact ⟨_, List.mem_cons_of_mem _ (List.mem_singleton_self _),
        usb_listed_matches hslot hlisted⟩
    · cases hc
  | floppyImage image =>
    cases hc
    exact ⟨_, List.mem_singleton_self _, _, List.mem_singleton_self _,
      (floppy_matches .vfloppy).mpr ⟨rfl, hl⟩⟩

theorem BootDevice.not_matches_nil {d : BootDevice} (hg : g ∈ d.globs) : ¬ Matches g [] := by
  have hslash (rest : CString) : ¬ Matches (desc ('/' :: rest)) [] := by
    rw [← List.singleton_append, desc_append (by decide)]
    exact not_matches (matchPrefix_cons_nil (by decide) _)
  have hpci (devname : CString) (pci : PciDevice) :
      ∃ rest, pciPathText devname pci = '/' :: rest := by
    have hroot : cstr "/pci-root@" = '/' :: cstr "pci-root@" := by simp [cstr_eq]
    have hbridge : cstr "/pci@i0cf8/pci-bridge@" = '/' :: cstr "pci@i0cf8/pci-bridge@" := by
      simp [cstr_eq]
    rcases pciPathText_cases devname pci with ⟨rest, h⟩ | ⟨rest, h⟩ | ⟨bdf, rfl⟩
    · exact ⟨_, by rw [h, hroot]; rfl⟩
    · exact ⟨_, by rw [h, hbridge]; rfl⟩
    · refine ⟨cstr "pci@i0cf8" ++ nodeText devname bdf, ?_⟩
      unfold pciPathText fwPciDomain
      simp [cstr_eq]
  cases d with
  | ata pci chanid slave =>
    cases pci with
    | none => cases hg
    | some pci =>
      obtain ⟨rest, hrest⟩ := hpci ['*'] pci
      rw [List.mem_singleton.mp hg, ataText, hrest]
      exact hslash _
  | usb usbdev lun =>
    obtain ⟨rest, hrest⟩ := hpci (cstr "usb") usbdev.hub.cntl
    rcases List.mem_pair.mp hg with rfl | rfl <;> rw [usbText, hrest] <;> exact hslash _
  | floppyImage image =>
    have hrom : cstr "/rom@" = '/' :: cstr "rom@" := by simp [cstr_eq]
    rw [List.mem_singleton.mp hg, floppyText, hrom]
    exact hslash _

-- ---------------------------------------------------------------------------
-- Searching
-- ---------------------------------------------------------------------------

def BootOrder.ofEntries (entries : List CString) : BootOrder := ⟨entries.map some, entries.length⟩

theorem findPrio_cases (entries : List CString) (g : CString) :
    (findPrio (.ofEntries entries) g = -1 ∧ ∀ e ∈ entries, ¬ Matches g e) ∨
    ∃ (i : Nat) (e : CString), findPrio (.ofEntries entries) g = i + 1 ∧ entries[i]? = some e ∧
      Matches g e := by
  have hentry (i : Nat) (e : CString) (he : entries[i]? = some e) :
      (BootOrder.ofEntries entries).entryMatches g i = (globPrefix g e).isSome := by
    simp [BootOrder.entryMatches, BootOrder.ofEntries, he]
  unfold findPrio
  cases hfind : (List.range (BootOrder.ofEntries entries).bootorderCount).find?
      ((BootOrder.ofEntries entries).entryMatches g) with
  | none =>
    refine .inl ⟨rfl, fun e he hm => ?_⟩
    obtain ⟨i, hi⟩ := List.mem_iff_getElem?.mp he
    obtain ⟨hlt, -⟩ := List.getElem?_eq_some_iff.mp hi
    have := List.find?_eq_none.mp hfind i (List.mem_range.mpr hlt)
    rw [hentry i e hi] at this
    exact this hm
  | some i =>
    have hlt : i < entries.length := List.mem_range.mp (List.mem_of_find?_eq_some hfind)
    have hget := List.getElem?_eq_getElem hlt
    have hmatch := List.find?_some hfind
    rw [hentry i _ hget] at hmatch
    exact .inr ⟨i, entries[i], rfl, hget, hmatch⟩

/-- The search of a device: no glob matches, or one of them matches the entry
at the index of the priority. -/
theorem BootDevice.prio_cases (entries : List CString) (d : BootDevice) :
    (d.prio (.ofEntries entries) = -1 ∧ ∀ g ∈ d.globs, ∀ e ∈ entries, ¬ Matches g e) ∨
    ∃ (i : Nat) (e : CString) (g : CString), d.prio (.ofEntries entries) = i + 1 ∧
      entries[i]? = some e ∧ g ∈ d.globs ∧ Matches g e := by
  cases d with
  | ata pci chanid slave =>
    cases pci with
    | none => exact .inl ⟨rfl, nofun⟩
    | some pci =>
      have hprio : BootDevice.prio (.ofEntries entries) (.ata (some pci) chanid slave) =
          findPrio (.ofEntries entries) (desc (ataText pci chanid slave)) := by
        simp only [BootDevice.prio, bootprioFindAtaDevice, buildPciPath_text, snprintf_snprintf]
        simp [desc, ataText, ataTail, cstr_eq]
      rw [hprio]
      rcases findPrio_cases entries (desc (ataText pci chanid slave)) with
        ⟨h, hnone⟩ | ⟨i, e, h, he, hm⟩
      · exact .inl ⟨h, fun g hg => List.mem_singleton.mp hg ▸ hnone⟩
      · exact .inr ⟨i, e, _, h, he, List.mem_singleton_self _, hm⟩
  | usb usbdev lun =>
    let storage := desc (usbText usbdev.hub.cntl usbdev.hub (storageTail (usbdev.port + 1) lun))
    let usb := desc (usbText usbdev.hub.cntl usbdev.hub (usbTail (usbdev.port + 1)))
    have hprio : BootDevice.prio (.ofEntries entries) (.usb usbdev lun) =
        if findPrio (.ofEntries entries) storage ≥ 0 then findPrio (.ofEntries entries) storage
        else findPrio (.ofEntries entries) usb := by
      simp only [BootDevice.prio, bootprioFindUsb, buildPciPath_text, buildUsbPath_text,
        snprintf_snprintf]
      simp [storage, usb, desc, usbText, storageTail, usbTail, cstr_eq]
    rw [hprio]
    have hstorage : storage ∈ (BootDevice.usb usbdev lun).globs := List.mem_cons_self
    have husb : usb ∈ (BootDevice.usb usbdev lun).globs :=
      List.mem_cons_of_mem _ (List.mem_singleton_self _)
    rcases findPrio_cases entries storage with ⟨h, hnone⟩ | ⟨i, e, h, he, hm⟩
    · rw [h, if_neg (by decide)]
      rcases findPrio_cases entries usb with ⟨h', hnone'⟩ | ⟨i, e, h', he, hm⟩
      · refine .inl ⟨h', fun g hg => ?_⟩
        rcases List.mem_pair.mp hg with rfl | rfl
        · exact hnone
        · exact hnone'
      · exact .inr ⟨i, e, usb, h', he, husb, hm⟩
    · rw [h, if_pos (by omega)]
      exact .inr ⟨i, e, storage, rfl, he, hstorage, hm⟩
  | floppyImage image =>
    have hprio : BootDevice.prio (.ofEntries entries) (.floppyImage image) =
        findPrio (.ofEntries entries) (desc (floppyText image)) := by
      simp [BootDevice.prio, bootprioFindNamedRom, desc, floppyText]
    rw [hprio]
    rcases findPrio_cases entries (desc (floppyText image)) with ⟨h, hnone⟩ | ⟨i, e, h, he, hm⟩
    · exact .inl ⟨h, fun g hg => List.mem_singleton.mp hg ▸ hnone⟩
    · exact .inr ⟨i, e, _, h, he, List.mem_singleton_self _, hm⟩

-- ---------------------------------------------------------------------------
-- The order of the classes
-- ---------------------------------------------------------------------------

def Precedes (order : List DiskClass) (k₁ k₂ : DiskClass) : Prop := [k₁, k₂].Sublist order

instance : Decidable (Precedes order k₁ k₂) := inferInstanceAs (Decidable (List.Sublist _ _))

theorem bootOrders_complete (h : order ∈ bootOrders) : order.Nodup ∧ ∀ k, k ∈ order := by
  have hall : ∀ order ∈ bootOrders,
      order.Nodup ∧ .sata ∈ order ∧ .sd ∈ order ∧ .usb ∈ order ∧ .vfloppy ∈ order := by decide
  obtain ⟨hnodup, hsata, hsd, husb, hvfloppy⟩ := hall order h
  exact ⟨hnodup, fun k => by cases k <;> assumption⟩

def orderArray (order : List DiskClass) : BootOrder := .ofEntries (orderEntries order ++ [[]])

theorem Precedes.split (h : Precedes order k₁ k₂) (hnodup : order.Nodup) :
    ∃ r₁ r₂, order = r₁ ++ r₂ ∧ k₁ ∈ order ∧ k₂ ∈ order ∧ k₁ ∉ r₂ ∧ k₂ ∉ r₁ := by
  obtain ⟨r₁, r₂, rfl, hk₁, hk₂⟩ := List.cons_sublist_iff.mp h
  have hk₂ := List.singleton_sublist.mp hk₂
  obtain ⟨-, -, hdisjoint⟩ := List.nodup_append.mp hnodup
  exact ⟨r₁, r₂, rfl, List.mem_append_left _ hk₁, List.mem_append_right _ hk₂,
    fun h => hdisjoint k₁ hk₁ k₁ h rfl, fun h => hdisjoint k₂ h k₂ hk₂ rfl⟩

theorem BootDevice.prio_class {d : BootDevice} (hc : d.diskClass = some k) (hl : d.Listed)
    (hk : k ∈ order) : ∃ i : Nat, d.prio (orderArray order) = i + 1 ∧
      ∀ r₁ r₂, order = r₁ ++ r₂ → (k ∉ r₂ → i < (orderEntries r₁).length) ∧
        (k ∉ r₁ → (orderEntries r₁).length ≤ i) := by
  rcases d.prio_cases (orderEntries order ++ [[]]) with ⟨-, hnone⟩ | ⟨i, e, g, hprio, he, hg, hm⟩
  · obtain ⟨g, hg, e, he, hm⟩ := BootDevice.class_matches hc hl
    have hmem : e ∈ orderEntries order := List.mem_flatMap.mpr ⟨k, hk, he⟩
    exact absurd hm (hnone g hg e (List.mem_append_left _ hmem))
  · have hclass (order' : List DiskClass) (h : e ∈ orderEntries order') : k ∈ order' := by
      obtain ⟨k', hk', he'⟩ := List.mem_flatMap.mp h
      have := BootDevice.matches_class hg (entry_of_mem he') hm
      exact Option.some.inj (hc.symm.trans this) ▸ hk'
    have hne : e ∉ [([] : CString)] := fun h => by
      rw [List.mem_singleton.mp h] at hm
      exact BootDevice.not_matches_nil hg hm
    refine ⟨i, hprio, ?_⟩
    rintro r₁ r₂ rfl
    have happend : orderEntries (r₁ ++ r₂) = orderEntries r₁ ++ orderEntries r₂ :=
      List.flatMap_append
    rw [happend, List.append_assoc] at he
    refine ⟨fun hk₂ => ?_, fun hk₁ => ?_⟩
    · by_contra hi
      rw [List.getElem?_append_right (Nat.le_of_not_lt hi)] at he
      rcases List.mem_append.mp (List.mem_of_getElem? he) with h | h
      · exact hk₂ (hclass r₂ h)
      · exact hne h
    · by_contra hi
      rw [List.getElem?_append_left (Nat.lt_of_not_le hi)] at he
      exact hk₁ (hclass r₁ (List.mem_of_getElem? he))

theorem BootDevice.prio_lt {d₁ d₂ : BootDevice} (hnodup : order.Nodup)
    (hc₁ : d₁.diskClass = some k₁) (hl₁ : d₁.Listed)
    (hc₂ : d₂.diskClass = some k₂) (hl₂ : d₂.Listed) (h : Precedes order k₁ k₂) :
    d₁.prio (orderArray order) < d₂.prio (orderArray order) := by
  obtain ⟨r₁, r₂, horder, hk₁, hk₂, hno₁, hno₂⟩ := h.split hnodup
  obtain ⟨i₁, hprio₁, hpart₁⟩ := BootDevice.prio_class hc₁ hl₁ hk₁
  obtain ⟨i₂, hprio₂, hpart₂⟩ := BootDevice.prio_class hc₂ hl₂ hk₂
  have hlt := (hpart₁ r₁ r₂ horder).1 hno₁
  have hle := (hpart₂ r₁ r₂ horder).2 hno₂
  omega

/-- A device of no class, and a floppy image that is not listed, match no
entry. -/
theorem BootDevice.prio_none {d : BootDevice} (h : d.diskClass = none ∨ ¬ d.Listed) :
    d.prio (orderArray order) = -1 := by
  rcases d.prio_cases (orderEntries order ++ [[]]) with ⟨hprio, -⟩ | ⟨i, e, g, -, he, hg, hm⟩
  · exact hprio
  · rcases List.mem_append.mp (List.mem_of_getElem? he) with he | he
    · obtain ⟨k, -, hk⟩ := List.mem_flatMap.mp he
      have hclass := BootDevice.matches_class hg (entry_of_mem hk) hm
      rcases h with h | h
      · cases h.symm.trans hclass
      · cases d with
        | floppyImage image =>
          rw [List.mem_singleton.mp hg] at hm
          exact absurd ((floppy_matches (entry_of_mem hk)).mp hm).2 h
        | ata => exact absurd trivial h
        | usb => exact absurd trivial h
    · rw [List.mem_singleton.mp he] at hm
      exact absurd hm (BootDevice.not_matches_nil hg)

-- ---------------------------------------------------------------------------
-- The setting
-- ---------------------------------------------------------------------------

/-- The priorities of some devices follow an order of the classes. -/
structure BootOrder.Honours (o : BootOrder) (order : List DiskClass) (devices : List BootDevice) :
    Prop where
  ordered : ∀ d₁ ∈ devices, ∀ d₂ ∈ devices, ∀ k₁ k₂, d₁.diskClass = some k₁ →
    d₂.diskClass = some k₂ → Precedes order k₁ k₂ → d₁.prio o < d₂.prio o
  unlisted : ∀ d ∈ devices, d.diskClass = none → d.prio o = -1
  unmatched : ∀ d ∈ devices, (∀ g ∈ d.globs, ∀ e, some e ∈ o.bootorder → ¬ Matches g e) →
    d.prio o = -1

theorem bootOrders_total (h : order ∈ bootOrders) {k₁ k₂ : DiskClass} (hne : k₁ ≠ k₂) :
    Precedes order k₁ k₂ ∨ Precedes order k₂ k₁ := by
  have hall : ∀ order ∈ bootOrders, ∀ k₁ ∈ order, ∀ k₂ ∈ order, k₁ ≠ k₂ →
      [k₁, k₂].Sublist order ∨ [k₂, k₁].Sublist order := by decide
  have hmem := (bootOrders_complete h).2
  exact hall order h k₁ (hmem k₁) k₂ (hmem k₂) hne

theorem bootOrders_vfloppy_last (h : order ∈ bootOrders) (hne : k ≠ .vfloppy) :
    Precedes order k .vfloppy := by
  have hall : ∀ order ∈ bootOrders, ∀ k ∈ order, k ≠ .vfloppy →
      [k, .vfloppy].Sublist order := by decide
  exact hall order h k ((bootOrders_complete h).2 k) hne

theorem BootDevice.prio_ge (entries : List CString) (d : BootDevice) :
    -1 ≤ d.prio (.ofEntries entries) := by
  rcases d.prio_cases entries with ⟨h, -⟩ | ⟨i, e, g, h, -⟩ <;> omega

/-- The array that is loaded, whichever allocations succeed behind that of
the text. -/
theorem loadBootOrder_entries (h : bootOrders[index.toNat]? = some order) (hf : heap.f) :
    loadBootOrder index heap = some
      (.ofEntries (if heap.bootorder then orderEntries order ++ [[]] else [])) := by
  obtain ⟨hi, -⟩ := List.getElem?_eq_some_iff.mp h
  obtain ⟨order', horder, hload⟩ := loadBootOrder_table hi hf
  cases Option.some.inj (h.symm.trans horder)
  rw [hload]
  cases heap.bootorder
  · rfl
  · simp [BootOrder.ofEntries]

theorem not_listed_iff {d : BootDevice} (h : ¬ d.Listed) : d.diskClass = some .vfloppy := by
  cases d with
  | floppyImage image => rfl
  | ata => exact absurd trivial h
  | usb => exact absurd trivial h

/-- A menu line orders the devices of its classes exactly when both
allocations succeed and each floppy image is named by stars; one class by
itself needs no order. -/
theorem boot_order_honoured_iff (h : bootOrders[index.toNat]? = some order)
    (heap : HeapAnswers) (devices : List BootDevice) :
    (∃ o, loadBootOrder index heap = some o ∧ o.Filled ∧ o.Honours order devices) ↔
      heap.f ∧ ∀ d₁ ∈ devices, ∀ d₂ ∈ devices, ∀ k₁ k₂, d₁.diskClass = some k₁ →
        d₂.diskClass = some k₂ → k₁ ≠ k₂ → heap.bootorder ∧ d₁.Listed ∧ d₂.Listed := by
  have horder := List.mem_of_getElem? h
  have hnodup := (bootOrders_complete horder).1
  constructor
  · rintro ⟨o, hload, -, hhon⟩
    have hf : heap.f := by
      by_contra hf
      rw [loadBootOrder, if_neg hf] at hload
      cases hload
    rw [loadBootOrder_entries h hf] at hload
    cases hload
    refine ⟨hf, fun d₁ hd₁ d₂ hd₂ k₁ k₂ hc₁ hc₂ hne => ?_⟩
    have harray : heap.bootorder := by
      by_contra harray
      have hnone (d : BootDevice) : d.prio (.ofEntries []) = -1 := by
        rcases d.prio_cases [] with ⟨h, -⟩ | ⟨i, e, g, -, he, -⟩
        · exact h
        · cases he
      simp only [harray] at hhon
      rcases bootOrders_total horder hne with hp | hp
      · have := hhon.ordered d₁ hd₁ d₂ hd₂ k₁ k₂ hc₁ hc₂ hp
        simp [hnone] at this
      · have := hhon.ordered d₂ hd₂ d₁ hd₁ k₂ k₁ hc₂ hc₁ hp
        simp [hnone] at this
    rw [if_pos harray] at hhon
    -- the last class comes behind no device if its own has no priority
    have hlisted {d d' : BootDevice} {k k' : DiskClass} (hd : d ∈ devices) (hd' : d' ∈ devices)
        (hc : d.diskClass = some k) (hc' : d'.diskClass = some k') (hne : k ≠ k') :
        d'.Listed := by
      by_contra hl
      cases Option.some.inj (hc'.symm.trans (not_listed_iff hl))
      have hlt := hhon.ordered d hd d' hd' k .vfloppy hc hc' (bootOrders_vfloppy_last horder hne)
      have hge := BootDevice.prio_ge (orderEntries order ++ [[]]) d
      have hnone : d'.prio (orderArray order) = -1 := BootDevice.prio_none (.inr hl)
      rw [orderArray] at hnone
      omega
    exact ⟨harray, hlisted hd₂ hd₁ hc₂ hc₁ (Ne.symm hne), hlisted hd₁ hd₂ hc₁ hc₂ hne⟩
  · rintro ⟨hf, hlisted⟩
    have hload := loadBootOrder_entries h hf
    refine ⟨_, hload, loadBootOrder_filled hload, ?_, ?_, ?_⟩
    · intro d₁ hd₁ d₂ hd₂ k₁ k₂ hc₁ hc₂ hp
      have hne : k₁ ≠ k₂ := by
        rintro rfl
        simpa using hnodup.sublist hp
      obtain ⟨harray, hl₁, hl₂⟩ := hlisted d₁ hd₁ d₂ hd₂ k₁ k₂ hc₁ hc₂ hne
      rw [if_pos harray]
      exact BootDevice.prio_lt hnodup hc₁ hl₁ hc₂ hl₂ hp
    · intro d hd hc
      cases heap.bootorder
      · rcases d.prio_cases [] with ⟨h, -⟩ | ⟨i, e, g, -, he, -⟩
        · exact h
        · cases he
      · exact (BootDevice.prio_none (.inl hc) : d.prio (orderArray order) = -1)
    · intro d hd hnone
      rcases d.prio_cases (if heap.bootorder then orderEntries order ++ [[]] else []) with
        ⟨h, -⟩ | ⟨i, e, g, -, he, hg, hm⟩
      · exact h
      · exact absurd hm (hnone g hg e (List.mem_map_of_mem (List.mem_of_getElem? he)))

def sataDisk : BootDevice := .ata (some (.root 0 0x60)) 1 0

def win98Image : FloppyImage where
  name := cstr "floppyimg/win98.img"
  fits := by simp [cstr_eq]
  found := by simp [cstr_eq]

theorem win98Image_not_stars : ¬ win98Image.Stars := by
  rintro ⟨-, h⟩
  have : 'w' ∈ win98Image.file := by simp [FloppyImage.file, win98Image, cstr_eq]
  exact absurd (h _ this) (by decide)

/-- One class by itself, with a disk and no image. -/
theorem boot_order_honoured_sata : ∃ o, loadBootOrder 0 ⟨true, true⟩ = some o ∧ o.Filled ∧
    o.Honours [.sata, .sd, .usb, .vfloppy] [sataDisk, .ata (some (.root 0 0x60)) 0 0] :=
  have hline : bootOrders[(0 : Byte).toNat]? = some [.sata, .sd, .usb, .vfloppy] := rfl
  (boot_order_honoured_iff hline ⟨true, true⟩ _).mpr ⟨rfl, fun d₁ hd₁ d₂ hd₂ _ _ _ _ _ => by
    rcases List.mem_pair.mp hd₁ with rfl | rfl <;> rcases List.mem_pair.mp hd₂ with rfl | rfl <;>
      exact ⟨rfl, trivial, trivial⟩⟩

/-- An image in flash has no priority behind a disk that has one. -/
theorem boot_order_not_honoured_win98 : ∃ o, loadBootOrder 0 ⟨true, true⟩ = some o ∧
    ¬ o.Honours [.sata, .sd, .usb, .vfloppy] [sataDisk, .floppyImage win98Image] := by
  have hline : bootOrders[(0 : Byte).toNat]? = some [.sata, .sd, .usb, .vfloppy] := rfl
  have hload := @loadBootOrder_entries _ _ ⟨true, true⟩ hline rfl
  refine ⟨_, hload, fun hhon => ?_⟩
  have hlt := hhon.ordered sataDisk (by simp) (.floppyImage win98Image) (by simp) .sata .vfloppy
    (by decide) rfl (by decide)
  have hge := BootDevice.prio_ge (orderEntries [.sata, .sd, .usb, .vfloppy] ++ [[]]) sataDisk
  have hnone : (BootDevice.floppyImage win98Image).prio
      (orderArray [.sata, .sd, .usb, .vfloppy]) = -1 :=
        BootDevice.prio_none (.inr win98Image_not_stars)
  rw [orderArray] at hnone
  simp only [if_true] at hlt
  omega

end ItxLlama.Seabios.Boot
