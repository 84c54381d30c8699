import ItxLlama.Seabios.BootLoad

/-!
# Which device paths match which entries

The text of a path as its parts, and the outcome of matching it against each
entry of the table: the parts up to the first difference decide, and a
number is a whole word of hex digits.
-/

namespace ItxLlama.Seabios.Boot

open ItxLlama.Llama (Byte)
open Lib.Glob

-- ---------------------------------------------------------------------------
-- Numbers
-- ---------------------------------------------------------------------------

def IsHex (c : Char) : Prop := c.isDigit ∨ ('a' ≤ c ∧ c ≤ 'f')

instance : DecidablePred IsHex := fun _ => inferInstanceAs (Decidable (_ ∨ _))

theorem digitChar_isHex : ∀ n < 16, IsHex n.digitChar := by decide

theorem digitChar_inj : ∀ n < 16, ∀ m < 16, n.digitChar = m.digitChar → n = m := by decide

theorem toDigits_isHex (n : Nat) : ∀ c ∈ Nat.toDigits 16 n, IsHex c := by
  induction n using Nat.strongRecOn with
  | ind n ih =>
    rw [Nat.toDigits_eq_if (by decide)]
    split
    · intro c hc
      rw [List.mem_singleton.mp hc]
      exact digitChar_isHex n (by assumption)
    · intro c hc
      rcases List.mem_append.mp hc with hc | hc
      · exact ih (n / 16) (by omega) c hc
      · rw [List.mem_singleton.mp hc]
        exact digitChar_isHex _ (Nat.mod_lt n (by decide))

theorem toDigits_inj (h : Nat.toDigits 16 n = Nat.toDigits 16 m) : n = m := by
  induction n using Nat.strongRecOn generalizing m with
  | ind n ih =>
    have hn := Nat.mod_lt n (show 16 > 0 by decide)
    have hm := Nat.mod_lt m (show 16 > 0 by decide)
    have hlast (k : Nat) : (Nat.toDigits 16 k).getLast? = some (k % 16).digitChar := by
      rw [Nat.toDigits_eq_if (by decide)]
      split
      · rw [Nat.mod_eq_of_lt (by assumption)]
        rfl
      · simp
    have hmod : n % 16 = m % 16 := by
      have := (hlast n).symm.trans ((congrArg List.getLast? h).trans (hlast m))
      exact digitChar_inj _ hn _ hm (Option.some.inj this)
    have hinit (k : Nat) : (Nat.toDigits 16 k).dropLast =
        if k < 16 then [] else Nat.toDigits 16 (k / 16) := by
      rw [Nat.toDigits_eq_if (by decide)]
      split <;> simp
    have hrest := (hinit n).symm.trans ((congrArg List.dropLast h).trans (hinit m))
    split at hrest <;> split at hrest
    · omega
    · exact absurd hrest.symm Nat.toDigits_ne_nil
    · exact absurd hrest Nat.toDigits_ne_nil
    · have := ih (n / 16) (by omega) hrest
      omega

theorem putprettyhex_isHex (val : BitVec 32) : ∀ c ∈ putprettyhex val, IsHex c :=
  toDigits_isHex val.toNat

theorem putprettyhex_inj (h : putprettyhex v = putprettyhex w) : v = w :=
  BitVec.eq_of_toNat_eq (toDigits_inj h)

theorem length_putprettyhex (val : BitVec 32) : (putprettyhex val).length ≤ 8 :=
  (Nat.length_toDigits_le_iff (by decide) (by decide)).mpr val.isLt

theorem length_putint (val : BitVec 32) : (putint val).length ≤ 11 := by
  have hlen (v : BitVec 32) : (Nat.toDigits 10 v.toNat).length ≤ 10 :=
    (Nat.length_toDigits_le_iff (by decide) (by decide)).mpr (by omega)
  unfold putint
  split
  · have := hlen (-val)
    rw [List.length_cons]
    omega
  · have := hlen val
    omega

-- ---------------------------------------------------------------------------
-- Texts
-- ---------------------------------------------------------------------------

theorem snprintf_snprintf (size : Nat) (p a b : CString) :
    snprintf size (snprintf size p a) b = snprintf size p (a ++ b) := by
  unfold snprintf
  rw [← List.append_assoc]
  rcases Nat.le_total (p ++ a).length (size - 1) with h | h
  · rw [List.take_of_length_le h]
  · have htake : size - 1 ≤ ((p ++ a).take (size - 1)).length := by
      rw [List.length_take]
      omega
    rw [List.take_append_of_le_length h, List.take_append_of_le_length htake,
      List.take_take, Nat.min_self]

def fnText (bdf : BitVec 16) : CString :=
  if pciBdfToFn bdf ≠ 0 then ',' :: putprettyhex (pciBdfToFn bdf) else []

def nodeText (devname : CString) (bdf : BitVec 16) : CString :=
  '/' :: devname ++ '@' :: putprettyhex (pciBdfToDev bdf) ++ fnText bdf

def pciPathText (devname : CString) : PciDevice → CString
  | .root rootbus bdf =>
    (if rootbus ≠ 0 then (cstr "/pci-root@") ++ putprettyhex (rootbus.setWidth 32) else []) ++
      fwPciDomain ++ nodeText devname bdf
  | .child parent bdf => pciPathText (cstr "pci-bridge") parent ++ nodeText devname bdf

theorem pciNode_text (p devname : CString) (bdf : BitVec 16) :
    pciNode p devname bdf = snprintf descSize p (nodeText devname bdf) := by
  unfold pciNode nodeText fnText
  dsimp only
  split
  · rw [snprintf_snprintf]
  · rw [List.append_nil]

theorem buildPciPath_text (devname : CString) (pci : PciDevice) :
    buildPciPath devname pci = snprintf descSize [] (pciPathText devname pci) := by
  induction pci generalizing devname with
  | root rootbus bdf =>
    unfold buildPciPath pciPathText
    rw [pciNode_text, snprintf_snprintf]
    split <;> simp [snprintf_snprintf]
  | child parent bdf ih =>
    rw [buildPciPath, pciPathText, pciNode_text, ih, snprintf_snprintf]

def hubPathText : UsbHub → CString
  | .root _ => []
  | .hub _ upstream port => hubPathText upstream ++ (cstr "/hub@" ++ putprettyhex (port + 1))

theorem buildUsbPath_text (p : CString) (hub : UsbHub) :
    buildUsbPath (snprintf descSize [] p) hub = snprintf descSize [] (p ++ hubPathText hub) := by
  induction hub with
  | root => simp [buildUsbPath, hubPathText]
  | hub _ upstream port ih =>
    rw [buildUsbPath, ih, snprintf_snprintf, hubPathText, List.append_assoc]

-- ---------------------------------------------------------------------------
-- Matching a path against an entry
-- ---------------------------------------------------------------------------

def Matches (glob entry : CString) : Prop := (globPrefix glob entry).isSome

theorem isSome_guard [Decidable p] {o : Option α} :
    (if p then o else none).isSome ↔ p ∧ o.isSome := by
  split <;> simp [*]

/-- The glob that a path text makes in its buffer. -/
def desc (text : CString) : CString := snprintf descSize [] text

theorem desc_of_fits (h : text.length < descSize) : desc text = text := by
  rw [desc, snprintf, List.nil_append, List.take_of_length_le (by omega)]

theorem desc_append (h : w.length < descSize) (rest : CString) :
    desc (w ++ rest) = w ++ rest.take (descSize - 1 - w.length) := by
  rw [desc, snprintf, List.nil_append, List.take_append, List.take_of_length_le (by omega)]

/-- The five shapes of an entry of the table. -/
inductive Entry : DiskClass → CString → Prop
  | sata : Entry .sata (ataEntry 1)
  | sd : Entry .sd (ataEntry 0)
  | storage (h : port = 1 ∨ port = 2) : Entry .usb (storageEntry port)
  | usb (h : port = 1 ∨ port = 2) : Entry .usb (usbEntry port)
  | hub (h : port = 1 ∨ port = 2 ∨ port = 3 ∨ port = 4) : Entry .usb (hubEntry port)
  | vfloppy : Entry .vfloppy (cstr "/rom@floppyimg/*")

theorem entry_of_mem (h : e ∈ DiskClass.entries k) : Entry k e := by
  cases k with
  | sata => exact List.mem_singleton.mp h ▸ .sata
  | sd => exact List.mem_singleton.mp h ▸ .sd
  | vfloppy => exact List.mem_singleton.mp h ▸ .vfloppy
  | usb =>
    simp only [DiskClass.entries, List.mem_cons, List.not_mem_nil, or_false] at h
    rcases h with rfl | rfl | rfl | rfl | rfl | rfl | rfl | rfl
    · exact .storage (.inl rfl)
    · exact .usb (.inl rfl)
    · exact .storage (.inr rfl)
    · exact .usb (.inr rfl)
    · exact .hub (.inl rfl)
    · exact .hub (.inr (.inl rfl))
    · exact .hub (.inr (.inr (.inl rfl)))
    · exact .hub (.inr (.inr (.inr rfl)))

/-- No entry of the table begins like this. -/
def Foreign (w : CString) : Prop :=
  ∀ k e, Entry k e → ∀ rest, globPrefix (w ++ rest) e = none

theorem foreign_pciRoot : Foreign (cstr "/pci-root@") := by
  intro k e he rest
  unfold globPrefix
  cases he with
  | sata | sd => unfold ataEntry; simp only [cstr_eq, String.reduceToList]; rfl
  | storage => unfold storageEntry; simp only [cstr_eq, String.reduceToList]; rfl
  | usb => unfold usbEntry; simp only [cstr_eq, String.reduceToList]; rfl
  | hub => unfold hubEntry; simp only [cstr_eq, String.reduceToList]; rfl
  | vfloppy => simp only [cstr_eq, String.reduceToList]; rfl

theorem foreign_pciBridge : Foreign (cstr "/pci@i0cf8/pci-bridge@") := by
  intro k e he rest
  unfold globPrefix
  cases he with
  | sata | sd => unfold ataEntry; simp only [cstr_eq, String.reduceToList]; rfl
  | storage => unfold storageEntry; simp only [cstr_eq, String.reduceToList]; rfl
  | usb => unfold usbEntry; simp only [cstr_eq, String.reduceToList]; rfl
  | hub => unfold hubEntry; simp only [cstr_eq, String.reduceToList]; rfl
  | vfloppy => simp only [cstr_eq, String.reduceToList]; rfl

/-- A device that is not directly on the first root bus has a foreign path. -/
theorem pciPathText_cases (devname : CString) (pci : PciDevice) :
    (∃ rest, pciPathText devname pci = cstr "/pci-root@" ++ rest) ∨
      (∃ rest, pciPathText devname pci = cstr "/pci@i0cf8/pci-bridge@" ++ rest) ∨
      ∃ bdf, pci = .root 0 bdf := by
  induction pci generalizing devname with
  | root rootbus bdf =>
    by_cases hroot : rootbus = 0
    · exact .inr (.inr ⟨bdf, hroot ▸ rfl⟩)
    · refine .inl ⟨putprettyhex (rootbus.setWidth 32) ++ (fwPciDomain ++ nodeText devname bdf), ?_⟩
      rw [pciPathText, if_pos hroot]
      simp only [List.append_assoc]
  | child parent bdf ih =>
    rcases ih (cstr "pci-bridge") with ⟨rest, h⟩ | ⟨rest, h⟩ | ⟨bdf', rfl⟩
    · exact .inl ⟨rest ++ nodeText devname bdf, by rw [pciPathText, h, List.append_assoc]⟩
    · exact .inr (.inl ⟨rest ++ nodeText devname bdf, by rw [pciPathText, h, List.append_assoc]⟩)
    · refine .inr (.inl ⟨putprettyhex (pciBdfToDev bdf') ++ fnText bdf' ++ nodeText devname bdf,
        ?_⟩)
      unfold pciPathText pciPathText fwPciDomain nodeText
      simp [cstr_eq]

-- ---------------------------------------------------------------------------
-- The node of the controller
-- ---------------------------------------------------------------------------

theorem star_not_hex : ¬ IsHex '*' := by decide
theorem slash_not_hex : ¬ IsHex '/' := by decide

theorem match_number (v : BitVec 32) {w : CString} (hw : ∀ c ∈ w, IsHex c) {glob str : CString}
    (hglob : Ends IsHex glob) (hstr : Ends IsHex str) (hstar : glob.head? ≠ some '*') :
    globPrefix (putprettyhex v ++ glob) (w ++ str) =
      if putprettyhex v = w then globPrefix glob str else none :=
  matchPrefix_words star_not_hex slash_not_hex hglob hstr hstar _ _ (putprettyhex_isHex v) hw

theorem match_fnText_slash (bdf : BitVec 16) (tail str : CString) :
    globPrefix (fnText bdf ++ '/' :: tail) ('/' :: str) =
      if pciBdfToFn bdf = 0 then globPrefix tail str else none := by
  unfold fnText globPrefix
  by_cases hfn : pciBdfToFn bdf = 0
  · rw [if_neg (not_not.mpr hfn), if_pos hfn]
    exact matchPrefix_cons (by decide) _ _
  · rw [if_pos hfn, if_neg hfn]
    exact matchPrefix_cons_ne (by decide) (by decide) _ _

theorem putprettyhex_ne (h : v ≠ w) : putprettyhex v ≠ putprettyhex w :=
  fun heq => h (putprettyhex_inj heq)

theorem match_fnText_one (bdf : BitVec 16) (tail str : CString) :
    globPrefix (fnText bdf ++ '/' :: tail) (',' :: '1' :: '/' :: str) =
      if pciBdfToFn bdf = 1 then globPrefix tail str else none := by
  unfold fnText
  by_cases hfn : pciBdfToFn bdf = 0
  · rw [if_neg (not_not.mpr hfn), hfn, if_neg (by decide)]
    exact matchPrefix_cons_ne (by decide) (by decide) _ _
  · rw [if_pos hfn, List.cons_append]
    refine (matchPrefix_cons (by decide) _ _).trans ?_
    have hword := match_number (pciBdfToFn bdf) (w := putprettyhex 1) (putprettyhex_isHex 1)
      (Ends.cons slash_not_hex tail) (Ends.cons slash_not_hex str) (by simp)
    refine hword.trans ?_
    by_cases hone : pciBdfToFn bdf = 1
    · rw [hone, if_pos rfl, if_pos rfl]
      exact matchPrefix_cons (by decide) _ _
    · rw [if_neg (putprettyhex_ne hone), if_neg hone]

theorem fnText_ends (bdf : BitVec 16) (tail : CString) :
    Ends IsHex (fnText bdf ++ '/' :: tail) ∧ (fnText bdf ++ '/' :: tail).head? ≠ some '*' := by
  unfold fnText
  split
  · exact ⟨Ends.cons (by decide) _, by simp⟩
  · exact ⟨Ends.cons slash_not_hex _, by simp⟩

def nodeAddress (bdf : BitVec 16) (tail : CString) : CString :=
  putprettyhex (pciBdfToDev bdf) ++ (fnText bdf ++ '/' :: tail)

theorem pciPathText_root (devname : CString) (bdf : BitVec 16) (tail : CString) :
    pciPathText devname (.root 0 bdf) ++ '/' :: tail =
      cstr "/pci@i0cf8/" ++ (devname ++ '@' :: nodeAddress bdf tail) := by
  unfold pciPathText nodeText fwPciDomain nodeAddress
  simp [cstr_eq]

theorem match_address_sata (bdf : BitVec 16) (tail str : CString) :
    globPrefix (nodeAddress bdf tail) ('c' :: '/' :: str) =
      if pciBdfToDev bdf = 0xc ∧ pciBdfToFn bdf = 0 then globPrefix tail str else none := by
  obtain ⟨hends, hstar⟩ := fnText_ends bdf tail
  refine (match_number (pciBdfToDev bdf) (putprettyhex_isHex 0xc) hends
    (Ends.cons slash_not_hex str) hstar).trans ?_
  by_cases hdev : pciBdfToDev bdf = 0xc
  · rw [hdev, if_pos rfl, match_fnText_slash]
    simp
  · rw [if_neg (putprettyhex_ne hdev), if_neg (fun h => hdev h.1)]

theorem match_address_usb (bdf : BitVec 16) (tail str : CString) :
    globPrefix (nodeAddress bdf tail) ('a' :: ',' :: '1' :: '/' :: str) =
      if pciBdfToDev bdf = 0xa ∧ pciBdfToFn bdf = 1 then globPrefix tail str else none := by
  obtain ⟨hends, hstar⟩ := fnText_ends bdf tail
  refine (match_number (pciBdfToDev bdf) (putprettyhex_isHex 0xa) hends
    (Ends.cons (by decide) ('1' :: '/' :: str)) hstar).trans ?_
  by_cases hdev : pciBdfToDev bdf = 0xa
  · rw [hdev, if_pos rfl, match_fnText_one]
    simp
  · rw [if_neg (putprettyhex_ne hdev), if_neg (fun h => hdev h.1)]

section
variable (bdf : BitVec 16) (tail str : CString)

theorem match_ata_sata :
    globPrefix (pciPathText ['*'] (.root 0 bdf) ++ '/' :: tail) (cstr "/pci@i0cf8/*@c/" ++ str) =
      if pciBdfToDev bdf = 0xc ∧ pciBdfToFn bdf = 0 then globPrefix tail str else none := by
  have hstr : cstr "/pci@i0cf8/*@c/" ++ str =
      cstr "/pci@i0cf8/" ++ (['*'] ++ '@' :: 'c' :: '/' :: str) := by simp [cstr_eq]
  rw [pciPathText_root, hstr, ← match_address_sata]
  refine (matchPrefix_append (by simp [cstr_eq]) _ _).trans ?_
  refine (matchPrefix_star (by simp) (by simp) _ _).trans ?_
  exact matchPrefix_cons (by decide) _ _

theorem match_ata_usb :
    globPrefix (pciPathText ['*'] (.root 0 bdf) ++ '/' :: tail)
        (cstr "/pci@i0cf8/usb@a,1/" ++ str) =
      if pciBdfToDev bdf = 0xa ∧ pciBdfToFn bdf = 1 then globPrefix tail str else none := by
  have hstr : cstr "/pci@i0cf8/usb@a,1/" ++ str =
      cstr "/pci@i0cf8/" ++ (cstr "usb" ++ '@' :: 'a' :: ',' :: '1' :: '/' :: str) := by simp [cstr_eq]
  rw [pciPathText_root, hstr, ← match_address_usb]
  refine (matchPrefix_append (by simp [cstr_eq]) _ _).trans ?_
  refine (matchPrefix_star (by simp [cstr_eq]) (by simp [cstr_eq]) _ _).trans ?_
  exact matchPrefix_cons (by decide) _ _

theorem match_usb_sata :
    globPrefix (pciPathText (cstr "usb") (.root 0 bdf) ++ '/' :: tail)
      (cstr "/pci@i0cf8/*@c/" ++ str) = none := by
  have hstr : cstr "/pci@i0cf8/*@c/" ++ str = cstr "/pci@i0cf8/" ++ ('*' :: cstr "@c/" ++ str) := by
    simp [cstr_eq]
  have husb : cstr "usb" = 'u' :: cstr "sb" := by simp [cstr_eq]
  rw [pciPathText_root, hstr, husb]
  refine (matchPrefix_append (by simp [cstr_eq]) _ _).trans ?_
  exact matchPrefix_cons_ne (by decide) (by decide) _ _

theorem match_usb_usb :
    globPrefix (pciPathText (cstr "usb") (.root 0 bdf) ++ '/' :: tail)
        (cstr "/pci@i0cf8/usb@a,1/" ++ str) =
      if pciBdfToDev bdf = 0xa ∧ pciBdfToFn bdf = 1 then globPrefix tail str else none := by
  have hstr : cstr "/pci@i0cf8/usb@a,1/" ++ str =
      cstr "/pci@i0cf8/" ++ (cstr "usb" ++ '@' :: 'a' :: ',' :: '1' :: '/' :: str) := by simp [cstr_eq]
  rw [pciPathText_root, hstr, ← match_address_usb]
  refine (matchPrefix_append (by simp [cstr_eq]) _ _).trans ?_
  refine (matchPrefix_append (by simp [cstr_eq]) _ _).trans ?_
  exact matchPrefix_cons (by decide) _ _

end

-- ---------------------------------------------------------------------------
-- ATA devices
-- ---------------------------------------------------------------------------

def ataTail (chanid slave : BitVec 32) : CString :=
  cstr "drive@" ++ (putprettyhex chanid ++ cstr "/disk@" ++ putprettyhex slave)

theorem match_ataTail (chanid slave k : BitVec 32) :
    globPrefix (ataTail chanid slave) (cstr "drive@" ++ (putprettyhex k ++ cstr "/disk@0")) =
      if chanid = k ∧ slave = 0 then some [] else none := by
  have hglob : putprettyhex chanid ++ cstr "/disk@" ++ putprettyhex slave =
      putprettyhex chanid ++ (cstr "/disk@" ++ (putprettyhex slave ++ [])) := by simp
  have hstr : cstr "/disk@0" = cstr "/disk@" ++ (putprettyhex 0 ++ []) := by
    simp [cstr_eq, putprettyhex_zero]
  rw [ataTail, hglob, hstr]
  refine (matchPrefix_append (by simp [cstr_eq]) _ _).trans ?_
  refine (match_number chanid (putprettyhex_isHex k) ?_ ?_ ?_).trans ?_
  · simp only [cstr_eq, String.reduceToList]
    exact Ends.cons slash_not_hex _
  · simp only [cstr_eq, String.reduceToList]
    exact Ends.cons slash_not_hex _
  · simp [cstr_eq]
  by_cases hchan : chanid = k
  · rw [hchan, if_pos rfl]
    refine (matchPrefix_append (by simp [cstr_eq]) _ _).trans ?_
    refine (match_number slave (putprettyhex_isHex 0) Ends.nil Ends.nil (by simp)).trans ?_
    by_cases hslave : slave = 0
    · rw [hslave, if_pos rfl, if_pos ⟨rfl, rfl⟩]
      rfl
    · rw [if_neg (putprettyhex_ne hslave), if_neg (fun h => hslave h.2)]
  · rw [if_neg (putprettyhex_ne hchan), if_neg (fun h => hchan h.1)]

def ataText (pci : PciDevice) (chanid slave : BitVec 32) : CString :=
  pciPathText ['*'] pci ++ '/' :: ataTail chanid slave

/-- The slot of a device on the first root bus. -/
def PciDevice.slot : PciDevice → Option (BitVec 32 × BitVec 32)
  | .root rootbus bdf =>
    if rootbus = 0 then some (pciBdfToDev bdf, pciBdfToFn bdf) else none
  | .child _ _ => none

theorem length_nodeText (devname : CString) (bdf : BitVec 16) :
    (nodeText devname bdf).length ≤ devname.length + 19 := by
  have := length_putprettyhex (pciBdfToDev bdf)
  have := length_putprettyhex (pciBdfToFn bdf)
  unfold nodeText fnText
  split <;> simp <;> omega

theorem length_pciPathText_root (devname : CString) (bdf : BitVec 16) :
    (pciPathText devname (.root 0 bdf)).length ≤ devname.length + 29 := by
  have := length_nodeText devname bdf
  have : fwPciDomain.length = 10 := by simp [fwPciDomain, cstr_eq]
  simp only [pciPathText, ne_eq, not_true_eq_false, if_false, List.nil_append, List.length_append]
  omega

theorem Foreign.desc (h : Foreign w) (hw : w.length < descSize) (hk : Entry k e)
    (rest : CString) : globPrefix (desc (w ++ rest)) e = none := by
  rw [desc_append hw]
  exact h k e hk _

theorem matches_root (hk : Entry k e) (h : Matches (desc (pciPathText devname pci ++ tail)) e) :
    ∃ bdf, pci = .root 0 bdf := by
  rcases pciPathText_cases devname pci with ⟨rest, hr⟩ | ⟨rest, hr⟩ | hroot
  · rw [Matches, hr, List.append_assoc, foreign_pciRoot.desc (by simp [cstr_eq, descSize]) hk] at h
    cases h
  · rw [Matches, hr, List.append_assoc,
      foreign_pciBridge.desc (by simp [cstr_eq, descSize]) hk] at h
    cases h
  · exact hroot

theorem PciDevice.slot_eq_some {pci : PciDevice} :
    pci.slot = some (dev, fn) ↔
      ∃ bdf, pci = .root 0 bdf ∧ pciBdfToDev bdf = dev ∧ pciBdfToFn bdf = fn := by
  cases pci with
  | root rootbus bdf =>
    by_cases h : rootbus = 0 <;> simp [PciDevice.slot, h]
  | child parent bdf => simp [PciDevice.slot]

theorem ataEntry_eq (chanid : BitVec 32) : ataEntry chanid =
    cstr "/pci@i0cf8/*@c/" ++ (cstr "drive@" ++ (putprettyhex chanid ++ cstr "/disk@0")) := by
  unfold ataEntry
  simp [cstr_eq]

def storageRest (port : BitVec 32) : CString :=
  cstr "storage@" ++ (putprettyhex port ++ cstr "/*@0/*@0,0")

def usbRest (port : BitVec 32) : CString := cstr "usb-*@" ++ putprettyhex port

def hubRest (port : BitVec 32) : CString := cstr "hub@1/" ++ usbRest port

theorem storageEntry_eq (port : BitVec 32) :
    storageEntry port = cstr "/pci@i0cf8/usb@a,1/" ++ storageRest port := by
  unfold storageEntry storageRest
  simp [cstr_eq]

theorem usbEntry_eq (port : BitVec 32) :
    usbEntry port = cstr "/pci@i0cf8/usb@a,1/" ++ usbRest port := by
  unfold usbEntry usbRest
  simp [cstr_eq]

theorem hubEntry_eq (port : BitVec 32) :
    hubEntry port = cstr "/pci@i0cf8/usb@a,1/" ++ hubRest port := by
  unfold hubEntry hubRest usbRest
  simp [cstr_eq]

/-- What follows the controller in an entry of the USB class. -/
inductive Rest : CString → Prop
  | storage (h : port = 1 ∨ port = 2) : Rest (storageRest port)
  | usb (h : port = 1 ∨ port = 2) : Rest (usbRest port)
  | hub (h : port = 1 ∨ port = 2 ∨ port = 3 ∨ port = 4) : Rest (hubRest port)

theorem entry_cases (h : Entry k e) :
    (∃ chanid, e = ataEntry chanid ∧ (k = .sata ∧ chanid = 1 ∨ k = .sd ∧ chanid = 0)) ∨
    (∃ rest, k = .usb ∧ e = cstr "/pci@i0cf8/usb@a,1/" ++ rest ∧ Rest rest) ∨
    k = .vfloppy ∧ e = cstr "/rom@floppyimg/*" := by
  cases h with
  | sata => exact .inl ⟨1, rfl, .inl ⟨rfl, rfl⟩⟩
  | sd => exact .inl ⟨0, rfl, .inr ⟨rfl, rfl⟩⟩
  | storage h => exact .inr (.inl ⟨_, rfl, storageEntry_eq _, .storage h⟩)
  | usb h => exact .inr (.inl ⟨_, rfl, usbEntry_eq _, .usb h⟩)
  | hub h => exact .inr (.inl ⟨_, rfl, hubEntry_eq _, .hub h⟩)
  | vfloppy => exact .inr (.inr ⟨rfl, rfl⟩)

theorem pciPath_not_rom (devname : CString) (bdf : BitVec 16) (tail : CString) :
    globPrefix (pciPathText devname (.root 0 bdf) ++ '/' :: tail) (cstr "/rom@floppyimg/*") = none := by
  rw [pciPathText_root]
  simp only [cstr_eq, String.reduceToList]
  rfl

theorem match_ataTail_rest (chanid slave : BitVec 32) (h : Rest rest) :
    globPrefix (ataTail chanid slave) rest = none := by
  unfold ataTail
  cases h with
  | storage => unfold storageRest; simp only [cstr_eq, String.reduceToList]; rfl
  | usb => unfold usbRest; simp only [cstr_eq, String.reduceToList]; rfl
  | hub => unfold hubRest; simp only [cstr_eq, String.reduceToList]; rfl

theorem length_ataText (bdf : BitVec 16) (chanid slave : BitVec 32) :
    (ataText (.root 0 bdf) chanid slave).length < descSize := by
  have := length_pciPathText_root ['*'] bdf
  have := length_putprettyhex chanid
  have := length_putprettyhex slave
  simp [ataText, ataTail, descSize, cstr_eq] at *
  omega

theorem ata_matches (hk : Entry k e) :
    Matches (desc (ataText pci chanid slave)) e ↔
      pci.slot = some (0xc, 0) ∧ slave = 0 ∧
        (k = .sata ∧ chanid = 1 ∨ k = .sd ∧ chanid = 0) := by
  by_cases hroot : ∃ bdf, pci = .root 0 bdf
  · obtain ⟨bdf, rfl⟩ := hroot
    rw [Matches, desc_of_fits (length_ataText bdf chanid slave), ataText, PciDevice.slot]
    rcases entry_cases hk with ⟨v, rfl, hv⟩ | ⟨rest, rfl, rfl, hrest⟩ | ⟨rfl, rfl⟩
    · rw [ataEntry_eq, match_ata_sata, match_ataTail, isSome_guard, isSome_guard]
      rcases hv with ⟨rfl, rfl⟩ | ⟨rfl, rfl⟩ <;> simp [and_comm]
    · rw [match_ata_usb, match_ataTail_rest _ _ hrest]
      simp
    · rw [pciPath_not_rom]
      simp
  · refine iff_of_false (fun h => hroot (matches_root hk h)) fun h => hroot ?_
    obtain ⟨bdf, hbdf, -⟩ := PciDevice.slot_eq_some.mp h.1
    exact ⟨bdf, hbdf⟩

-- ---------------------------------------------------------------------------
-- USB devices
-- ---------------------------------------------------------------------------

def storageTail (port lun : BitVec 32) : CString :=
  cstr "storage@" ++ (putprettyhex port ++ cstr "/*@0/*@0," ++ putint lun)

def usbTail (port : BitVec 32) : CString := cstr "usb-*@" ++ putprettyhex port

def hubTail (port : BitVec 32) (tail : CString) : CString :=
  cstr "hub@" ++ (putprettyhex port ++ '/' :: tail)

theorem match_storage_storage (hm : Matches (storageTail port lun) (storageRest v)) : port = v := by
  have hglob : putprettyhex port ++ cstr "/*@0/*@0," ++ putint lun =
      putprettyhex port ++ ('/' :: (cstr "*@0/*@0," ++ putint lun)) := by simp [cstr_eq]
  have hstr : cstr "/*@0/*@0,0" = '/' :: cstr "*@0/*@0,0" := by simp [cstr_eq]
  rw [Matches, storageTail, storageRest, hglob, hstr, globPrefix,
    matchPrefix_append (by simp [cstr_eq])] at hm
  have hword := match_number port (putprettyhex_isHex v)
    (Ends.cons slash_not_hex (cstr "*@0/*@0," ++ putint lun))
    (Ends.cons slash_not_hex (cstr "*@0/*@0,0")) (by simp)
  rw [globPrefix] at hword
  rw [hword, isSome_guard] at hm
  exact putprettyhex_inj hm.1

theorem match_usb_usbRest (port v : BitVec 32) :
    globPrefix (usbTail port) (usbRest v) = if port = v then some [] else none := by
  have hglob : cstr "usb-*@" ++ putprettyhex port =
      cstr "usb-" ++ ('*' :: '@' :: (putprettyhex port ++ [])) := by simp [cstr_eq]
  have hstr : cstr "usb-*@" ++ putprettyhex v =
      cstr "usb-" ++ (['*'] ++ '@' :: (putprettyhex v ++ [])) := by simp [cstr_eq]
  rw [usbTail, usbRest, hglob, hstr]
  refine (matchPrefix_append (by simp [cstr_eq]) _ _).trans ?_
  refine (matchPrefix_star (by simp) (by simp) _ _).trans ?_
  refine (matchPrefix_cons (by decide) _ _).trans ?_
  refine (match_number port (putprettyhex_isHex v) Ends.nil Ends.nil (by simp)).trans ?_
  by_cases hport : port = v
  · rw [if_pos hport, if_pos (congrArg _ hport)]
    rfl
  · rw [if_neg hport, if_neg (putprettyhex_ne hport)]

theorem match_hub_hub (port v : BitVec 32) (tail : CString) :
    globPrefix (hubTail port tail) (hubRest v) =
      if port = 1 then globPrefix tail (usbRest v) else none := by
  have hstr : cstr "hub@1/" ++ usbRest v = cstr "hub@" ++ (putprettyhex 1 ++ '/' :: usbRest v) := by
    simp [cstr_eq, putprettyhex_one]
  rw [hubTail, hubRest, hstr]
  refine (matchPrefix_append (by simp [cstr_eq]) _ _).trans ?_
  refine (match_number port (putprettyhex_isHex 1) (Ends.cons slash_not_hex _)
    (Ends.cons slash_not_hex _) (by simp)).trans ?_
  by_cases hport : port = 1
  · rw [if_pos hport, if_pos (congrArg _ hport)]
    exact matchPrefix_cons (by decide) _ _
  · rw [if_neg hport, if_neg (putprettyhex_ne hport)]

section
variable (port lun v : BitVec 32) (tail : CString)

theorem match_storage_usb : globPrefix (storageTail port lun) (usbRest v) = none := by
  unfold storageTail usbRest
  simp only [cstr_eq, String.reduceToList]
  rfl

theorem match_storage_hub : globPrefix (storageTail port lun) (hubRest v) = none := by
  unfold storageTail hubRest
  simp only [cstr_eq, String.reduceToList]
  rfl

theorem match_usb_storage : globPrefix (usbTail port) (storageRest v) = none := by
  unfold usbTail storageRest
  simp only [cstr_eq, String.reduceToList]
  rfl

theorem match_usb_hub : globPrefix (usbTail port) (hubRest v) = none := by
  unfold usbTail hubRest
  simp only [cstr_eq, String.reduceToList]
  rfl

theorem match_hub_storage : globPrefix (hubTail port tail) (storageRest v) = none := by
  unfold hubTail storageRest
  simp only [cstr_eq, String.reduceToList]
  rfl

theorem match_hub_usb : globPrefix (hubTail port tail) (usbRest v) = none := by
  unfold hubTail usbRest
  simp only [cstr_eq, String.reduceToList]
  rfl

end

/-- The two tails that `bootprio_find_usb` tries. -/
inductive UsbTail (port : BitVec 32) : CString → Prop
  | storage (lun : BitVec 32) : UsbTail port (storageTail port lun)
  | usb : UsbTail port (usbTail port)

theorem not_matches (h : globPrefix glob str = none) : ¬ Matches glob str := by
  rw [Matches, h]
  simp

theorem UsbTail.matches_usbRest (ht : UsbTail port t) (hm : Matches t (usbRest v)) : port = v := by
  cases ht with
  | storage lun => exact absurd hm (not_matches (match_storage_usb port lun v))
  | usb =>
    rw [Matches, match_usb_usbRest, isSome_guard] at hm
    exact hm.1

theorem UsbTail.matches_root (ht : UsbTail port t) (h : Rest rest) (hm : Matches t rest) :
    port = 1 ∨ port = 2 := by
  cases h with
  | @storage v h =>
    cases ht with
    | storage lun => exact match_storage_storage hm ▸ h
    | usb => exact absurd hm (not_matches (match_usb_storage port v))
  | @usb v h => exact ht.matches_usbRest hm ▸ h
  | @hub v h =>
    cases ht with
    | storage lun => exact absurd hm (not_matches (match_storage_hub port lun v))
    | usb => exact absurd hm (not_matches (match_usb_hub port v))

theorem UsbTail.matches_hub (ht : UsbTail port t) (h : Rest rest)
    (hm : Matches (hubTail q t) rest) :
    q = 1 ∧ (port = 1 ∨ port = 2 ∨ port = 3 ∨ port = 4) := by
  cases h with
  | @storage v h => exact absurd hm (not_matches (match_hub_storage q v t))
  | @usb v h => exact absurd hm (not_matches (match_hub_usb q v t))
  | @hub v h =>
    rw [Matches, match_hub_hub, isSome_guard] at hm
    exact ⟨hm.1, ht.matches_usbRest hm.2 ▸ h⟩

theorem hubTail_matches_hub (h : Rest rest) :
    ¬ Matches (hubTail q (cstr "hub@" ++ tail)) rest := by
  cases h with
  | @storage v h => exact not_matches (match_hub_storage q v _)
  | @usb v h => exact not_matches (match_hub_usb q v _)
  | @hub v h =>
    rw [Matches, match_hub_hub, isSome_guard]
    rintro ⟨-, hm⟩
    unfold usbRest at hm
    simp only [cstr_eq, String.reduceToList] at hm
    cases hm

/-- The ports that lead to a hub, counted from 1. -/
def UsbHub.ports : UsbHub → List (BitVec 32)
  | .root _ => []
  | .hub _ upstream port => upstream.ports ++ [port + 1]

theorem hubPathText_cases (hub : UsbHub) :
    (hub.ports = [] ∧ hubPathText hub = []) ∨
    (∃ q, hub.ports = [q] ∧ hubPathText hub = '/' :: (cstr "hub@" ++ putprettyhex q)) ∨
    ∃ q rest, 2 ≤ hub.ports.length ∧
      hubPathText hub = '/' :: hubTail q (cstr "hub@" ++ rest) := by
  have hhub : cstr "/hub@" = '/' :: cstr "hub@" := by simp [cstr_eq]
  induction hub with
  | root => exact .inl ⟨rfl, rfl⟩
  | hub _ upstream port ih =>
    simp only [UsbHub.ports, hubPathText, hhub]
    rcases ih with ⟨hp, ht⟩ | ⟨q, hp, ht⟩ | ⟨q, rest, hp, ht⟩
    · exact .inr (.inl ⟨port + 1, by rw [hp]; rfl, by rw [ht]; rfl⟩)
    · refine .inr (.inr ⟨q, putprettyhex (port + 1), by rw [hp]; simp, ?_⟩)
      rw [ht, hubTail]
      simp
    · refine .inr (.inr ⟨q, rest ++ '/' :: (cstr "hub@" ++ putprettyhex (port + 1)), ?_, ?_⟩)
      · simp only [List.length_append]
        omega
      · rw [ht, hubTail, hubTail]
        simp

def usbText (cntl : PciDevice) (hub : UsbHub) (t : CString) : CString :=
  pciPathText (cstr "usb") cntl ++ (hubPathText hub ++ '/' :: t)

/-- The port paths of the entries of the USB class, behind its controller. -/
def listedPorts : List (List (BitVec 32)) := [[1], [2], [1, 1], [1, 2], [1, 3], [1, 4]]

theorem usb_controller_matches (hk : Entry k e)
    (hm : Matches (pciPathText (cstr "usb") (.root 0 bdf) ++ '/' :: tail) e) :
    k = .usb ∧ PciDevice.slot (.root 0 bdf) = some (0xa, 1) ∧
      ∃ rest, Rest rest ∧ Matches tail rest := by
  rcases entry_cases hk with ⟨v, rfl, -⟩ | ⟨rest, rfl, rfl, hrest⟩ | ⟨rfl, rfl⟩
  · rw [ataEntry_eq] at hm
    exact absurd hm (not_matches (match_usb_sata bdf tail _))
  · rw [Matches, match_usb_usb, isSome_guard] at hm
    exact ⟨rfl, PciDevice.slot_eq_some.mpr ⟨bdf, rfl, hm.1.1, hm.1.2⟩, rest, hrest, hm.2⟩
  · exact absurd hm (not_matches (pciPath_not_rom _ bdf tail))

theorem UsbTail.length (ht : UsbTail port t) : t.length ≤ 40 := by
  have := length_putprettyhex port
  cases ht with
  | storage lun =>
    have := length_putint lun
    simp [storageTail, cstr_eq]
    omega
  | usb =>
    simp [usbTail, cstr_eq]
    omega

theorem usbText_root (h : hubPathText hub = []) (cntl : PciDevice) (t : CString) :
    usbText cntl hub t = pciPathText (cstr "usb") cntl ++ '/' :: t := by
  rw [usbText, h, List.nil_append]

theorem usbText_hub (h : hubPathText hub = '/' :: (cstr "hub@" ++ putprettyhex q))
    (cntl : PciDevice) (t : CString) :
    usbText cntl hub t = pciPathText (cstr "usb") cntl ++ '/' :: hubTail q t := by
  rw [usbText, h, hubTail]
  simp

section
variable (bdf : BitVec 16) (ht : UsbTail port t)
include ht

theorem UsbTail.fits_root : (pciPathText (cstr "usb") (.root 0 bdf) ++ '/' :: t).length < descSize := by
  have := length_pciPathText_root (cstr "usb") bdf
  have := ht.length
  simp [cstr_eq, descSize] at *
  omega

theorem UsbTail.fits_hub (q : BitVec 32) :
    (pciPathText (cstr "usb") (.root 0 bdf) ++ '/' :: hubTail q t).length < descSize := by
  have := length_pciPathText_root (cstr "usb") bdf
  have := length_putprettyhex q
  have := ht.length
  simp [hubTail, cstr_eq, descSize] at *
  omega

end

theorem desc_hubs (bdf : BitVec 16) (q : BitVec 32) (tail : CString) : ∃ tail',
    desc (pciPathText (cstr "usb") (.root 0 bdf) ++ '/' :: hubTail q (cstr "hub@" ++ tail)) =
      pciPathText (cstr "usb") (.root 0 bdf) ++ '/' :: hubTail q (cstr "hub@" ++ tail') := by
  have hpath := length_pciPathText_root (cstr "usb") bdf
  have hport := length_putprettyhex q
  have htext (tail : CString) :
      pciPathText (cstr "usb") (.root 0 bdf) ++ '/' :: hubTail q (cstr "hub@" ++ tail) =
        (pciPathText (cstr "usb") (.root 0 bdf) ++
          '/' :: (cstr "hub@" ++ (putprettyhex q ++ '/' :: cstr "hub@"))) ++ tail := by
    simp [hubTail]
  rw [htext, desc_append (by simp [cstr_eq, descSize] at *; omega)]
  exact ⟨_, (htext _).symm⟩

/-- A USB device matches entries of its class only, and only from one of the
listed ports. -/
theorem usb_matches (ht : UsbTail port t) (hk : Entry k e)
    (hm : Matches (desc (usbText cntl hub t)) e) :
    k = .usb ∧ cntl.slot = some (0xa, 1) ∧ hub.ports ++ [port] ∈ listedPorts := by
  obtain ⟨bdf, rfl⟩ := matches_root hk hm
  rcases hubPathText_cases hub with ⟨hp, htext⟩ | ⟨q, hp, htext⟩ | ⟨q, rest, -, htext⟩
  · rw [usbText_root htext, desc_of_fits (ht.fits_root bdf)] at hm
    obtain ⟨hkind, hslot, rest, hrest, hm⟩ := usb_controller_matches hk hm
    refine ⟨hkind, hslot, ?_⟩
    rcases ht.matches_root hrest hm with rfl | rfl <;> simp [hp, listedPorts]
  · rw [usbText_hub htext, desc_of_fits (ht.fits_hub bdf q)] at hm
    obtain ⟨hkind, hslot, rest, hrest, hm⟩ := usb_controller_matches hk hm
    refine ⟨hkind, hslot, ?_⟩
    obtain ⟨rfl, hport⟩ := ht.matches_hub hrest hm
    rcases hport with rfl | rfl | rfl | rfl <;> simp [hp, listedPorts]
  · have htail : usbText (.root 0 bdf) hub t = pciPathText (cstr "usb") (.root 0 bdf) ++
        '/' :: hubTail q (cstr "hub@" ++ (rest ++ '/' :: t)) := by
      rw [usbText, htext, hubTail, hubTail]
      simp
    obtain ⟨tail', hdesc⟩ := desc_hubs bdf q (rest ++ '/' :: t)
    rw [htail, hdesc] at hm
    obtain ⟨-, -, rest', hrest, hm⟩ := usb_controller_matches hk hm
    exact absurd hm (hubTail_matches_hub hrest)

theorem usb_listed_matches (hslot : cntl.slot = some (0xa, 1))
    (hlisted : hub.ports ++ [port] ∈ listedPorts) :
    ∃ e ∈ DiskClass.usb.entries, Matches (desc (usbText cntl hub (usbTail port))) e := by
  obtain ⟨bdf, rfl, hdev, hfn⟩ := PciDevice.slot_eq_some.mp hslot
  have ht : UsbTail port (usbTail port) := .usb
  rcases hubPathText_cases hub with ⟨hp, htext⟩ | ⟨q, hp, htext⟩ | ⟨q, rest, hp, -⟩
  · rw [usbText_root htext, desc_of_fits (ht.fits_root bdf)]
    refine ⟨usbEntry port, ?_, ?_⟩
    · have hport : port = 1 ∨ port = 2 := by simpa [hp, listedPorts] using hlisted
      rcases hport with rfl | rfl <;> simp [DiskClass.entries]
    · rw [usbEntry_eq, Matches, match_usb_usb, if_pos ⟨hdev, hfn⟩, match_usb_usbRest, if_pos rfl]
      rfl
  · rw [usbText_hub htext, desc_of_fits (ht.fits_hub bdf q)]
    have hport : q = 1 ∧ (port = 1 ∨ port = 2 ∨ port = 3 ∨ port = 4) := by
      simp [hp, listedPorts] at hlisted
      tauto
    refine ⟨hubEntry port, ?_, ?_⟩
    · rcases hport.2 with rfl | rfl | rfl | rfl <;> simp [DiskClass.entries]
    · rw [hubEntry_eq, Matches, match_usb_usb, if_pos ⟨hdev, hfn⟩, match_hub_hub, if_pos hport.1,
        match_usb_usbRest, if_pos rfl]
      rfl
  · have hlen : ∀ ports ∈ listedPorts, ports.length ≤ 2 := by decide
    have := hlen _ hlisted
    simp only [List.length_append, List.length_singleton] at this
    omega

-- ---------------------------------------------------------------------------
-- The floppy image
-- ---------------------------------------------------------------------------

/-- The file name behind the directory that `ramdisk_setup` searches. -/
def FloppyImage.file (image : FloppyImage) : CString := image.name.drop 10

theorem FloppyImage.name_eq (image : FloppyImage) :
    image.name = cstr "floppyimg/" ++ image.file := by
  obtain ⟨file, hfile⟩ := image.found
  have hten : (cstr "floppyimg/").length = 10 := by simp [cstr_eq]
  rw [FloppyImage.file, ← hfile, ← hten, List.drop_left]

/-- Only a name of stars matches the star of the entry, which is not a
pattern there. -/
def FloppyImage.Stars (image : FloppyImage) : Prop :=
  image.file ≠ [] ∧ ∀ c ∈ image.file, c = '*'

instance (image : FloppyImage) : Decidable image.Stars :=
  inferInstanceAs (Decidable (_ ∧ _))

def floppyText (image : FloppyImage) : CString := cstr "/rom@" ++ image.name

theorem floppy_fits (image : FloppyImage) : (floppyText image).length < descSize := by
  have := image.fits
  simp [floppyText, cstr_eq, descSize]
  omega

theorem floppy_matches (hk : Entry k e) :
    Matches (desc (floppyText image)) e ↔ k = .vfloppy ∧ image.Stars := by
  rw [desc_of_fits (floppy_fits image)]
  rcases entry_cases hk with ⟨v, rfl, hv⟩ | ⟨rest, rfl, rfl, -⟩ | ⟨rfl, rfl⟩
  · have hnone : globPrefix (floppyText image) (ataEntry v) = none := by
      rw [ataEntry_eq]
      unfold floppyText
      simp only [cstr_eq, String.reduceToList]
      rfl
    refine iff_of_false (not_matches hnone) ?_
    rcases hv with ⟨rfl, -⟩ | ⟨rfl, -⟩ <;> simp
  · have hnone : globPrefix (floppyText image) (cstr "/pci@i0cf8/usb@a,1/" ++ rest) = none := by
      unfold floppyText
      simp only [cstr_eq, String.reduceToList]
      rfl
    exact iff_of_false (not_matches hnone) (by simp)
  · have hglob : floppyText image = cstr "/rom@floppyimg/" ++ image.file := by
      rw [floppyText, image.name_eq]
      simp [cstr_eq]
    have hstr : cstr "/rom@floppyimg/*" = cstr "/rom@floppyimg/" ++ ['*'] := by simp [cstr_eq]
    rw [Matches, hglob, hstr, globPrefix, matchPrefix_append (by simp [cstr_eq]),
      matchPrefix_lone_star (by decide)]
    simp [FloppyImage.Stars]

end ItxLlama.Seabios.Boot
