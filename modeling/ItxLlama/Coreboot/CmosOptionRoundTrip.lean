import ItxLlama.Coreboot.CmosOptionLaws

/-!
# Options read back

What `set_option` stores for a name, `get_option` returns for it, exactly for
the options that the name finds and whose copy does not run past the end of the
checksummed range.
-/

namespace ItxLlama.Coreboot.CmosOption

open Lib.Word

-- ---------------------------------------------------------------------------
-- Values
-- ---------------------------------------------------------------------------

theorem getBytes_eq (c : Cmos) (n byte : Nat) :
    getBytes c byte (8 * n) = (List.range' byte n).map (cmosRead c) := by
  induction n generalizing byte with
  | zero =>
    rw [getBytes, if_pos rfl]
    rfl
  | succ n ih =>
    rw [getBytes, if_neg (by omega), Nat.mul_succ, Nat.add_sub_cancel, ih, List.range'_succ,
      List.map_cons]

theorem getCmosValue_reads {c : Cmos} (hfield : Placed bit length)
    (hvalue : length ≤ 8 → (value.getD 0 0).toNat < 2 ^ length)
    (hbits : ∀ i < length, i < 8 * m → bitAt c (bit + i) = valueBit value i)
    (hi : i < m) (hlen : i < (length + 7) / 8) :
    (getCmosValue c bit length)[i]? = some (value.getD i 0) := by
  obtain ⟨hstart, hinside, hbyte, hwhole⟩ := hfield
  have hlt : bit / 8 < 256 := by omega
  by_cases hshort : length ≤ 8
  · have hfit := hbyte hshort
    obtain rfl : i = 0 := by omega
    rw [getCmosValue, if_pos (Nat.lt_succ_of_le hshort), cmosRead_of_lt hlt,
      List.getElem?_cons_zero]
    refine congrArg some (BitVec.eq_of_getLsbD_eq fun j hj => ?_)
    rw [BitVec.getLsbD_and, getLsbD_mask, BitVec.getLsbD_ushiftRight]
    by_cases hjl : j < length
    · have hbit := hbits j hjl (by omega)
      have hdiv : (bit + j) / 8 = bit / 8 := by omega
      have hmod : (bit + j) % 8 = bit % 8 + j := by omega
      have hfirst : j / 8 = 0 := by omega
      rw [bitAt, valueBit, hdiv, hmod, hfirst, Nat.mod_eq_of_lt hj] at hbit
      rw [hbit]
      simp [hj, hjl]
    · rw [getLsbD_of_lt_two_pow (hvalue hshort) (Nat.le_of_not_lt hjl)]
      simp [hjl]
  · obtain ⟨haligned, hmultiple⟩ := hwhole (Nat.lt_of_not_le hshort)
    obtain ⟨n, rfl⟩ := Nat.dvd_of_mod_eq_zero hmultiple
    have hin : i < n := by omega
    rw [getCmosValue, if_neg (by omega), getBytes_eq, List.getElem?_map, List.getElem?_range' hin,
      Option.map_some, cmosRead_of_lt (by omega)]
    refine congrArg some (BitVec.eq_of_getLsbD_eq fun j hj => ?_)
    have hbit := hbits (8 * i + j) (by omega) (by omega)
    have hdiv : (bit + (8 * i + j)) / 8 = bit / 8 + i := by omega
    have hmod : (bit + (8 * i + j)) % 8 = j := by omega
    have hindex : (8 * i + j) / 8 = i := by omega
    have hoff : (8 * i + j) % 8 = j := by omega
    rw [bitAt, valueBit, hdiv, hmod, hindex, hoff] at hbit
    rw [Nat.one_mul]
    exact hbit

theorem strlen_cons (b : Byte) (s : List Byte) : strlen (b :: s) = if b = 0 then 0 else strlen s + 1 := by
  unfold strlen
  by_cases hb : b = 0#8
  · simp [hb]
  · simp [hb]

theorem getD_strlen (s : List Byte) : s.getD (strlen s) 0 = 0 := by
  induction s with
  | nil => rfl
  | cons b s ih =>
    rw [strlen_cons]
    split
    · assumption
    · rw [List.getD_cons_succ]
      exact ih

-- ---------------------------------------------------------------------------
-- Options
-- ---------------------------------------------------------------------------

def CmosEntries.isString (o : CmosEntries) : Prop := o.config = 's'.toNat

instance (o : CmosEntries) : Decidable o.isString := inferInstanceAs (Decidable (_ = _))

/-- The number of bits that are copied from the value. -/
def CmosEntries.copied (o : CmosEntries) : Nat := if o.isString then o.length - 8 else o.length

/-- A value of the option: a string with room for its terminator, or a number. -/
def Fits (o : CmosEntries) (value : List Byte) : Prop :=
  if o.isString then 8 * (strlen value + 1) ≤ o.length
  else o.length ≤ 8 → (value.getD 0 0).toNat < 2 ^ o.length

def valueBytes (o : CmosEntries) (value : List Byte) : Nat :=
  if o.isString then strlen value + 1 else (o.length + 7) / 8

/-- What the layout compiler promises about the options, beside a terminated table. -/
structure Compiled (k : Cks) (options : List CmosEntries) : Prop where
  checksum : k.Placed
  tags : ∀ o ∈ options, o.tag = lbTagOption
  names : options.Pairwise fun o o' => o.name ≠ o'.name
  terminated : ∀ o ∈ options, o.name.length < cmosMaxNameLength ∧ ∀ b ∈ o.name, b ≠ 0
  disjoint : options.Pairwise fun o o' => o.bit + o.length ≤ o'.bit ∨ o'.bit + o'.length ≤ o.bit
  nonempty : ∀ o ∈ options, 0 < o.length
  placed : ∀ o ∈ options, Placed o.bit o.length
  free : ∀ o ∈ options, Free k o.bit o.length

/-- The effect of `set_option` on the entry that was found. -/
structure Sets (k : Cks) (c c₁ c' : Cmos) (o : CmosEntries) (value : List Byte) : Prop where
  terminator : if o.isString then Stores k c c₁ (o.bit + o.length - 8) 8 [0] else c₁ = c
  copy : Stores k c₁ c' o.bit o.copied value

structure OptionPlaced (k : Cks) (o : CmosEntries) : Prop where
  pos : 0 < o.length
  field : Placed o.bit o.length
  free : Free k o.bit o.length

theorem Compiled.option {k : Cks} (h : Compiled k options) (ho : o ∈ options) : OptionPlaced k o :=
  ⟨h.nonempty o ho, h.placed o ho, h.free o ho⟩

section Entry

variable {k : Cks} {o : CmosEntries} {value : List Byte}

theorem OptionPlaced.copied (h : OptionPlaced k o) (hstring : o.isString → 8 ≤ o.length) :
    Placed o.bit o.copied ∧ Free k o.bit o.copied := by
  obtain ⟨hpos, ⟨hstart, hinside, hshort, hlong⟩, hfree⟩ := h
  unfold CmosEntries.copied
  split
  case isTrue hs =>
    have hlen := hstring hs
    refine ⟨⟨hstart, by omega, fun hle => ?_, fun hlt => ?_⟩, fun i hi => hfree i (by omega)⟩
    · by_cases hfull : o.length ≤ 8
      · have := hshort hfull
        omega
      · have := hlong (Nat.lt_of_not_le hfull)
        omega
    · have := hlong (by omega)
      omega
  case isFalse => exact ⟨⟨hstart, hinside, hshort, hlong⟩, hfree⟩

theorem OptionPlaced.terminator (h : OptionPlaced k o) (hlen : 8 ≤ o.length) :
    Placed (o.bit + o.length - 8) 8 ∧ Free k (o.bit + o.length - 8) 8 := by
  obtain ⟨hpos, ⟨hstart, hinside, hshort, hlong⟩, hfree⟩ := h
  refine ⟨⟨by omega, by omega, fun _ => ?_, fun hlt => absurd hlt (by decide)⟩, fun i hi => ?_⟩
  · by_cases hfull : o.length ≤ 8
    · have := hshort hfull
      omega
    · have := hlong (Nat.lt_of_not_le hfull)
      omega
  · have hin := hfree (o.length - 8 + i) (by omega)
    have hplace : o.bit + o.length - 8 + i = o.bit + (o.length - 8 + i) := by omega
    rw [hplace]
    exact hin

theorem Fits.string_length (h : Fits o value) (hs : o.isString) : 8 ≤ o.length := by
  rw [Fits, if_pos hs] at h
  omega

theorem Fits.first (h : Fits o value) (hfield : Placed o.bit o.length) (hle : o.copied ≤ 8) :
    (value.getD 0 0).toNat < 2 ^ o.copied := by
  unfold Fits at h
  unfold CmosEntries.copied at hle ⊢
  by_cases hs : o.isString
  · rw [if_pos hs] at h hle ⊢
    by_cases hzero : o.length = 8
    · have hempty : strlen value = 0 := by omega
      have hterm := getD_strlen value
      rw [hempty] at hterm
      rw [hterm]
      exact Nat.two_pow_pos _
    · have hlong := hfield.long (by omega)
      have hfull : o.length - 8 = 8 := by omega
      rw [hfull]
      exact (value.getD 0 0).isLt
  · rw [if_neg hs] at h hle ⊢
    exact h hle

theorem setOption_sets {ct : Layout} (hk : k.Placed) (c : Cmos)
    (hfind : ct.bind (findEntry name) = some o) (h : OptionPlaced k o) (hfits : Fits o value) :
    (setOption k ct c name value).1 = 0 ∧
      ∃ c₁, Sets k c c₁ (setOption k ct c name value).2 o value := by
  have hcopied := h.copied hfits.string_length
  have hstore := fun c => @setCmosValue_spec o.bit o.copied value k hk c hcopied.1 hcopied.2
    (hfits.first h.field)
  have hinside := h.field.inside
  rw [setOption, hfind]
  simp only
  by_cases hs : o.isString
  · have hlen := hfits.string_length hs
    have hterm := h.terminator hlen
    have hfit := hfits
    rw [Fits, if_pos hs] at hfit
    have hcount : o.copied = o.length - 8 := if_pos hs
    have hsub : u32 (o.length + 2 ^ 32 - 8) = o.length - 8 := by
      unfold u32
      omega
    have hbit : u32 (o.bit + o.length + 2 ^ 32 - 8) = o.bit + o.length - 8 := by
      unfold u32
      omega
    have hmax : max (u32 (strlen value * 8)) (u32 (o.length + 2 ^ 32 - 8)) = o.copied := by
      rw [hsub, hcount, u32_eq (by omega)]
      omega
    have hfirst := @setCmosValue_spec (o.bit + o.length - 8) 8 [0] k hk c hterm.1 hterm.2
      (fun _ => by decide)
    have hsecond := hstore (setCmosValue k c (o.bit + o.length - 8) 8 [0]).2
    have hconfig : o.config = 's'.toNat := hs
    rw [if_pos hconfig, hmax, hbit, if_neg (not_not.mpr hfirst.1)]
    refine ⟨if_neg (not_not.mpr hsecond.1), _, ⟨?_, hsecond.2⟩⟩
    rw [if_pos hs]
    exact hfirst.2
  · have hconfig : ¬ o.config = 's'.toNat := hs
    have hcount : o.copied = o.length := if_neg hs
    rw [if_neg hconfig]
    rw [hcount] at hstore
    refine ⟨if_neg (not_not.mpr (hstore c).1), c, ⟨?_, hcount.symm ▸ (hstore c).2⟩⟩
    rw [if_neg hs]

theorem Sets.bits {c c₁ c' : Cmos} (h : Sets k c c₁ c' o value) (ho : OptionPlaced k o)
    (hfits : Fits o value) (hi : i < o.length) (hbyte : i < 8 * valueBytes o value) :
    bitAt c' (o.bit + i) = valueBit value i := by
  obtain ⟨hterm, hcopy⟩ := h
  by_cases hs : o.isString
  · have hlen := hfits.string_length hs
    have hterm' := ho.terminator hlen
    have hcount : o.copied = o.length - 8 := if_pos hs
    have hinside := ho.field.inside
    rw [if_pos hs] at hterm
    rw [valueBytes, if_pos hs] at hbyte
    rw [Fits, if_pos hs] at hfits
    by_cases hcopied : i < o.length - 8
    · exact hcopy.inside i (hcount.symm ▸ hcopied)
    · -- the last byte, which holds the terminator
      have hplace : o.bit + o.length - 8 + (i - (o.length - 8)) = o.bit + i := by omega
      have hzero := hterm.inside (i - (o.length - 8)) (by omega)
      have hfree := ho.free i hi
      have hfull : o.length % 8 = 0 := by
        by_cases hshort : o.length ≤ 8
        · omega
        · exact (ho.field.long (Nat.lt_of_not_le hshort)).2
      have hlast : i / 8 = strlen value := by omega
      rw [hcopy.outside _ (by omega) (by omega) hfree.1 hfree.2, ← hplace, hzero, valueBit, valueBit,
        hlast, getD_strlen]
      have hfirst : (i - (o.length - 8)) / 8 = 0 := by omega
      rw [hfirst]
      simp
  · have hcount : o.copied = o.length := if_neg hs
    rw [hcount] at hcopy
    exact hcopy.inside i hi

theorem Sets.outside {c c₁ c' : Cmos} (h : Sets k c c₁ c' o value) (hfits : Fits o value)
    (hp : p < 2048) (hout : ¬ (o.bit ≤ p ∧ p < o.bit + o.length)) (hlo : p / 8 ≠ k.loc)
    (hhi : p / 8 ≠ k.loc + 1) : bitAt c' p = bitAt c p := by
  obtain ⟨hterm, hcopy⟩ := h
  by_cases hs : o.isString
  · have hlen := hfits.string_length hs
    have hcount : o.copied = o.length - 8 := if_pos hs
    rw [if_pos hs] at hterm
    rw [hcount] at hcopy
    rw [hcopy.outside p hp (by omega) hlo hhi, hterm.outside p hp (by omega) hlo hhi]
  · have hcount : o.copied = o.length := if_neg hs
    rw [if_neg hs] at hterm
    rw [hcount] at hcopy
    rw [hcopy.outside p hp hout hlo hhi, hterm]

/-- The copy is one byte at most, ends before the last summed byte, or starts after it. -/
def Safe (k : Cks) (o : CmosEntries) : Prop :=
  o.copied ≤ 8 ∨ o.bit / 8 + o.copied / 8 ≤ k.rangeEnd ∨ k.rangeEnd < o.bit / 8

theorem Sets.valid {c c₁ c' : Cmos} (hk : k.Placed) (h : Sets k c c₁ c' o value)
    (ho : OptionPlaced k o) (hfits : Fits o value) (hsafe : Safe k o)
    (hvalid : rtcChecksumValid c k = true) : rtcChecksumValid c' k = true := by
  obtain ⟨hterm, hcopy⟩ := h
  obtain ⟨hcopied, -⟩ := ho.copied hfits.string_length
  have hone : ∀ {bit length}, Placed bit length → length ≤ 8 →
      k.InRange (testedByte bit length) ∨ ∀ i < length, ¬ k.InRange ((bit + i) / 8) := by
    intro bit length hfield hle
    have hfit := hfield.short hle
    rw [testedByte, if_pos hle]
    by_cases hin : k.InRange (bit / 8)
    · exact Or.inl hin
    · right
      intro i hi
      have hsame : (bit + i) / 8 = bit / 8 := by omega
      rwa [hsame]
  have hvalid₁ : rtcChecksumValid c₁ k = true := by
    by_cases hs : o.isString
    · rw [if_pos hs] at hterm
      exact hterm.valid hk hvalid (hone (ho.terminator (hfits.string_length hs)).1 (Nat.le_refl 8))
    · rw [if_neg hs] at hterm
      exact hterm.symm ▸ hvalid
  refine hcopy.valid hk hvalid₁ ?_
  by_cases hle : o.copied ≤ 8
  · exact hone hcopied hle
  · obtain ⟨haligned, hwhole⟩ := hcopied.long (Nat.lt_of_not_le hle)
    rw [testedByte, if_neg hle]
    unfold Cks.InRange
    obtain hshort | hbefore | hafter := hsafe
    · exact absurd hshort hle
    · by_cases hstart : k.rangeStart ≤ o.bit / 8 + o.copied / 8
      · exact Or.inl ⟨hstart, hbefore⟩
      · right
        rintro i hi ⟨hlo, hhi⟩
        omega
    · right
      rintro i hi ⟨hlo, hhi⟩
      omega

theorem setOption_stored {ct : Layout} (hk : k.Placed) (c : Cmos)
    (hfind : ct.bind (findEntry name) = some o) (h : OptionPlaced k o) (hfits : Fits o value) :
    (setOption k ct c name value).1 = 0 ∧
      (∀ i < o.length, i < 8 * valueBytes o value →
        bitAt (setOption k ct c name value).2 (o.bit + i) = valueBit value i) ∧
      (∀ p < 2048, ¬ (o.bit ≤ p ∧ p < o.bit + o.length) → p / 8 ≠ k.loc → p / 8 ≠ k.loc + 1 →
        bitAt (setOption k ct c name value).2 p = bitAt c p) := by
  obtain ⟨hresult, c₁, hsets⟩ := setOption_sets hk c hfind h hfits
  exact ⟨hresult, fun i hi hbyte => hsets.bits h hfits hi hbyte,
    fun p hp hout hlo hhi => hsets.outside hfits hp hout hlo hhi⟩

theorem getOption_stored {ct : Layout} {c : Cmos} (hfind : ct.bind (findEntry name) = some o)
    (h : OptionPlaced k o) (hfits : Fits o value) (hvalid : rtcChecksumValid c k = true)
    (hbits : ∀ i < o.length, i < 8 * valueBytes o value → bitAt c (o.bit + i) = valueBit value i) :
    (getOption k ct c name).1 = 0 ∧ ∀ i < valueBytes o value,
      (getOption k ct c name).2[i]? = some (value.getD i 0) := by
  rw [getOption, hfind]
  simp only
  rw [if_pos hvalid]
  refine ⟨rfl, fun i hi => getCmosValue_reads h.field (fun hle => ?_) hbits hi ?_⟩
  · by_cases hs : o.isString
    · rw [Fits, if_pos hs] at hfits
      have hempty : strlen value = 0 := by omega
      have hterm := getD_strlen value
      rw [hempty] at hterm
      rw [hterm]
      exact Nat.two_pow_pos _
    · rw [Fits, if_neg hs] at hfits
      exact hfits hle
  · unfold valueBytes at hi
    split at hi
    case isTrue hs =>
      rw [Fits, if_pos hs] at hfits
      omega
    case isFalse => exact hi

end Entry

end ItxLlama.Coreboot.CmosOption
