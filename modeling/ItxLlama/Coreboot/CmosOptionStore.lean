import ItxLlama.Coreboot.CmosOptionRoundTrip
import Mathlib.Algebra.BigOperators.Group.List.Basic
import Mathlib.Data.List.GetD
import Mathlib.Data.List.Pairwise
import Mathlib.Data.List.TakeWhile

/-!
# Which options keep their value

A name finds the first option of the layout that starts with it. What is stored
under the name of an option is read back just where that is the option itself and
the copy of its value does not end the checksummed range.
-/

namespace ItxLlama.Coreboot.CmosOption

open Lib.Word

-- ---------------------------------------------------------------------------
-- Names
-- ---------------------------------------------------------------------------

/-- The first option of the layout whose name starts with `name`. -/
def firstNamed (name : List Byte) (options : List CmosEntries) : Option CmosEntries :=
  options.find? fun o => name.isPrefixOf o.name

/-- The layout as it lies in the file: the record after the options has another tag. -/
def layoutOf (options : List CmosEntries) (stop : CmosEntries) : Layout := some (options ++ [stop])

theorem strlen_of_terminated {s : List Byte} (h : ∀ b ∈ s, b ≠ 0) : strlen s = s.length := by
  rw [strlen, List.takeWhile_eq_self_iff.mpr fun b hb => decide_eq_true (h b hb)]

theorem getD_eq_zero {s : List Byte} (h : ∀ b ∈ s, b ≠ 0) : s.getD i 0 = 0 ↔ s.length ≤ i := by
  constructor
  · intro hzero
    by_contra hlt
    rw [List.getD_eq_getElem _ _ (Nat.lt_of_not_le hlt)] at hzero
    exact h _ (List.getElem_mem _) hzero
  · exact fun hle => List.getD_eq_default _ _ hle

/-- The compare of `strnlen` bytes finds the names that start with the given one. -/
theorem memEq_iff_prefix {name entry : List Byte} (hname : ∀ b ∈ name, b ≠ 0)
    (hentry : entry.length < cmosMaxNameLength) (hbytes : ∀ b ∈ entry, b ≠ 0) :
    memEq entry name (strnlen name cmosMaxNameLength) = name.isPrefixOf entry := by
  rw [Bool.eq_iff_iff, memEq, List.all_eq_true, List.isPrefixOf_iff_prefix, strnlen,
    strlen_of_terminated hname]
  simp only [List.mem_range, decide_eq_true_eq]
  constructor
  · intro heq
    have hlen : name.length ≤ entry.length := by
      by_contra hlong
      -- the byte after the entry's name is zero, and one of the given name is not
      have hend := heq entry.length (by omega)
      rw [(getD_eq_zero hbytes).mpr (Nat.le_refl _)] at hend
      exact hlong ((getD_eq_zero hname).mp hend.symm)
    rw [List.prefix_iff_eq_take]
    refine List.ext_getElem (by rw [List.length_take]; omega) fun i hi hi' => ?_
    have hbyte := heq i (by omega)
    rw [List.getD_eq_getElem _ _ (by omega), List.getD_eq_getElem _ _ hi] at hbyte
    rw [List.getElem_take, hbyte]
  · rintro ⟨rest, rfl⟩ i hi
    exact List.getD_append _ _ _ _ (by omega)

theorem findEntry_options {options : List CmosEntries} {stop : CmosEntries}
    (htags : ∀ o ∈ options, o.tag = lbTagOption)
    (hterm : ∀ o ∈ options, o.name.length < cmosMaxNameLength ∧ ∀ b ∈ o.name, b ≠ 0)
    (hstop : stop.tag ≠ lbTagOption) (hname : ∀ b ∈ name, b ≠ 0) :
    (layoutOf options stop).bind (findEntry name) = firstNamed name options := by
  show findEntry name (options ++ [stop]) = firstNamed name options
  induction options with
  | nil => exact if_pos hstop
  | cons o options ih =>
    have hin : o ∈ o :: options := List.mem_cons_self
    rw [List.cons_append, findEntry, if_neg (not_not.mpr (htags o hin)), firstNamed,
      List.find?_cons,
      memEq_iff_prefix hname (hterm o hin).1 (hterm o hin).2]
    cases hpre : name.isPrefixOf o.name with
    | true => rfl
    | false =>
      exact ih (fun o' h => htags o' (List.mem_cons_of_mem _ h))
        (fun o' h => hterm o' (List.mem_cons_of_mem _ h))

-- ---------------------------------------------------------------------------
-- The promise
-- ---------------------------------------------------------------------------

/-- A string without room for its terminator. -/
def CmosEntries.isShortString (o : CmosEntries) : Prop := o.isString ∧ o.length < 8

/-- Storing a value under the name of the option succeeds with just that effect, or fails. -/
def RoundTrip (k : Cks) (ct : Layout) (o : CmosEntries) : Prop :=
  ∀ c, rtcChecksumValid c k = true → ∀ value, Fits o value → (setOption k ct c o.name value).1 = 0 →
    ((getOption k ct (setOption k ct c o.name value).2 o.name).1 = 0 ∧ ∀ i < valueBytes o value,
      (getOption k ct (setOption k ct c o.name value).2 o.name).2[i]? = some (value.getD i 0)) ∧
    (∀ p < 2048, ¬ (o.bit ≤ p ∧ p < o.bit + o.length) → p / 8 ≠ k.loc → p / 8 ≠ k.loc + 1 →
      bitAt (setOption k ct c o.name value).2 p = bitAt c p) ∧
    rtcChecksumValid (setOption k ct c o.name value).2 k = true

/-- The name gives an error and changes nothing. -/
def Rejects (k : Cks) (ct : Layout) (name : List Byte) : Prop :=
  ∀ c, rtcChecksumValid c k = true →
    (getOption k ct c name).1 ≠ 0 ∧
      ∀ value, (setOption k ct c name value).1 ≠ 0 ∧ (setOption k ct c name value).2 = c

/-- When the option keeps what is stored under its name. -/
def Keeps (k : Cks) (options : List CmosEntries) (o : CmosEntries) : Prop :=
  o.isShortString ∨ ∃ found, firstNamed o.name options = some found ∧
    (found.isShortString ∨ found = o ∧ Safe k o)

section Entry

variable {k : Cks} {ct : Layout} {o found : CmosEntries}

theorem roundTrip_of_safe (hk : k.Placed) (hfind : ct.bind (findEntry o.name) = some o)
    (h : OptionPlaced k o) (hsafe : Safe k o) : RoundTrip k ct o := by
  intro c hvalid value hfits _
  obtain ⟨-, hbits, houtside⟩ := setOption_stored hk c hfind h hfits
  obtain ⟨-, c₁, hsets⟩ := setOption_sets hk c hfind h hfits
  have hvalid' := hsets.valid hk h hfits hsafe hvalid
  exact ⟨getOption_stored hfind h hfits hvalid' hbits, houtside, hvalid'⟩

theorem not_fits_of_shortString (h : o.isShortString) (value : List Byte) : ¬ Fits o value := by
  intro hfits
  have hlen := hfits.string_length h.1
  exact absurd h.2 (Nat.not_lt.mpr hlen)

theorem setOption_shortString (hfind : ct.bind (findEntry name) = some found)
    (hpos : 0 < found.length)
    (h : found.isShortString) (c : Cmos) (value : List Byte) :
      (setOption k ct c name value).1 ≠ 0 := by
  obtain ⟨hs, hlen⟩ := h
  have hconfig : found.config = 's'.toNat := hs
  rw [setOption, hfind]
  simp only
  rw [if_pos hconfig]
  split
  · exact Int.negSucc_ne_zero 2
  · have hsub : u32 (found.length + 2 ^ 32 - 8) = 2 ^ 32 - 8 + found.length := by
      unfold u32
      omega
    have hmul : u32 (strlen value * 8) ≤ 2 ^ 32 - 8 := by
      unfold u32
      omega
    -- the copy is not a whole number of bytes
    have hcopy : ∀ c, (setCmosValue k c found.bit (max (u32 (strlen value * 8))
        (u32 (found.length + 2 ^ 32 - 8))) value).1 = -1 := by
      intro c
      rw [Nat.max_eq_right (by omega), hsub, setCmosValue]
      simp only
      rw [if_neg (by omega), if_pos (Or.inr (by omega))]
    simp only [hcopy]
    exact Int.negSucc_ne_zero 2

theorem fits_nil (h : ¬ o.isShortString) : Fits o [] := by
  unfold Fits
  split
  case isTrue hs =>
    have hlen : ¬ o.length < 8 := fun hlt => h ⟨hs, hlt⟩
    show 8 * (0 + 1) ≤ o.length
    omega
  case isFalse => exact fun _ => Nat.two_pow_pos _

end Entry

-- ---------------------------------------------------------------------------
-- Options that do not keep their value
-- ---------------------------------------------------------------------------

def zeroCmos : Cmos := fun _ => 0

section Converse

variable {k : Cks} {ct : Layout} {o found : CmosEntries}

theorem cksSum_single (hk : k.Placed) {c : Cmos} (hm : k.InRange m)
    (hzero : ∀ a, k.InRange a → a ≠ m → c a = 0) : cksSum c k = (c m).toNat := by
  obtain ⟨hstart, hend⟩ := hm
  have hlt : m < 256 := Nat.lt_of_le_of_lt hend hk.rangeEnd
  have hother : ∀ a, a ≠ m → a ∈ List.range' k.rangeStart (k.rangeEnd + 1 - k.rangeStart) →
      (cmosRead c a).toNat = 0 := by
    intro a hne ha
    rw [List.mem_range'_1] at ha
    have ha256 : a < 256 := Nat.lt_of_lt_of_le ha.2 (by have := hk.rangeEnd; omega)
    rw [cmosRead_of_lt ha256, hzero a ⟨ha.1, by omega⟩ hne]
    rfl
  have hcount : (List.range' k.rangeStart (k.rangeEnd + 1 - k.rangeStart)).count m = 1 :=
    List.count_eq_one_of_mem List.nodup_range' (List.mem_range'_1.mpr ⟨hstart, by omega⟩)
  have hbyte := (c m).isLt
  rw [cksSum, List.sum_map_eq_nsmul_single m _ hother, hcount, one_nsmul, cmosRead_of_lt hlt]
  exact Nat.mod_eq_of_lt (by omega)

theorem valid_zeroCmos (hk : k.Placed) : rtcChecksumValid zeroCmos k = true := by
  have hstart : k.InRange k.rangeStart := ⟨Nat.le_refl _, hk.range⟩
  have hnone : ∀ a, k.InRange a → a ≠ k.rangeStart → zeroCmos a = 0 := fun _ _ _ => rfl
  have hbyte : ∀ a, (zeroCmos a).toNat = 0 := fun _ => rfl
  rw [valid_iff hk, cksSum_single hk hstart hnone, hbyte, hbyte, hbyte]

theorem not_rejects_of_found (hk : k.Placed) (hfind : ct.bind (findEntry name) = some found) :
    ¬ Rejects k ct name := by
  intro h
  obtain ⟨hget, -⟩ := h zeroCmos (valid_zeroCmos hk)
  rw [getOption, hfind] at hget
  simp only at hget
  rw [if_pos (valid_zeroCmos hk)] at hget
  exact hget rfl

theorem rejects_of_not_found (hfind : ct.bind (findEntry name) = none) : Rejects k ct name := by
  intro c _
  rw [getOption, hfind]
  refine ⟨Int.negSucc_ne_zero 1, fun value => ?_⟩
  rw [setOption, hfind]
  exact ⟨Int.negSucc_ne_zero 1, rfl⟩

theorem bitAt_setChecksum (hk : k.Placed) (c : Cmos) (hlo : p / 8 ≠ k.loc) (hhi : p / 8 ≠ k.loc + 1)
    :
    bitAt (rtcSetChecksum c k) p = bitAt c p := by
  rw [bitAt, setChecksum_apply hk, if_neg hhi, if_neg hlo, bitAt]

theorem not_roundTrip_of_other (hk : k.Placed) (hfind : ct.bind (findEntry o.name) = some found)
    (hfound : OptionPlaced k found) (ho : ¬ o.isShortString) (hlong : ¬ found.isShortString)
    (hapart : o.bit + o.length ≤ found.bit ∨ found.bit + found.length ≤ o.bit) :
    ¬ RoundTrip k ct o := by
  intro h
  have hpos := hfound.pos
  have hstart := hfound.field.start
  obtain ⟨hlo, hhi⟩ := hfound.free 0 hpos
  rw [Nat.add_zero] at hlo hhi
  -- the first bit of the other option is set, and the empty value clears it
  let c := rtcSetChecksum
    (Function.update zeroCmos (found.bit / 8) (BitVec.ofNat 8 (2 ^ (found.bit % 8)))) k
  have hset : bitAt c found.bit = true := by
    rw [bitAt_setChecksum hk _ hlo hhi, bitAt_update, if_pos rfl, BitVec.getLsbD_ofNat,
      Nat.testBit_two_pow_self, decide_eq_true (Nat.mod_lt _ (by decide))]
    rfl
  obtain ⟨hresult, hbits, -⟩ := setOption_stored hk c hfind hfound (fits_nil hlong)
  have hbyte : 0 < valueBytes found [] := by
    unfold valueBytes
    split
    · exact Nat.succ_pos _
    · omega
  have hclear := hbits 0 hpos (Nat.mul_pos (by decide) hbyte)
  obtain ⟨-, houtside, -⟩ := h c (valid_setChecksum hk _) [] (fits_nil ho) hresult
  have hkept := houtside found.bit hstart (by omega) hlo hhi
  rw [Nat.add_zero] at hclear
  rw [hkept, hset] at hclear
  exact Bool.noConfusion hclear

theorem Stores.byte {c c' : Cmos} (h : Stores k c c' bit (8 * n) value) (halign : bit % 8 = 0)
    (hin : bit / 8 ≤ a ∧ a < bit / 8 + n) : c' a = value.getD (a - bit / 8) 0 := by
  refine BitVec.eq_of_getLsbD_eq fun j hj => ?_
  have hbit := h.inside (8 * (a - bit / 8) + j) (by omega)
  have hdiv : (bit + (8 * (a - bit / 8) + j)) / 8 = a := by omega
  have hmod : (bit + (8 * (a - bit / 8) + j)) % 8 = j := by omega
  have hindex : (8 * (a - bit / 8) + j) / 8 = a - bit / 8 := by omega
  have hoff : (8 * (a - bit / 8) + j) % 8 = j := by omega
  rwa [bitAt, valueBit, hdiv, hmod, hindex, hoff] at hbit

theorem Stores.byte_outside {c c' : Cmos} (h : Stores k c c' bit length value) (ha : a < 256)
    (hout : ∀ j < 8, ¬ (bit ≤ 8 * a + j ∧ 8 * a + j < bit + length)) (hlo : a ≠ k.loc)
    (hhi : a ≠ k.loc + 1) : c' a = c a := by
  refine byte_eq_of_bits fun j hj => ?_
  have hdiv : (8 * a + j) / 8 = a := by omega
  exact h.outside _ (by omega) (hout j hj) (hdiv.symm ▸ hlo) (hdiv.symm ▸ hhi)

theorem Sets.terminator_zero {value : List Byte} {c₁ c' : Cmos} (hk : k.Placed)
    (h : Sets k zeroCmos c₁ c' o value) (ho : OptionPlaced k o) (hlong : 8 < o.copied) :
    (∀ a, k.InRange a → c₁ a = 0) ∧ c₁ k.loc = 0 ∧ c₁ (k.loc + 1) = 0 := by
  have hterm := h.terminator
  split at hterm
  case isFalse => exact hterm.symm ▸ ⟨fun _ _ => rfl, rfl, rfl⟩
  case isTrue hs =>
    rw [CmosEntries.copied, if_pos hs] at hlong
    have hwhole := ho.field.long (by omega)
    have halign : (o.bit + o.length - 8) % 8 = 0 := by omega
    have hzero : ∀ a, k.InRange a → c₁ a = 0 := by
      intro a ha
      obtain ⟨hlo, hhi⟩ := hk.ne_loc ha
      by_cases hin : a = (o.bit + o.length - 8) / 8
      · have hfirst : a - (o.bit + o.length - 8) / 8 = 0 := by omega
        rw [@Stores.byte k _ 1 [0] a zeroCmos c₁ hterm halign (by omega), hfirst]
        rfl
      · exact hterm.byte_outside (Nat.lt_of_le_of_lt ha.2 hk.rangeEnd) (fun j hj => by omega) hlo hhi
    refine ⟨hzero, ?_⟩
    by_cases hin : k.InRange (testedByte (o.bit + o.length - 8) 8)
    · have hsum := (valid_iff hk).mp (hterm.summed hin)
      have hnone : cksSum c₁ k = 0 := by
        have hstart : k.InRange k.rangeStart := ⟨Nat.le_refl _, hk.range⟩
        rw [cksSum_single hk hstart fun a ha _ => hzero a ha, hzero _ hstart]
        rfl
      rw [hnone] at hsum
      exact ⟨BitVec.eq_of_toNat_eq (by show _ = 0; omega), BitVec.eq_of_toNat_eq (by show _ = 0; omega)⟩
    · exact hterm.unsummed hin

/-- A copy that ends the summed bytes leaves an old sum. -/
theorem not_roundTrip_of_unsafe (hk : k.Placed) (hfind : ct.bind (findEntry o.name) = some o)
    (ho : OptionPlaced k o) (hbad : ¬ Safe k o) : ¬ RoundTrip k ct o := by
  intro h
  unfold Safe at hbad
  push Not at hbad
  obtain ⟨hlong, hpast, hbefore⟩ := hbad
  -- ones up to the first byte that is summed
  let m := max (o.bit / 8) k.rangeStart
  let value : List Byte := List.replicate (m - o.bit / 8 + 1) 1
  have hle := Nat.div_mul_le_self o.copied 8
  have hm : k.InRange m := ⟨Nat.le_max_right _ _, Nat.max_le.mpr ⟨hbefore, hk.range⟩⟩
  have hmle : o.bit / 8 ≤ m := Nat.le_max_left _ _
  have hmend : m ≤ k.rangeEnd := hm.2
  have hfits : Fits o value := by
    unfold Fits
    split
    case isTrue hs =>
      have hlen : strlen value = m - o.bit / 8 + 1 := by
        rw [strlen_of_terminated fun b hb => ?_, List.length_replicate]
        rw [List.eq_of_mem_replicate hb]
        decide
      rw [CmosEntries.copied, if_pos hs] at hpast hlong hle
      rw [hlen]
      omega
    case isFalse hs =>
      rw [CmosEntries.copied, if_neg hs] at hlong
      exact fun hshort => absurd hshort (Nat.not_le.mpr hlong)
  obtain ⟨hresult, c₁, hsets⟩ := setOption_sets hk zeroCmos hfind ho hfits
  obtain ⟨-, -, hvalid⟩ := h zeroCmos (valid_zeroCmos hk) value hfits hresult
  obtain ⟨hzero, hzlo, hzhi⟩ := hsets.terminator_zero hk ho hlong
  obtain ⟨hcopied, -⟩ := ho.copied hfits.string_length
  obtain ⟨halign, hwhole⟩ := hcopied.long hlong
  have hcopy := hsets.copy
  obtain ⟨n, hn⟩ := Nat.dvd_of_mod_eq_zero hwhole
  rw [hn] at hcopy hpast
  rw [Nat.mul_div_cancel_left n (by decide)] at hpast
  have htested : ¬ k.InRange (testedByte o.bit (8 * n)) := by
    rw [testedByte, if_neg (hn ▸ Nat.not_le.mpr hlong), Nat.mul_div_cancel_left n (by decide)]
    exact fun hin => absurd hin.2 (Nat.not_le.mpr hpast)
  obtain ⟨hlo, hhi⟩ := hcopy.unsummed htested
  have hbyte : ∀ a, o.bit / 8 ≤ a → k.InRange a →
      (setOption k ct zeroCmos o.name value).2 a = value.getD (a - o.bit / 8) 0 :=
    fun a hge ha => hcopy.byte halign ⟨hge, Nat.lt_of_le_of_lt ha.2 hpast⟩
  have hone : (setOption k ct zeroCmos o.name value).2 m = 1 := by
    rw [hbyte m hmle hm]
    exact List.getD_replicate 1 (Nat.lt_succ_self _)
  have hrest : ∀ a, k.InRange a → a ≠ m → (setOption k ct zeroCmos o.name value).2 a = 0 := by
    intro a ha hne
    have hstart := ha.1
    by_cases hge : o.bit / 8 ≤ a
    · rw [hbyte a hge ha]
      refine List.getD_eq_default _ _ ?_
      rw [List.length_replicate]
      omega
    · obtain ⟨hne_lo, hne_hi⟩ := hk.ne_loc ha
      rw [hcopy.byte_outside (Nat.lt_of_le_of_lt ha.2 hk.rangeEnd) (fun j hj => by omega) hne_lo hne_hi]
      exact hzero a ha
  have hsum := (valid_iff hk).mp hvalid
  rw [cksSum_single hk hm hrest, hone, hlo, hhi, hzlo, hzhi] at hsum
  exact absurd hsum (by decide)

end Converse

-- ---------------------------------------------------------------------------
-- The whole layout
-- ---------------------------------------------------------------------------

section Layout

variable {k : Cks} {options : List CmosEntries} {stop : CmosEntries}

theorem Compiled.apart (h : Compiled k options) (ho : o ∈ options) (ho' : o' ∈ options)
    (hne : o ≠ o') : o.bit + o.length ≤ o'.bit ∨ o'.bit + o'.length ≤ o.bit := by
  have : Std.Symm fun o o' :
    CmosEntries => o.bit + o.length ≤ o'.bit ∨ o'.bit + o'.length ≤ o.bit :=
    ⟨fun _ _ hap => hap.symm⟩
  exact h.disjoint.forall ho ho' hne

theorem firstNamed_self (ho : o ∈ options) :
    ∃ found ∈ options, firstNamed o.name options = some found := by
  have hsome : (firstNamed o.name options).isSome = true := by
    rw [firstNamed, List.find?_isSome]
    exact ⟨o, ho, List.isPrefixOf_iff_prefix.mpr (List.prefix_refl _)⟩
  obtain ⟨found, hfound⟩ := Option.isSome_iff_exists.mp hsome
  exact ⟨found, List.mem_of_find?_eq_some hfound, hfound⟩

theorem roundTrip_iff_keeps (h : Compiled k options) (hstop : stop.tag ≠ lbTagOption)
    (ho : o ∈ options) : RoundTrip k (layoutOf options stop) o ↔ Keeps k options o := by
  have hplaced := h.option ho
  obtain ⟨found, hmem, hfirst⟩ := firstNamed_self ho
  have hfound := h.option hmem
  have hfind : (layoutOf options stop).bind (findEntry o.name) = some found :=
    (findEntry_options h.tags h.terminated hstop (h.terminated o ho).2).trans hfirst
  constructor
  · intro hround
    by_cases hshort : o.isShortString
    · exact Or.inl hshort
    · refine Or.inr ⟨found, hfirst, or_iff_not_imp_left.mpr fun hlong => ?_⟩
      by_cases heq : found = o
      · subst heq
        exact ⟨rfl, not_not.mp fun hbad =>
          not_roundTrip_of_unsafe h.checksum hfind hplaced hbad hround⟩
      · exact absurd hround (not_roundTrip_of_other h.checksum hfind hfound hshort hlong
          (h.apart ho hmem (Ne.symm heq)))
  · rintro (hshort | ⟨found', hfirst', hshort | ⟨rfl, hsafe⟩⟩)
    · exact fun c _ value hfits => absurd hfits (not_fits_of_shortString hshort value)
    · obtain rfl := Option.some.inj (hfirst.symm.trans hfirst')
      exact fun c _ value _ hresult =>
        absurd hresult (setOption_shortString hfind hfound.pos hshort c value)
    · obtain rfl := Option.some.inj (hfirst.symm.trans hfirst')
      exact roundTrip_of_safe h.checksum hfind hplaced hsafe

theorem rejects_iff (h : Compiled k options) (hstop : stop.tag ≠ lbTagOption)
    (hname : ∀ b ∈ name, b ≠ 0) :
    Rejects k (layoutOf options stop) name ↔ firstNamed name options = none := by
  have hfind := findEntry_options h.tags h.terminated hstop hname
  cases hfirst : firstNamed name options with
  | none => exact ⟨fun _ => rfl, fun _ => rejects_of_not_found (hfind.trans hfirst)⟩
  | some found =>
    exact ⟨fun hrej => absurd hrej (not_rejects_of_found h.checksum (hfind.trans hfirst)),
      fun hnone => nomatch hnone⟩

end Layout

/-- What the option store promises for a layout. -/
structure StoreKeeps (k : Cks) (options : List CmosEntries) (stop : CmosEntries) : Prop where
  roundTrip : ∀ o ∈ options, RoundTrip k (layoutOf options stop) o
  rejects : ∀ name : List Byte, (∀ b ∈ name, b ≠ 0) → (∀ o ∈ options, o.name ≠ name) →
    Rejects k (layoutOf options stop) name

/-- An option is read back as it was stored, and a name outside the layout is rejected,
exactly where the name finds that option, or none, and the copy of a value does not run
over the end of the checksummed range. -/
theorem stored_read_back_iff {k : Cks} {options : List CmosEntries} {stop : CmosEntries}
    (h : Compiled k options) (hstop : stop.tag ≠ lbTagOption) :
    (∀ o ∈ options, RoundTrip k (layoutOf options stop) o ↔ Keeps k options o) ∧
    ∀ name : List Byte, (∀ b ∈ name, b ≠ 0) → (∀ o ∈ options, o.name ≠ name) →
      (Rejects k (layoutOf options stop) name ↔ ∀ o ∈ options, ¬ name <+: o.name) := by
  refine ⟨fun o ho => roundTrip_iff_keeps h hstop ho, fun name hname _ => ?_⟩
  rw [rejects_iff h hstop hname, firstNamed, List.find?_eq_none]
  simp only [List.isPrefixOf_iff_prefix]

/-- Bytes 49 to 125, with the sum after them. -/
def usualCks : Cks := ⟨49, 125, 126⟩

/-- A number in the low half of byte 49. -/
def levelOption : CmosEntries := ⟨lbTagOption, 392, 4, 'e'.toNat, [0x6c, 0x65, 0x76]⟩

/-- A number in the last three summed bytes. -/
def keyOption : CmosEntries := ⟨lbTagOption, 984, 24, 'h'.toNat, [0x6b, 0x65, 0x79]⟩

def edgeOptions : List CmosEntries := [levelOption, keyOption]

def checksumRecord : CmosEntries := ⟨204, 0, 0, 0, []⟩

theorem compiled_edge : Compiled usualCks edgeOptions := by
  have hplaced : ∀ o ∈ edgeOptions, Placed o.bit o.length ∧ Free usualCks o.bit o.length := by
    intro o ho
    obtain rfl | rfl : o = levelOption ∨ o = keyOption := List.mem_pair.mp ho
    · exact ⟨⟨by decide, by decide, by decide, by decide⟩, by unfold Free; decide⟩
    · exact ⟨⟨by decide, by decide, by decide, by decide⟩, by unfold Free; decide⟩
  exact {
    checksum := ⟨by decide, by decide, by decide, Or.inr (by decide)⟩
    tags := by decide
    names := by decide
    terminated := by decide
    disjoint := by decide
    nonempty := by decide
    placed := fun o ho => (hplaced o ho).1
    free := fun o ho => (hplaced o ho).2 }

theorem stored_read_back_iff_edge :
    RoundTrip usualCks (layoutOf edgeOptions checksumRecord) levelOption ∧
    ¬ RoundTrip usualCks (layoutOf edgeOptions checksumRecord) keyOption ∧
    ¬ Rejects usualCks (layoutOf edgeOptions checksumRecord) [0x6b] := by
  obtain ⟨hround, hrejects⟩ :=
    stored_read_back_iff compiled_edge (show checksumRecord.tag ≠ lbTagOption by decide)
  refine ⟨(hround levelOption (by decide)).mpr ?_, fun h => ?_, fun h => ?_⟩
  · exact Or.inr ⟨levelOption, by decide, Or.inr ⟨rfl, by unfold Safe; decide⟩⟩
  · obtain ⟨-, hshort⟩ | ⟨found, hfirst, hkept⟩ := (hround keyOption (by decide)).mp h
    · exact absurd hshort (by decide)
    · have hkey : firstNamed keyOption.name edgeOptions = some keyOption := by decide
      obtain rfl := Option.some.inj (hkey.symm.trans hfirst)
      obtain ⟨-, hshort⟩ | ⟨-, hsafe⟩ := hkept
      · exact absurd hshort (by decide)
      · unfold Safe at hsafe
        exact absurd hsafe (by decide)
  · exact (hrejects [0x6b] (by decide) (by decide)).mp h keyOption (by decide) ⟨[0x65, 0x79], rfl⟩

/-- Writing the last summed bytes leaves the old sum. -/
theorem not_store_keeps : ¬ ∀ (k : Cks) (options : List CmosEntries) (stop : CmosEntries),
    Compiled k options → stop.tag ≠ lbTagOption → StoreKeeps k options stop := by
  intro h
  have hkeeps := h usualCks edgeOptions checksumRecord compiled_edge (by decide)
  have hmem : keyOption ∈ edgeOptions := by decide
  have hround := hkeeps.roundTrip _ hmem
  refine not_roundTrip_of_unsafe compiled_edge.checksum ?_ (compiled_edge.option hmem) ?_ hround
  · decide
  · unfold Safe
    decide

end ItxLlama.Coreboot.CmosOption
