import ItxLlama.Coreboot.SmbiosTables
import ItxLlama.Lib.Checked

/-!
# The SMBIOS iterator

`smbios_next` and `display_uuid` of `fw/biostables.c`: every byte they look at
is a checked read of the structure table, and pointers have 32 bits.
-/

namespace ItxLlama.Seabios.Smbios

open Lib.Word Lib.Bytes Lib.StringSet Lib.Checked
open Coreboot.Smbios (Entry sizeofHeader)

section Code

variable (read : Nat → Guarded Byte)

/-- The bytes before `end_` up to the end of a structure are skipped. -/
def scanEnd (end_ : Nat) : (turns prev : Nat) → Guarded Nat
  | 0, _ => throw .turns
  | turns + 1, prev =>
    if prev < end_ then do
      if (← read (u32 (prev + 2 ^ 32 - 1))) ≠ 0 then scanEnd end_ turns (u32 (prev + 1))
      else if (← read (u32 (prev + 2 ^ 32 - 2))) ≠ 0 then scanEnd end_ turns (u32 (prev + 1))
      else return prev
    else return prev

/-- A pointer the C code tests: address 0 is `NULL`. -/
def pointer (a : Nat) : Option Nat := if a = 0 then none else some a

/-- The tests on the structure found. -/
def checkNext (end_ prev : Nat) : Guarded (Option Nat) := do
  if prev ≥ end_ then return none
  if u32 (prev + sizeofHeader) ≥ end_ then return none
  if u32 (prev + (← read (prev + 1)).toNat) ≥ end_ then return none
  return pointer prev

def smbiosNext (turns : Nat) (smbios : Option Entry) (prev : Option Nat) :
    Guarded (Option Nat) := do
  let some smbios := smbios | return none
  let start := smbios.structTableAddress
  let end_ := u32 (start + smbios.structTableLength)
  match prev with
  | none => checkNext read end_ start
  | some prev =>
    if u32 (prev + sizeofHeader) > end_ then return none
    let length := (← read (prev + 1)).toNat
    checkNext read end_ (← scanEnd read end_ turns (u32 (prev + (length + 2))))

/-- All that `smbios_next` finds from `prev` on. -/
def smbiosAll (smbios : Option Entry) : (turns : Nat) → (prev : Option Nat) → Guarded (List Nat)
  | 0, _ => throw .turns
  | turns + 1, prev => do
    let some tbl ← smbiosNext read turns smbios prev | return []
    return tbl :: (← smbiosAll smbios turns (some tbl))

/-- `offsetof(struct smbios_type_1, uuid)` -/
def uuidOffset : Nat := 8

def minlen : Nat := uuidOffset + 16

def displayUuidLoop (smbios : Option Entry) :
    (turns : Nat) → Option Nat → Guarded (Option (List Byte))
  | _, none => return none
  | 0, some _ => throw .turns
  | turns + 1, some tbl => do
    if (← read tbl) = 1 then
      if (← read (tbl + 1)).toNat ≥ minlen then
        let uuid ← (List.range 16).mapM fun i => read (tbl + uuidOffset + i)
        if uuid = List.replicate 16 0 then return none
        return some uuid
    displayUuidLoop smbios turns (← smbiosNext read turns smbios (some tbl))

def displayUuid (smbios : Option Entry) (turns : Nat) : Guarded (Option (List Byte)) := do
  displayUuidLoop read smbios turns (← smbiosNext read turns smbios none)

end Code

-- ---------------------------------------------------------------------------
-- The reads stay in the table
-- ---------------------------------------------------------------------------

def readTable (m : Nat → Byte) (e : Entry) : Nat → Guarded Byte :=
  readIn e.structTableAddress (e.structTableAddress + e.structTableLength) m

/-- What a structure's length leads to beyond the table has an address. -/
def EndsBelow (e : Entry) : Prop := e.structTableAddress + e.structTableLength + 257 ≤ 2 ^ 32

section Reads

variable {m : Nat → Byte} {e : Entry} {lo hi prev turns : Nat}

theorem scanEnd_ok (hlo : lo + 2 ≤ prev) (hhi : hi < 2 ^ 32) (hturns : hi - prev < turns) :
    scanEnd (readIn lo hi m) hi turns prev = .ok (Coreboot.Smbios.scanEnd m hi (hi - prev) prev) := by
  induction turns generalizing prev with
  | zero => exact absurd hturns (Nat.not_lt_zero _)
  | succ turns ih =>
    unfold scanEnd
    split
    case isFalse hend =>
      have hnone : hi - prev = 0 := Nat.sub_eq_zero_of_le (Nat.le_of_not_lt hend)
      rw [hnone]
      rfl
    case isTrue hin =>
      have hleft : hi - prev = hi - (prev + 1) + 1 := by omega
      have hone : u32 (prev + 2 ^ 32 - 1) = prev - 1 := by unfold u32; omega
      have htwo : u32 (prev + 2 ^ 32 - 2) = prev - 2 := by unfold u32; omega
      have hnext : u32 (prev + 1) = prev + 1 := u32_eq (by omega)
      have hrest : scanEnd (readIn lo hi m) hi turns (prev + 1) =
          .ok (Coreboot.Smbios.scanEnd m hi (hi - (prev + 1)) (prev + 1)) :=
        ih (by omega) (by omega)
      have hread (k : Nat) (hk : k ≤ 2) : readIn lo hi m (prev - k) = .ok (m (prev - k)) :=
        readIn_ok (by omega) (by omega)
      rw [hone, htwo, hnext, hread 1 (by decide), hread 2 (by decide), hrest, hleft]
      rw [ok_bind, ok_bind, Coreboot.Smbios.scanEnd]
      by_cases h1 : m (prev - 1) = 0
      · rw [if_neg (not_not.mpr h1)]
        by_cases h2 : m (prev - 2) = 0
        · rw [if_neg (not_not.mpr h2), if_neg (fun h => h.2.elim (· h1) (· h2))]
          rfl
        · rw [if_pos h2, if_pos ⟨hin, Or.inr h2⟩]
      · rw [if_pos h1, if_pos ⟨hin, Or.inl h1⟩]

theorem pointer_of_ne (h : a ≠ 0) : pointer a = some a := if_neg h

theorem checkNext_ok (hend : hi = e.structTableAddress + e.structTableLength) (he : EndsBelow e)
    (hlo : e.structTableAddress ≤ prev) :
    checkNext (readTable m e) hi prev =
      .ok ((Coreboot.Smbios.checkNext m e prev).bind pointer) := by
  unfold EndsBelow at he
  unfold checkNext Coreboot.Smbios.checkNext
  simp only
  rw [← hend]
  rcases Nat.lt_or_ge prev hi with hin | hout
  · have hfour : u32 (prev + sizeofHeader) = prev + sizeofHeader :=
      u32_eq (by unfold sizeofHeader; omega)
    rw [if_neg (Nat.not_le.mpr hin), hfour]
    rcases Nat.lt_or_ge (prev + sizeofHeader) hi with hheader | hheader
    · have hread : readTable m e (prev + 1) = .ok (m (prev + 1)) := by
        unfold sizeofHeader at hheader
        exact readIn_ok (by omega) (by omega)
      have hlength : u32 (prev + (m (prev + 1)).toNat) = prev + (m (prev + 1)).toNat := by
        have := (m (prev + 1)).isLt
        exact u32_eq (by omega)
      rw [if_neg (Nat.not_le.mpr hheader), hread, ok_bind, hlength]
      simp only [ge_iff_le, Nat.not_le.mpr hin, Nat.not_le.mpr hheader, false_or]
      split <;> rfl
    · rw [if_pos hheader, if_pos (Or.inr (Or.inl hheader))]
      rfl
  · rw [if_pos hout, if_pos (Or.inl hout)]
    rfl

/-- A structure that the walk is at starts in the table. -/
def InTable (e : Entry) (prev : Option Nat) : Prop :=
  ∀ p ∈ prev, e.structTableAddress ≤ p ∧ p < e.structTableAddress + e.structTableLength

theorem checkNext_bind_pointer (h : a ≠ 0) :
    (Coreboot.Smbios.checkNext m e a).bind pointer = Coreboot.Smbios.checkNext m e a := by
  unfold Coreboot.Smbios.checkNext
  simp only
  split
  case isTrue => rfl
  case isFalse => exact pointer_of_ne h

/-- A table at address 0 has no structure that `smbios_next` returns. -/
theorem smbiosNext_null (he : EndsBelow e) (hzero : e.structTableAddress = 0) (turns : Nat) :
    smbiosNext (readTable m e) turns (some e) none = .ok none := by
  have hend : u32 (e.structTableAddress + e.structTableLength) =
      e.structTableAddress + e.structTableLength := by
    unfold EndsBelow at he
    exact u32_eq (by omega)
  show checkNext _ (u32 _) _ = _
  rw [hend, checkNext_ok rfl he (Nat.le_refl _), hzero]
  unfold Coreboot.Smbios.checkNext
  simp only
  split <;> rfl

theorem smbiosNext_ok (he : EndsBelow e) (hpos : e.structTableAddress ≠ 0) {prev : Option Nat}
    (hprev : InTable e prev) (hturns : e.structTableLength < turns) :
    smbiosNext (readTable m e) turns (some e) prev = .ok (Coreboot.Smbios.smbiosNext m e prev) := by
  have hend : u32 (e.structTableAddress + e.structTableLength) =
      e.structTableAddress + e.structTableLength := by
    unfold EndsBelow at he
    exact u32_eq (by omega)
  cases prev with
  | none =>
    rw [Coreboot.Smbios.smbiosNext_none]
    show checkNext _ (u32 _) _ = _
    rw [hend, checkNext_ok rfl he (Nat.le_refl _), checkNext_bind_pointer hpos]
  | some p =>
    obtain ⟨hlo, hhi⟩ := hprev p rfl
    unfold EndsBelow at he
    have hfour : u32 (p + sizeofHeader) = p + sizeofHeader := u32_eq (by unfold sizeofHeader; omega)
    unfold smbiosNext Coreboot.Smbios.smbiosNext
    simp only
    rw [hend, hfour]
    split
    case isTrue => rfl
    case isFalse hheader =>
      unfold sizeofHeader at hheader
      have hlen := (m (p + 1)).isLt
      have hread : readTable m e (p + 1) = .ok (m (p + 1)) := readIn_ok (by omega) (by omega)
      have hskip : u32 (p + ((m (p + 1)).toNat + 2)) = p + (m (p + 1)).toNat + 2 := by
        rw [← Nat.add_assoc]
        exact u32_eq (by omega)
      have hscan : scanEnd (readTable m e) (e.structTableAddress + e.structTableLength) turns
          (p + (m (p + 1)).toNat + 2) = .ok (Coreboot.Smbios.scanEnd m
            (e.structTableAddress + e.structTableLength)
            (e.structTableAddress + e.structTableLength - (p + (m (p + 1)).toNat + 2))
            (p + (m (p + 1)).toNat + 2)) :=
        scanEnd_ok (by omega) (by omega) (by omega)
      rw [hread, ok_bind, hskip]
      show scanEnd (readTable m e) _ _ _ >>= _ = _
      rw [hscan, ok_bind]
      have hge := Coreboot.Smbios.scanEnd_ge m (e.structTableAddress + e.structTableLength)
        (e.structTableAddress + e.structTableLength - (p + (m (p + 1)).toNat + 2))
        (p + (m (p + 1)).toNat + 2)
      rw [checkNext_ok rfl (by unfold EndsBelow; omega) (by omega),
        checkNext_bind_pointer (by omega)]
      rfl

end Reads

-- ---------------------------------------------------------------------------
-- The walk ends
-- ---------------------------------------------------------------------------

section Walk

variable {m : Nat → Byte} {e : Entry}

theorem checkNext_eq_some (h : Coreboot.Smbios.checkNext m e p = some a) :
    a = p ∧ a + sizeofHeader < e.structTableAddress + e.structTableLength ∧
      a + (m (a + 1)).toNat < e.structTableAddress + e.structTableLength := by
  unfold Coreboot.Smbios.checkNext at h
  simp only at h
  split at h
  case isTrue => exact nomatch h
  case isFalse hfits =>
    cases h
    obtain ⟨-, hrest⟩ := not_or.mp hfits
    obtain ⟨hheader, hlength⟩ := not_or.mp hrest
    exact ⟨rfl, Nat.lt_of_not_le hheader, Nat.lt_of_not_le hlength⟩

structure Found (m : Nat → Byte) (e : Entry) (a : Nat) : Prop where
  start : e.structTableAddress ≤ a
  header : a + sizeofHeader < e.structTableAddress + e.structTableLength
  length : a + (m (a + 1)).toNat < e.structTableAddress + e.structTableLength

theorem Found.inTable (h : Found m e a) : InTable e (some a) := by
  rintro p ⟨⟩
  have := h.header
  exact ⟨h.start, by omega⟩

theorem smbiosNext_found {prev : Option Nat} (hprev : InTable e prev)
    (h : Coreboot.Smbios.smbiosNext m e prev = some a) : Found m e a ∧ ∀ p ∈ prev, p < a := by
  cases prev with
  | none =>
    rw [Coreboot.Smbios.smbiosNext_none] at h
    obtain ⟨rfl, hheader, hlength⟩ := checkNext_eq_some h
    exact ⟨⟨Nat.le_refl _, hheader, hlength⟩, fun _ hp => nomatch hp⟩
  | some p =>
    have hge := Coreboot.Smbios.smbiosNext_ge rfl h
    have hlo := (hprev p rfl).1
    unfold Coreboot.Smbios.smbiosNext at h
    simp only at h
    split at h
    case h_1 => exact nomatch h
    case h_2 q hq =>
      obtain ⟨rfl, hheader, hlength⟩ := checkNext_eq_some (p := q) h
      refine ⟨⟨by omega, hheader, hlength⟩, ?_⟩
      rintro p' ⟨⟩
      omega

/-- How much of the table is left behind a structure. -/
def left (e : Entry) : Option Nat → Nat
  | none => e.structTableLength + 1
  | some p => e.structTableAddress + e.structTableLength - p

theorem left_none (e : Entry) : left e none = e.structTableLength + 1 := rfl

theorem left_some (e : Entry) (p : Nat) :
    left e (some p) = e.structTableAddress + e.structTableLength - p := rfl

theorem left_lt {prev : Option Nat} (hprev : InTable e prev)
    (h : Coreboot.Smbios.smbiosNext m e prev = some a) : left e (some a) < left e prev := by
  obtain ⟨hfound, hlt⟩ := smbiosNext_found hprev h
  have hstart := hfound.start
  have hheader := hfound.header
  unfold sizeofHeader at hheader
  rw [left_some]
  cases prev with
  | none =>
    rw [left_none]
    omega
  | some p =>
    have := hlt p rfl
    rw [left_some]
    omega

theorem enumerates_exists (m : Nat → Byte) (e : Entry) {prev : Option Nat} (hprev : InTable e prev)
    :
    ∃ tbls, Coreboot.Smbios.Enumerates m e prev tbls ∧ tbls.length ≤ left e prev := by
  induction hn : left e prev using Nat.strong_induction_on generalizing prev with
  | _ n ih =>
    cases hnext : Coreboot.Smbios.smbiosNext m e prev with
    | none => exact ⟨[], hnext, Nat.zero_le _⟩
    | some a =>
      have hfound := (smbiosNext_found hprev hnext).1
      have hlt := left_lt hprev hnext
      obtain ⟨tbls, htbls, hlen⟩ := ih (left e (some a)) (by omega) hfound.inTable rfl
      exact ⟨a :: tbls, ⟨hnext, htbls⟩, by rw [List.length_cons]; omega⟩

theorem smbiosAll_ok (he : EndsBelow e) (hpos : e.structTableAddress ≠ 0) {prev : Option Nat}
    (hprev : InTable e prev)
    (h : Coreboot.Smbios.Enumerates m e prev tbls)
    (hturns : e.structTableLength + tbls.length + 1 < turns) :
    smbiosAll (readTable m e) (some e) turns prev = .ok tbls := by
  induction tbls generalizing turns prev with
  | nil =>
    obtain ⟨turns, rfl⟩ : ∃ n, turns = n + 1 := ⟨turns - 1, by omega⟩
    rw [smbiosAll, smbiosNext_ok he hpos hprev (by omega), ok_bind, show _ = none from h]
    rfl
  | cons a tbls ih =>
    rw [List.length_cons] at hturns
    obtain ⟨turns, rfl⟩ : ∃ n, turns = n + 1 := ⟨turns - 1, by omega⟩
    obtain ⟨hnext, hrest⟩ := h
    have hfound := (smbiosNext_found hprev hnext).1
    rw [smbiosAll, smbiosNext_ok he hpos hprev (by omega), ok_bind, hnext]
    show smbiosAll _ _ turns (some a) >>= _ = _
    rw [ih hfound.inTable hrest (by omega)]
    rfl

theorem displayUuidLoop_none (read : Nat → Guarded Byte) (smbios : Option Entry) (turns : Nat) :
    displayUuidLoop read smbios turns none = .ok none := by
  cases turns <;> rfl

theorem displayUuidLoop_ok (he : EndsBelow e) (hpos : e.structTableAddress ≠ 0)
    (hfound : Found m e a) (hturns : e.structTableLength + left e (some a) < turns) :
    ∃ r, displayUuidLoop (readTable m e) (some e) turns (some a) = .ok r := by
  induction turns generalizing a with
  | zero => exact absurd hturns (Nat.not_lt_zero _)
  | succ turns ih =>
    have hstart := hfound.start
    have hheader := hfound.header
    have hlength := hfound.length
    unfold sizeofHeader at hheader
    have hleft : 0 < left e (some a) := by
      rw [left_some]
      omega
    have hread (i : Nat) (hi : a + i < e.structTableAddress + e.structTableLength) :
        readTable m e (a + i) = .ok (m (a + i)) := readIn_ok (by omega) hi
    have hgo : ∃ r, (smbiosNext (readTable m e) turns (some e) (some a) >>=
        displayUuidLoop (readTable m e) (some e) turns) = .ok r := by
      rw [smbiosNext_ok he hpos hfound.inTable (by omega), ok_bind]
      cases hnext : Coreboot.Smbios.smbiosNext m e (some a) with
      | none => exact ⟨none, displayUuidLoop_none _ _ _⟩
      | some b =>
        have hlt := left_lt hfound.inTable hnext
        exact ih (smbiosNext_found hfound.inTable hnext).1 (by omega)
    unfold displayUuidLoop
    rw [show readTable m e a = .ok (m a) from hread 0 (by omega), ok_bind, hread 1 (by omega)]
    split
    case isFalse => exact hgo
    case isTrue =>
      rw [ok_bind]
      split
      case isFalse => exact hgo
      case isTrue hmin =>
        have huuid : (List.range 16).mapM (fun i => readTable m e (a + uuidOffset + i)) =
            .ok ((List.range 16).map fun i => m (a + uuidOffset + i)) := by
          refine mapM_ok fun i hi => ?_
          rw [Nat.add_assoc]
          refine hread _ ?_
          have := List.mem_range.mp hi
          unfold minlen uuidOffset at hmin
          unfold uuidOffset
          omega
        rw [huuid, ok_bind]
        split
        · exact ⟨_, rfl⟩
        · exact ⟨_, rfl⟩

theorem displayUuid_ok (he : EndsBelow e) (m : Nat → Byte) :
    ∃ turns r, displayUuid (readTable m e) (some e) turns = .ok r := by
  have hnone : InTable e none := fun _ hp => nomatch hp
  refine ⟨2 * e.structTableLength + 1, ?_⟩
  unfold displayUuid
  by_cases hpos : e.structTableAddress = 0
  · rw [smbiosNext_null he hpos, ok_bind]
    exact ⟨none, displayUuidLoop_none _ _ _⟩
  · rw [smbiosNext_ok he hpos hnone (by omega), ok_bind]
    cases hnext : Coreboot.Smbios.smbiosNext m e none with
    | none => exact ⟨none, displayUuidLoop_none _ _ _⟩
    | some a =>
      have hlt := left_lt hnone hnext
      rw [left_none] at hlt
      exact displayUuidLoop_ok he hpos (smbiosNext_found hnone hnext).1 (by omega)

end Walk

-- ---------------------------------------------------------------------------
-- Tables of well-formed structures
-- ---------------------------------------------------------------------------

/-- A structure: its formatted area, header included, and its strings. -/
structure TableStructure where
  formatted : List Byte
  strings : List (List Byte)
  four_le : 4 ≤ formatted.length
  length_eq : (formatted.getD 1 0).toNat = formatted.length
  nonempty : ∀ s ∈ strings, s ≠ []
  noZero : ∀ s ∈ strings, (0 : Byte) ∉ s

namespace TableStructure

/-- Strings end with a zero and the structure with one more; without strings it ends with two. -/
def tail (s : TableStructure) : List Byte :=
  if s.strings = [] then [0, 0] else terminated s.strings ++ [0]

def bytes (s : TableStructure) : List Byte := s.formatted ++ s.tail

theorem firstDouble_tail (s : TableStructure) (rest : List Byte) :
    firstDouble (s.tail ++ rest) = s.tail.length := by
  unfold tail
  split
  case isTrue => exact firstDouble_zeros rest
  case isFalse hne =>
    rw [List.append_assoc, List.length_append]
    exact firstDouble_separated s.nonempty s.noZero hne rest

theorem two_le_tail (s : TableStructure) : 2 ≤ s.tail.length := by
  unfold tail
  split
  case isTrue => exact Nat.le_refl 2
  case isFalse hne =>
    have hlen := length_terminated_ge s.strings
    have hpos := List.length_pos_iff.mpr hne
    rw [List.length_append, List.length_singleton]
    omega

end TableStructure

def tableBytes (ss : List TableStructure) : List Byte := ss.flatMap TableStructure.bytes

def starts (start : Nat) : List TableStructure → List Nat
  | [] => []
  | s :: ss => start :: starts (start + s.bytes.length) ss

section WellFormed

variable {m : Nat → Byte} {e : Entry}

theorem enumerates_starts {ss : List TableStructure} (hm : Has m a (tableBytes ss))
    (hend : e.structTableAddress + e.structTableLength = a + (tableBytes ss).length)
    {prev : Option Nat} (hprev : Coreboot.Smbios.smbiosNext m e prev = Coreboot.Smbios.checkNext m e a) :
    Coreboot.Smbios.Enumerates m e prev (starts a ss) := by
  induction ss generalizing a prev with
  | nil =>
    refine hprev.trans (if_pos (Or.inl ?_))
    rw [hend]
    exact Nat.le_refl _
  | cons s ss ih =>
    have hcons : tableBytes (s :: ss) = s.bytes ++ tableBytes ss := List.flatMap_cons
    rw [hcons, List.length_append] at hend
    rw [hcons] at hm
    obtain ⟨hs, hrest⟩ := has_append.mp hm
    have hsize : s.bytes.length = s.formatted.length + s.tail.length := List.length_append
    have hfour := s.four_le
    have htwo := s.two_le_tail
    have hlength : (m (a + 1)).toNat = s.formatted.length := by
      have hbyte := (has_append.mp hs).1 1 (by omega)
      rw [hbyte, ← s.length_eq, List.getD_eq_getElem _ _ (by omega)]
    have hheader : ¬ a + sizeofHeader > e.structTableAddress + e.structTableLength := by
      unfold sizeofHeader
      omega
    refine ⟨hprev.trans ?_, ih hrest (by omega) ?_⟩
    · unfold Coreboot.Smbios.checkNext
      simp only
      rw [hlength]
      refine if_neg ?_
      unfold sizeofHeader
      omega
    · have htail : Has m (a + s.formatted.length) (s.tail ++ tableBytes ss) := by
        refine has_append.mpr ⟨(has_append.mp hs).2, ?_⟩
        rw [Nat.add_assoc, ← hsize]
        exact hrest
      have hend : a + s.formatted.length + (s.tail ++ tableBytes ss).length =
          e.structTableAddress + e.structTableLength := by
        rw [List.length_append]
        omega
      have hscan := Coreboot.Smbios.scanEnd_firstDouble htail (by rw [List.length_append]; omega) hend
      rw [s.firstDouble_tail] at hscan
      unfold Coreboot.Smbios.smbiosNext
      simp only
      rw [if_neg hheader, hlength, hscan, hsize, ← Nat.add_assoc]
      rfl

/-- The walk over the table ends and reads nothing outside the table, and so does the search for
the UUID; of a table of well-formed structures the walk finds each one's start. Only a table at
address 0 has a start that is `NULL`. -/
theorem smbios_iteration (m : Nat → Byte) (e : Entry) (he : EndsBelow e) :
    (∃ turns tbls, smbiosAll (readTable m e) (some e) turns none = .ok tbls) ∧
    (∃ turns r, displayUuid (readTable m e) (some e) turns = .ok r) ∧
    ∀ ss : List TableStructure, e.structTableAddress ≠ 0 →
      Has m e.structTableAddress (tableBytes ss) → e.structTableLength = (tableBytes ss).length →
      ∃ turns, smbiosAll (readTable m e) (some e) turns none = .ok (starts e.structTableAddress ss) := by
  have hnone : InTable e none := fun _ hp => nomatch hp
  refine ⟨?_, displayUuid_ok he m, fun ss hpos hm hlen => ?_⟩
  · by_cases hpos : e.structTableAddress = 0
    · refine ⟨1, [], ?_⟩
      rw [smbiosAll, smbiosNext_null he hpos, ok_bind]
      rfl
    · obtain ⟨tbls, htbls, -⟩ := enumerates_exists m e hnone
      exact ⟨_, tbls, smbiosAll_ok he hpos hnone htbls (Nat.lt_succ_self _)⟩
  · have hstarts := enumerates_starts hm (e := e) (by rw [hlen])
      (Coreboot.Smbios.smbiosNext_none (m := m) (e := e))
    exact ⟨_, smbiosAll_ok he hpos hnone hstarts (Nat.lt_succ_self _)⟩

-- a structure without strings and one with the strings "A" and "BC"
def plainStructure : TableStructure :=
    ⟨[1, 5, 0, 0, 0xff], [], by decide, by decide, by decide, by decide⟩
def namedStructure : TableStructure :=
  ⟨[2, 6, 1, 0, 1, 2], [[0x41], [0x42, 0x43]], by decide, by decide, by decide, by decide⟩

def twoBytes (a : Nat) : Byte := (tableBytes [plainStructure, namedStructure]).getD (a - 0xf5000) 0

theorem smbios_iteration_two : EndsBelow ⟨0xf5000, 19, 2⟩ ∧
    ∃ turns, smbiosAll (readTable twoBytes ⟨0xf5000, 19, 2⟩) (some ⟨0xf5000, 19, 2⟩) turns none =
      .ok [0xf5000, 0xf5007] := by
  have he : EndsBelow ⟨0xf5000, 19, 2⟩ := by
    unfold EndsBelow
    decide
  refine ⟨he, (smbios_iteration twoBytes ⟨0xf5000, 19, 2⟩ he).2.2 [plainStructure, namedStructure]
    (by decide) ?_ rfl⟩
  intro i hi
  rw [twoBytes, Nat.add_sub_cancel_left, List.getD_eq_getElem _ _ hi]

end WellFormed

end ItxLlama.Seabios.Smbios
