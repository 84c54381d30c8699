import ItxLlama.Coreboot.SmbiosLaws

/-!
# SMBIOS tables read back

The reader finds each structure where the one before it ends, as long as every
structure ends with two zeroes: those of `eos`, or the last two of its strings.
-/

namespace ItxLlama.Coreboot.Smbios

open Lib.Word Lib.Bytes Lib.StringSet

-- ---------------------------------------------------------------------------
-- Places
-- ---------------------------------------------------------------------------

def bytesOf (m : Nat → Byte) (a n : Nat) : List Byte := (List.range n).map fun i => m (a + i)

theorem bytesOf_has (h : Has m a bytes) : bytesOf m a bytes.length = bytes := by
  unfold bytesOf
  refine List.ext_getElem (by rw [List.length_map, List.length_range]) fun i hi hi' => ?_
  rw [List.getElem_map, List.getElem_range, h i hi', List.getD_eq_getElem _ _ hi']

/-- Each structure with its address. -/
def placed (start : Nat) : List (Nat × Structure) → List (Nat × Structure)
  | [] => []
  | w :: ws => (start, w.2) :: placed (start + (w.2.write w.1).length) ws

def addresses (start : Nat) (ws : List (Nat × Structure)) :
    List Nat := (placed start ws).map Prod.fst

def written (ws : List (Nat × Structure)) : List Byte := ws.flatMap fun w => w.2.write w.1

/-- A structure in memory, with what follows it up to `end_`. -/
structure Located (m : Nat → Byte) (end_ a : Nat) (s : Structure) (body rest : List Byte) :
    Prop where
  bytes : ∃ handle, Wrote s handle body ∧ Has m a (s.header handle ++ body ++ (s.tail ++ rest))
  ends : a + s.formatted + (s.tail.length + rest.length) = end_

section Located

variable {m : Nat → Byte} {s : Structure} {body rest : List Byte}

theorem length_header (s : Structure) (handle : Nat) : (s.header handle).length = 4 := rfl

theorem formatted_lt (s : Structure) : s.formatted < 256 := by
  have hlen := s.length
  unfold Structure.formatted
  omega

theorem Located.length (h : Located m end_ a s body rest) : (m (a + 1)).toNat = s.formatted := by
  obtain ⟨handle, -, hhas⟩ := h.bytes
  rw [List.append_assoc] at hhas
  obtain ⟨hheader, -⟩ := has_append.mp hhas
  have hbyte : m (a + 1) = BitVec.ofNat 8 s.formatted := hheader 1 (by decide : 1 < 4)
  rw [hbyte, BitVec.toNat_ofNat, Nat.mod_eq_of_lt (formatted_lt s)]

theorem Located.field (h : Located m end_ a s body rest) (hb : body[i]? = some b) :
    m (a + 4 + i) = b := by
  obtain ⟨handle, -, hhas⟩ := h.bytes
  rw [List.append_assoc] at hhas
  obtain ⟨-, hafter⟩ := has_append.mp hhas
  obtain ⟨hbody, -⟩ := has_append.mp hafter
  rw [length_header] at hbody
  obtain ⟨hi, rfl⟩ := List.getElem?_eq_some_iff.mp hb
  rw [hbody i hi, List.getD_eq_getElem _ _ hi]

theorem Located.tail (h : Located m end_ a s body rest) :
    Has m (a + s.formatted) (s.tail ++ rest) := by
  obtain ⟨handle, hwrote, hhas⟩ := h.bytes
  obtain ⟨-, hafter⟩ := has_append.mp hhas
  rw [List.length_append, length_header, hwrote.length, Nat.add_comm 4] at hafter
  exact hafter

theorem located_of_mem {ws : List (Nat × Structure)} (hm : Has m start (written ws))
    (h : p ∈ placed start ws) :
      ∃ body rest, Located m (start + (written ws).length) p.1 p.2 body rest := by
  induction ws generalizing start with
  | nil => exact nomatch h
  | cons w ws ih =>
    have hcons : written (w :: ws) = w.2.write w.1 ++ written ws := List.flatMap_cons
    rw [hcons] at hm
    obtain ⟨hhead, hrest⟩ := has_append.mp hm
    rw [hcons, List.length_append, ← Nat.add_assoc]
    obtain rfl | h := List.mem_cons.mp h
    · obtain ⟨body, hwrote⟩ := w.2.wrote w.1
      refine ⟨body, written ws, ⟨w.1, hwrote, ?_⟩, ?_⟩
      · rw [hwrote.write, List.append_assoc] at hm
        exact hm
      · show start + w.2.formatted + (w.2.tail.length + (written ws).length) = start + (w.2.write
          w.1).length + _
        rw [hwrote.write, List.length_append, List.length_append, length_header, hwrote.length,
          Structure.formatted]
        omega
    · exact ih hrest h

end Located

/-- The strings behind the formatted area, as they are found in the table. -/
def stringsAt (m : Nat → Byte) (e : Entry) (a : Nat) : List (List Byte) :=
  let strings := a + (m (a + 1)).toNat
  stringSet (bytesOf m strings (e.structTableAddress + e.structTableLength - strings))

theorem tail_eq (s : Structure) : ∃ more, s.tail = terminated s.set ++ 0 :: more := by
  unfold Structure.tail
  cases hs : s.strings with
  | plain =>
    have hset : s.set = [] := by
      rw [Structure.set, Structure.given, hs]
      rfl
    exact ⟨[0], by rw [hset]; rfl⟩
  | fields fs => exact ⟨[], rfl⟩
  | oem strs => exact ⟨[], rfl⟩

theorem Located.strings {m : Nat → Byte} {e : Entry} (h : Located m end_ a s body rest)
    (hend : e.structTableAddress + e.structTableLength = end_) : stringsAt m e a = s.set := by
  have hlen : end_ - (a + s.formatted) = (s.tail ++ rest).length := by
    rw [← h.ends, List.length_append]
    omega
  obtain ⟨more, htail⟩ := tail_eq s
  unfold stringsAt
  simp only
  rw [h.length, hend, hlen, bytesOf_has h.tail, htail, List.append_assoc]
  exact stringSet_terminated (strings_set s) _

-- ---------------------------------------------------------------------------
-- The scan
-- ---------------------------------------------------------------------------

theorem scanEnd_firstDouble {m : Nat → Byte} {run : List Byte} (h : Has m q run)
    (hlen : 2 ≤ run.length)
    (hend : q + run.length = end_) :
      scanEnd m end_ (end_ - (q + 2)) (q + 2) = q + firstDouble run := by
  induction run generalizing q with
  | nil => exact absurd hlen (by decide)
  | cons a run ih =>
    cases run with
    | nil => exact absurd hlen (Nat.not_le.mpr (Nat.lt_succ_self 1))
    | cons b run =>
      have ha : m q = a := h 0 (Nat.zero_lt_succ _)
      have hb : m (q + 1) = b := h 1 (Nat.succ_lt_succ (Nat.zero_lt_succ _))
      by_cases hzero : a = 0 ∧ b = 0
      · have hfirst : firstDouble (a :: b :: run) = 2 := if_pos hzero
        rw [hfirst]
        cases hfuel : end_ - (q + 2) with
        | zero => rfl
        | succ fuel =>
          refine if_neg ?_
          rintro ⟨-, hne | hne⟩
          · exact hne (hb.trans hzero.2)
          · exact hne (ha.trans hzero.1)
      · have hfirst : firstDouble (a :: b :: run) = firstDouble (b :: run) + 1 := if_neg hzero
        rw [hfirst]
        cases run with
        | nil =>
          have hdone : end_ - (q + 2) = 0 := by
            rw [← hend]
            exact Nat.sub_self _
          rw [hdone]
          rfl
        | cons c run =>
          have htail : Has m (q + 1) (b :: c :: run) := by
            intro i hi
            have hnext := h (i + 1) (Nat.succ_lt_succ hi)
            rw [Nat.add_assoc, Nat.add_comm 1 i]
            exact hnext
          have hend' : q + 1 + (b :: c :: run).length = end_ := by
            rw [← hend, List.length_cons (a := a)]
            omega
          have hlen' : 2 ≤ (b :: c :: run).length := Nat.le_add_left 2 _
          have hrest := ih htail hlen' hend'
          have hfuel : end_ - (q + 2) = end_ - (q + 1 + 2) + 1 := by
            rw [List.length_cons, List.length_cons] at hend'
            omega
          have hgo : q + 2 < end_ ∧ (m (q + 2 - 1) ≠ 0 ∨ m (q + 2 - 2) ≠ 0) := by
            refine ⟨by omega, ?_⟩
            by_cases hone : b = 0
            · right
              exact fun hq => hzero ⟨ha.symm.trans hq, hone⟩
            · left
              exact fun hq => hone (hb.symm.trans hq)
          rw [hfuel, scanEnd, if_pos hgo]
          have hplace : q + 2 + 1 = q + 1 + 2 := by omega
          rw [hplace, hrest]
          omega

theorem scanEnd_ge (m : Nat → Byte) (end_ fuel prev : Nat) : prev ≤ scanEnd m end_ fuel prev := by
  induction fuel generalizing prev with
  | zero => exact Nat.le_refl _
  | succ fuel ih =>
    rw [scanEnd]
    split
    · exact Nat.le_trans (Nat.le_succ _) (ih (prev + 1))
    · exact Nat.le_refl _

end ItxLlama.Coreboot.Smbios
