import ItxLlama.Coreboot.MemrangeLaws
import Mathlib.Order.Monotone.Basic

/-!
# Fixed MTRRs

`calc_fixed_mtrrs` of `cpu/x86/mtrr/mtrr.c`. Addresses are page numbers in 32
bits. The pointer into `fixed_mtrr_desc` is the rest of the array; `none`
stands for a read past its end and for a write past the end of
`fixed_mtrr_types`. The bits that some CPUs have in the type of write-back
memory are a parameter.
-/

namespace ItxLlama.Coreboot

open Lib.Word Lib.Ranges

def rangeShift : Nat := 12

def physToRangeAddr (x : Nat) : Nat := x / 2 ^ rangeShift

def numFixedRanges : Nat := 88

def mtrrTypeUncacheable : BitVec 8 := 0
def mtrrTypeWrback : BitVec 8 := 6

structure FixedMtrrDesc where
  begin_ : Nat
  end_ : Nat
  step : Nat
  rangeIndex : Nat
  deriving DecidableEq

def fixedMtrrDesc : List FixedMtrrDesc := [
  ⟨physToRangeAddr 0x000000, physToRangeAddr 0x080000, physToRangeAddr (64 * 1024), 0⟩,
  ⟨physToRangeAddr 0x080000, physToRangeAddr 0x0C0000, physToRangeAddr (16 * 1024), 8⟩,
  ⟨physToRangeAddr 0x0C0000, physToRangeAddr 0x100000, physToRangeAddr (4 * 1024), 24⟩]

def lastDescEnd : Nat := physToRangeAddr 0x100000

/-- The addresses of an entry; its end is exclusive here. -/
def rangeEntryBaseMtrrAddr (r : RangeEntry) : Nat := u32 (physToRangeAddr r.begin_)

def rangeEntryEndMtrrAddr (r : RangeEntry) : Nat := u32 (physToRangeAddr (u64 (r.end_ + 1)))

section
variable (fixedWrbackBits : BitVec 8)

/-- The type that is stored for a tag. -/
def fixedType (tag : Nat) : BitVec 8 :=
  let type := BitVec.ofNat 8 tag
  if type = mtrrTypeWrback then type ||| fixedWrbackBits else type

/-- The inner loop; it ends in the descriptor and the types it leaves. -/
def fixedLoop (tag end_ begin_ typeIndex : Nat) (desc : List FixedMtrrDesc)
    (types : List (BitVec 8)) : Option (List FixedMtrrDesc × List (BitVec 8)) :=
  if begin_ = end_ then some (desc, types)
  else if typeIndex < numFixedRanges then
    match desc with
    | [] => none
    | d :: rest =>
      let types := types.set typeIndex (fixedType fixedWrbackBits tag)
      let begin_ := u32 (begin_ + d.step)
      let desc := if begin_ = d.end_ then rest else d :: rest
      fixedLoop tag end_ begin_ (typeIndex + 1) desc types
  else none
termination_by numFixedRanges - typeIndex

/-- Get to the descriptor of `begin_`. -/
def fixedSeek (begin_ : Nat) (desc : List FixedMtrrDesc) : List FixedMtrrDesc :=
  desc.dropWhile fun d => decide (begin_ ≥ d.end_)

/-- The walk over the entries. -/
def fixedEntries : List RangeEntry → List FixedMtrrDesc → List (BitVec 8) →
    Option (List (BitVec 8))
  | [], _, types => some types
  | r :: next, desc, types =>
    let begin_ := rangeEntryBaseMtrrAddr r
    let end_ := rangeEntryEndMtrrAddr r
    if begin_ ≥ lastDescEnd then some types
    else
      let end_ := if end_ > lastDescEnd then lastDescEnd else end_
      match fixedSeek begin_ desc with
      | [] => none
      | d :: rest =>
        let typeIndex := u32 (d.rangeIndex + u32 (begin_ + (2 ^ 32 - d.begin_)) / d.step)
        match fixedLoop fixedWrbackBits r.tag end_ begin_ typeIndex (d :: rest) types with
        | none => none
        | some (desc, types) => fixedEntries next desc types

/-- What `calc_fixed_mtrrs` leaves in `fixed_mtrr_types` for an address space. -/
def calcFixedMtrrs (physAddrSpace : List RangeEntry) : Option (List (BitVec 8)) :=
  fixedEntries fixedWrbackBits physAddrSpace fixedMtrrDesc
    (List.replicate numFixedRanges mtrrTypeUncacheable)

end

-- ---------------------------------------------------------------------------
-- The fixed ranges
-- ---------------------------------------------------------------------------

/-- The page at which the fixed range `i` begins; range 88 is past the last one. -/
def fixedBegin (i : Nat) : Nat :=
  if i < 8 then 16 * i else if i < 24 then 128 + 4 * (i - 8) else 192 + (i - 24)

/-- The descriptor of the fixed range `i`. -/
def descFrom (i : Nat) : List FixedMtrrDesc :=
  if i < 8 then fixedMtrrDesc
  else if i < 24 then fixedMtrrDesc.drop 1
  else if i < 88 then fixedMtrrDesc.drop 2
  else []

theorem fixedBegin_succ (i : Nat) : fixedBegin i < fixedBegin (i + 1) := by
  unfold fixedBegin
  repeat' split
  all_goals omega

theorem fixedBegin_strictMono : StrictMono fixedBegin := strictMono_nat_of_lt_succ fixedBegin_succ

theorem fixedBegin_last : fixedBegin 88 = lastDescEnd := rfl

/-- The fixed range `i` is one of the descriptor `d`, which `rest` comes after. -/
structure DescAt (i : Nat) (d : FixedMtrrDesc) (rest : List FixedMtrrDesc) : Prop where
  here : descFrom i = d :: rest
  lower : d.begin_ ≤ fixedBegin i
  upper : fixedBegin i < d.end_
  index : d.rangeIndex + (fixedBegin i - d.begin_) / d.step = i
  step : fixedBegin i + d.step = fixedBegin (i + 1)
  next : descFrom (i + 1) = if fixedBegin (i + 1) = d.end_ then rest else d :: rest

theorem descFrom_table : ∀ i < 88, ∃ d ∈ (descFrom i).head?,
    descFrom i = d :: (descFrom i).tail ∧ d.begin_ ≤ fixedBegin i ∧ fixedBegin i < d.end_ ∧
    d.rangeIndex + (fixedBegin i - d.begin_) / d.step = i ∧
    fixedBegin i + d.step = fixedBegin (i + 1) ∧
    descFrom (i + 1) = if fixedBegin (i + 1) = d.end_ then (descFrom i).tail else descFrom i := by
  decide

theorem descFrom_at (hi : i < 88) : ∃ d rest, DescAt i d rest := by
  obtain ⟨d, -, here, lower, upper, index, step, next⟩ := descFrom_table i hi
  rw [here, List.tail_cons] at next
  exact ⟨d, _, here, lower, upper, index, step, next⟩

theorem fixedLoop_step (hi : i < 88) (hne : fixedBegin i ≠ fin) :
    fixedLoop w tag fin (fixedBegin i) i (descFrom i) types =
      fixedLoop w tag fin (fixedBegin (i + 1)) (i + 1) (descFrom (i + 1))
        (types.set i (fixedType w tag)) := by
  obtain ⟨d, rest, hd⟩ := descFrom_at hi
  have hlt : fixedBegin (i + 1) ≤ fixedBegin 88 := fixedBegin_strictMono.monotone hi
  have hu : u32 (fixedBegin i + d.step) = fixedBegin (i + 1) := by
    rw [hd.step]
    exact u32_eq (Nat.lt_of_le_of_lt hlt (by decide))
  have hi' : i < numFixedRanges := hi
  rw [hd.here, fixedLoop, if_neg hne, if_pos hi']
  simp only [hu, ← hd.next]

/-- The type that range `i` has after the ranges from `i` to `j` are set. -/
def setFrom (v : BitVec 8) (i : Nat) : Nat → List (BitVec 8) → List (BitVec 8)
  | 0, types => types
  | n + 1, types => setFrom v (i + 1) n (types.set i v)

theorem setFrom_length : (setFrom v i n types).length = types.length := by
  induction n generalizing i types with
  | zero => rfl
  | succ n ih => rw [setFrom, ih, List.length_set]

theorem setFrom_get (h : i + n ≤ types.length) (k : Nat) :
    (setFrom v i n types)[k]? = if i ≤ k ∧ k < i + n then some v else types[k]? := by
  induction n generalizing i types with
  | zero =>
    rw [if_neg (by omega)]
    rfl
  | succ n ih =>
    rw [setFrom, ih (by rw [List.length_set]; omega)]
    by_cases hk : i = k
    · subst hk
      rw [if_neg (by omega), if_pos (by omega), List.getElem?_set_self (by omega)]
    · rw [List.getElem?_set_ne hk]
      simp only [show (i + 1 ≤ k ∧ k < i + 1 + n) ↔ (i ≤ k ∧ k < i + (n + 1)) by omega]

theorem fixedLoop_to (hj : i + n ≤ 88) :
    fixedLoop w tag (fixedBegin (i + n)) (fixedBegin i) i (descFrom i) types =
      some (descFrom (i + n), setFrom (fixedType w tag) i n types) := by
  induction n generalizing i types with
  | zero => rw [Nat.add_zero, fixedLoop.eq_def, if_pos rfl, setFrom]
  | succ n ih =>
    have hne : fixedBegin i ≠ fixedBegin (i + (n + 1)) :=
      Nat.ne_of_lt (fixedBegin_strictMono (by omega))
    rw [fixedLoop_step (by omega) hne, show i + (n + 1) = i + 1 + n by omega, ih (by omega), setFrom]

/-- The loop runs off the end when it does not meet its end. -/
theorem fixedLoop_none (hi : i ≤ 88) (h : ∀ j, i ≤ j → j ≤ 88 → fixedBegin j ≠ fin) :
    fixedLoop w tag fin (fixedBegin i) i (descFrom i) types = none := by
  induction hi using Nat.decreasingInduction generalizing types with
  | self =>
    rw [fixedLoop.eq_def, if_neg (h 88 (Nat.le_refl _) (Nat.le_refl _)), if_neg (by decide)]
  | of_succ i hi ih =>
    rw [fixedLoop_step hi (h i (Nat.le_refl _) (Nat.le_of_lt hi))]
    exact ih fun j hj => h j (Nat.le_of_succ_le hj)


-- ---------------------------------------------------------------------------
-- The walk
-- ---------------------------------------------------------------------------

/-- What is left of an address space from `lo` on. -/
structure SpaceFrom (lo : Nat) (l : List RangeEntry) : Prop where
  sorted : Sorted (entryRanges l)
  pages : ∀ r ∈ l, PageBounds r.begin_ (r.end_ + 1)
  below : ∀ r ∈ l, r.end_ + 1 < 2 ^ 44
  covers : ∀ a, lo ≤ a → a < 2 ^ 20 → ∃ r ∈ l, r.range.Covers a
  starts : ∀ r ∈ l, lo ≤ r.begin_

/-- A well-formed address space: sorted and disjoint entries of whole pages that cover the first
megabyte, below the 16 TiB that page numbers in 32 bits allow. -/
structure AddressSpace (l : List RangeEntry) : Prop where
  sorted : Sorted (entryRanges l)
  pages : ∀ r ∈ l, PageBounds r.begin_ (r.end_ + 1)
  below : ∀ r ∈ l, r.end_ + 1 < 2 ^ 44
  covers : ∀ a < 2 ^ 20, ∃ r ∈ l, r.range.Covers a

theorem AddressSpace.from_zero (h : AddressSpace l) : SpaceFrom 0 l :=
  ⟨h.sorted, h.pages, h.below, fun a _ ha => h.covers a ha, fun _ _ => Nat.zero_le _⟩

theorem SpaceFrom.head (h : SpaceFrom lo (r :: l)) (hlo : lo < 2 ^ 20) : r.begin_ = lo := by
  obtain ⟨s, hs, hle, hlt⟩ := h.covers lo (Nat.le_refl _) hlo
  have hstart := h.starts r (List.mem_cons_self ..)
  rcases List.mem_cons.mp hs with rfl | hs
  · exact Nat.le_antisymm hle hstart
  · obtain ⟨hne, hbefore, -⟩ := sorted_cons.mp h.sorted
    have := hbefore s.range (mem_entryRanges.mpr ⟨s, hs, rfl⟩)
    simp only [RangeEntry.range] at *
    omega

theorem SpaceFrom.tail (h : SpaceFrom lo (r :: l)) : SpaceFrom (r.end_ + 1) l := by
  obtain ⟨hne, hbefore, hsorted⟩ := sorted_cons.mp h.sorted
  have hstart := h.starts r (List.mem_cons_self ..)
  refine ⟨hsorted, fun s hs => h.pages s (List.mem_cons_of_mem _ hs),
    fun s hs => h.below s (List.mem_cons_of_mem _ hs), fun a hle ha => ?_,
    fun s hs => hbefore s.range (mem_entryRanges.mpr ⟨s, hs, rfl⟩)⟩
  simp only [RangeEntry.range] at hne
  obtain ⟨s, hs, hcov⟩ := h.covers a (by omega) ha
  rcases List.mem_cons.mp hs with rfl | hs
  · exact absurd hcov.2 (Nat.not_lt.mpr hle)
  · exact ⟨s, hs, hcov⟩

theorem SpaceFrom.ne_nil (h : SpaceFrom lo []) : 2 ^ 20 ≤ lo := by
  by_contra hlo
  obtain ⟨r, hr, -⟩ := h.covers lo (Nat.le_refl _) (Nat.lt_of_not_le hlo)
  exact absurd hr List.not_mem_nil

theorem fixedEntries_above (h : SpaceFrom lo l) (hlo : 2 ^ 20 ≤ lo) :
    fixedEntries w l desc types = some types := by
  cases l with
  | nil => rfl
  | cons r l =>
    have hstart := h.starts r (List.mem_cons_self ..)
    have hbelow := h.below r (List.mem_cons_self ..)
    have hne := (sorted_cons.mp h.sorted).1
    have hbase : rangeEntryBaseMtrrAddr r ≥ lastDescEnd := by
      simp only [rangeEntryBaseMtrrAddr, u32, physToRangeAddr, rangeShift, lastDescEnd,
        RangeEntry.range] at *
      omega
    rw [fixedEntries]
    simp only [hbase, if_true]

theorem fixedEntries_cons (hi : i < 88) (hbegin : r.begin_ = 4096 * fixedBegin i)
    (hbelow : r.end_ + 1 < 2 ^ 44) :
    fixedEntries w (r :: l) (descFrom i) types =
      match fixedLoop w r.tag (min ((r.end_ + 1) / 4096) lastDescEnd) (fixedBegin i) i (descFrom i)
        types with
      | none => none
      | some (desc, types) => fixedEntries w l desc types := by
  obtain ⟨d, rest, hd⟩ := descFrom_at hi
  have hlast : fixedBegin i < lastDescEnd := fixedBegin_strictMono hi
  have hbase : rangeEntryBaseMtrrAddr r = fixedBegin i := by
    simp only [rangeEntryBaseMtrrAddr, u32, physToRangeAddr, rangeShift, lastDescEnd] at *
    omega
  have hend : rangeEntryEndMtrrAddr r = (r.end_ + 1) / 4096 := by
    simp only [rangeEntryEndMtrrAddr, u32, u64, physToRangeAddr, rangeShift] at *
    omega
  have hmin : (if (r.end_ + 1) / 4096 > lastDescEnd then lastDescEnd else (r.end_ + 1) / 4096) =
      min ((r.end_ + 1) / 4096) lastDescEnd := by
    split <;> omega
  have hseek : fixedSeek (fixedBegin i) (d :: rest) = d :: rest := by
    rw [fixedSeek, List.dropWhile_cons_of_neg]
    simp [hd.upper]
  have hindex : u32 (d.rangeIndex + u32 (fixedBegin i + (2 ^ 32 - d.begin_)) / d.step) = i := by
    have hu : u32 (fixedBegin i + (2 ^ 32 - d.begin_)) = fixedBegin i - d.begin_ := by
      have := hd.lower
      simp only [u32, lastDescEnd, physToRangeAddr, rangeShift] at *
      omega
    rw [hu, hd.index]
    exact u32_eq (Nat.lt_trans hi (by decide))
  rw [fixedEntries]
  simp only [hbase, hend, hmin, Nat.not_le.mpr hlast, if_false, hd.here, hseek, hindex]

-- ---------------------------------------------------------------------------
-- The result
-- ---------------------------------------------------------------------------

/-- The fixed range `i` lies wholly inside an entry. -/
def RangeEntry.HasFixed (r : RangeEntry) (i : Nat) : Prop :=
  r.begin_ ≤ 4096 * fixedBegin i ∧ 4096 * fixedBegin (i + 1) ≤ r.end_ + 1

def RangeEntry.MeetsFixed (r : RangeEntry) (i : Nat) : Prop :=
  r.begin_ < 4096 * fixedBegin (i + 1) ∧ 4096 * fixedBegin i < r.end_ + 1

theorem RangeEntry.HasFixed.meets {r : RangeEntry} (h : r.HasFixed i) : r.MeetsFixed i := by
  have := fixedBegin_succ i
  exact ⟨by have := h.1; omega, by have := h.2; omega⟩

/-- The calculation returns, writes no more than the array, and gives each fixed range the type of
the entry it lies in, or of one that it meets. -/
structure FixedRight (w : BitVec 8) (l : List RangeEntry) (types : List (BitVec 8)) : Prop where
  returns : calcFixedMtrrs w l = some types
  length : types.length = numFixedRanges
  inside : ∀ i < numFixedRanges, ∀ r ∈ l, r.HasFixed i → types[i]? = some (fixedType w r.tag)
  straddling : ∀ i < numFixedRanges, ∃ r ∈ l, r.MeetsFixed i ∧ types[i]? = some (fixedType w r.tag)

/-- Entries that end in the first megabyte end where a fixed range begins. -/
def FixedAligned (l : List RangeEntry) : Prop :=
  ∀ r ∈ l, r.end_ + 1 < 2 ^ 20 → ∃ i < numFixedRanges, r.end_ + 1 = 4096 * fixedBegin i

/-- The clipped end of an entry is the start of a later fixed range. -/
theorem end_of_aligned {r : RangeEntry} (hbegin : r.begin_ = 4096 * fixedBegin i)
    (hne : r.begin_ < r.end_ + 1) (hi : i < 88)
    (halign : r.end_ + 1 < 2 ^ 20 → ∃ j < numFixedRanges, r.end_ + 1 = 4096 * fixedBegin j) :
    ∃ n, 0 < n ∧ i + n ≤ 88 ∧ min ((r.end_ + 1) / 4096) lastDescEnd = fixedBegin (i + n) ∧
      (r.end_ + 1 < 2 ^ 20 → r.end_ + 1 = 4096 * fixedBegin (i + n)) ∧
      (2 ^ 20 ≤ r.end_ + 1 → i + n = 88) := by
  by_cases hend : r.end_ + 1 < 2 ^ 20
  · obtain ⟨j, hj, heq⟩ := halign hend
    have hij : i < j := fixedBegin_strictMono.lt_iff_lt.mp (by omega)
    have hlast : fixedBegin j < lastDescEnd := fixedBegin_strictMono hj
    unfold numFixedRanges at hj
    refine ⟨j - i, by omega, by omega, ?_, ?_, fun h => by omega⟩
    all_goals rw [Nat.add_sub_cancel' (Nat.le_of_lt hij)]
    · rw [heq, Nat.mul_div_cancel_left _ (by decide)]
      exact Nat.min_eq_left (Nat.le_of_lt hlast)
    · exact fun _ => heq
  · refine ⟨88 - i, by omega, by omega, ?_, fun h => absurd h hend, fun _ => by omega⟩
    rw [show i + (88 - i) = 88 by omega, fixedBegin_last]
    refine Nat.min_eq_right ?_
    simp only [lastDescEnd, physToRangeAddr, rangeShift]
    omega

/-- With every end aligned each fixed range from `i` on gets the type of its entry. -/
theorem fixedEntries_aligned (h : SpaceFrom lo l) (hlo : lo = 4096 * fixedBegin i) (hi : i ≤ 88)
    (halign : FixedAligned l) (hlen : types.length = 88) :
    ∃ types', fixedEntries w l (descFrom i) types = some types' ∧ types'.length = 88 ∧
      (∀ k < i, types'[k]? = types[k]?) ∧
      ∀ k, i ≤ k → k < 88 → ∃ r ∈ l, r.HasFixed k ∧ types'[k]? = some (fixedType w r.tag) := by
  induction l generalizing lo i types with
  | nil =>
    have hlast := h.ne_nil
    refine ⟨types, rfl, hlen, fun _ _ => rfl, fun k hik hk => ?_⟩
    have hlt : fixedBegin i < lastDescEnd := fixedBegin_strictMono (Nat.lt_of_le_of_lt hik hk)
    simp only [lastDescEnd, physToRangeAddr, rangeShift] at hlt
    omega
  | cons r l ih =>
    rcases Nat.eq_or_lt_of_le hi with rfl | hi
    · refine ⟨types, fixedEntries_above h (by rw [hlo]; decide), hlen, fun _ _ => rfl, ?_⟩
      intro k hik hk
      omega
    have hlt : fixedBegin i < lastDescEnd := fixedBegin_strictMono hi
    have hbegin := h.head (by simp only [lastDescEnd, physToRangeAddr, rangeShift] at hlt; omega)
    have hne : r.begin_ < r.end_ + 1 := (sorted_cons.mp h.sorted).1
    obtain ⟨n, hn, hin, hmin, hshort, hlong⟩ := end_of_aligned (hbegin.trans hlo) hne hi
      (halign r (List.mem_cons_self ..))
    have hlen' : (setFrom (fixedType w r.tag) i n types).length = 88 := by rw [setFrom_length, hlen]
    have hrest : ∃ types',
      fixedEntries w l (descFrom (i + n)) (setFrom (fixedType w r.tag) i n types) =
        some types' ∧ types'.length = 88 ∧
        (∀ k < i + n, types'[k]? = (setFrom (fixedType w r.tag) i n types)[k]?) ∧
        ∀ k, i + n ≤ k → k < 88 → ∃ r ∈ l, r.HasFixed k ∧
          types'[k]? = some (fixedType w r.tag) := by
      by_cases hend : r.end_ + 1 < 2 ^ 20
      · exact ih h.tail (hshort hend) hin (fun s hs => halign s (List.mem_cons_of_mem _ hs)) hlen'
      · refine ⟨_, fixedEntries_above h.tail (by omega), hlen', fun _ _ => rfl, fun k hik hk => ?_⟩
        have := hlong (by omega)
        omega
    obtain ⟨types', hrun, hlen'', hbefore, hafter⟩ := hrest
    refine ⟨types', ?_, hlen'', fun k hk => ?_, fun k hik hk => ?_⟩
    · rw [fixedEntries_cons hi (hbegin.trans hlo) (h.below r (List.mem_cons_self ..)), hmin,
        fixedLoop_to hin]
      exact hrun
    · rw [hbefore k (by omega), setFrom_get (by omega), if_neg (by omega)]
    · by_cases hkn : k < i + n
      · refine ⟨r, List.mem_cons_self .., ⟨?_, ?_⟩, ?_⟩
        · rw [hbegin, hlo]
          exact Nat.mul_le_mul_left _ (fixedBegin_strictMono.monotone hik)
        · have hk : fixedBegin (k + 1) ≤ fixedBegin (i + n) := fixedBegin_strictMono.monotone hkn
          omega
        · rw [hbefore k hkn, setFrom_get (by omega), if_pos ⟨hik, hkn⟩]
      · obtain ⟨s, hs, hfix⟩ := hafter k (by omega) hk
        exact ⟨s, List.mem_cons_of_mem _ hs, hfix⟩

/-- The first end that is not aligned makes the inner loop run past the descriptors. -/
theorem fixedEntries_unaligned (h : SpaceFrom lo l) (hlo : lo = 4096 * fixedBegin i) (hi : i < 88)
    (halign : ¬ FixedAligned l) : fixedEntries w l (descFrom i) types = none := by
  induction l generalizing lo i types with
  | nil => exact absurd (fun r hr => absurd hr List.not_mem_nil) halign
  | cons r l ih =>
    have hlt : fixedBegin i < lastDescEnd := fixedBegin_strictMono hi
    have hbegin := h.head (by simp only [lastDescEnd, physToRangeAddr, rangeShift] at hlt; omega)
    have hne : r.begin_ < r.end_ + 1 := (sorted_cons.mp h.sorted).1
    rw [fixedEntries_cons hi (hbegin.trans hlo) (h.below r (List.mem_cons_self ..))]
    by_cases hr : r.end_ + 1 < 2 ^ 20 → ∃ j < numFixedRanges, r.end_ + 1 = 4096 * fixedBegin j
    · obtain ⟨n, hn, hin, hmin, hshort, -⟩ := end_of_aligned (hbegin.trans hlo) hne hi hr
      have hend : r.end_ + 1 < 2 ^ 20 := by
        by_contra hend
        refine halign fun s hs hlt => ?_
        rcases List.mem_cons.mp hs with rfl | hs
        · exact absurd hlt hend
        · have := h.tail.starts s hs
          have := (h.tail.sorted.nonempty s.range (mem_entryRanges.mpr ⟨s, hs, rfl⟩))
          simp only [RangeEntry.range] at this
          omega
      have hrest : ¬ FixedAligned l := fun hl => halign (List.forall_mem_cons.mpr ⟨hr, hl⟩)
      have hin' : i + n < 88 := by
        by_contra hge
        have heq := hshort hend
        rw [show i + n = 88 by omega, fixedBegin_last] at heq
        simp only [lastDescEnd, physToRangeAddr, rangeShift] at heq
        omega
      rw [hmin, fixedLoop_to hin]
      exact ih h.tail (hshort hend) hin' hrest
    · have hloop : fixedLoop w r.tag (min ((r.end_ + 1) / 4096) lastDescEnd) (fixedBegin i) i
          (descFrom i) types = none := by
        obtain ⟨hend, hno⟩ := Classical.not_imp.mp hr
        have hpage := (h.pages r (List.mem_cons_self ..)).hiAligned
        have hmin : min ((r.end_ + 1) / 4096) lastDescEnd = (r.end_ + 1) / 4096 := by
          simp only [lastDescEnd, physToRangeAddr, rangeShift]
          omega
        refine fixedLoop_none (Nat.le_of_lt hi) fun j hij hj heq => ?_
        rw [hmin] at heq
        rcases Nat.eq_or_lt_of_le hj with rfl | hj
        · rw [fixedBegin_last] at heq
          simp only [lastDescEnd, physToRangeAddr, rangeShift] at heq
          omega
        · exact hno ⟨j, hj, by rw [heq, Nat.mul_div_cancel' hpage]⟩
      rw [hloop]

/-- The fixed ranges come out right if and only if no entry ends within one of them. -/
theorem calcFixedMtrrs_iff (h : AddressSpace l) :
    (∃ types, FixedRight w l types) ↔ FixedAligned l := by
  have hrun : calcFixedMtrrs w l = fixedEntries w l (descFrom 0)
      (List.replicate numFixedRanges mtrrTypeUncacheable) := rfl
  constructor
  · rintro ⟨types, hright⟩
    by_contra halign
    have hnone := hright.returns
    rw [hrun, fixedEntries_unaligned h.from_zero rfl (by decide) halign] at hnone
    exact absurd hnone (by simp)
  · intro halign
    obtain ⟨types, htypes, hlen, -, hset⟩ :=
      fixedEntries_aligned (w := w) h.from_zero (i := 0) rfl (by decide) halign List.length_replicate
    refine ⟨types, hrun.trans htypes, hlen, fun i hi r hr hfix => ?_, fun i hi => ?_⟩
    · obtain ⟨s, hs, hfix', hget⟩ := hset i (Nat.zero_le _) hi
      have hsame : r.range = s.range := by
        have hlt := fixedBegin_succ i
        refine h.sorted.covers_unique (mem_entryRanges.mpr ⟨r, hr, rfl⟩)
          (mem_entryRanges.mpr ⟨s, hs, rfl⟩) (a := 4096 * fixedBegin i) ⟨hfix.1, ?_⟩ ⟨hfix'.1, ?_⟩
        · exact hfix.meets.2
        · exact hfix'.meets.2
      rw [hget, show s.tag = r.tag from (congrArg Range.tag hsame).symm]
    · obtain ⟨s, hs, hfix, hget⟩ := hset i (Nat.zero_le _) hi
      exact ⟨s, hs, hfix.meets, hget⟩

/-- RAM up to the legacy VGA window, and above the first megabyte. -/
def vgaHole : List RangeEntry := [⟨0, 0x9ffff, 6⟩, ⟨0xa0000, 0xfffff, 0⟩, ⟨0x100000, 0xbfffffff, 6⟩]

theorem vgaHole_space : AddressSpace vgaHole where
  sorted := ⟨by decide, by decide⟩
  pages := by
    intro r hr
    simp only [vgaHole, List.mem_cons, List.not_mem_nil, or_false] at hr
    rcases hr with rfl | rfl | rfl <;> exact ⟨by decide, by decide, by decide⟩
  below := by decide
  covers := fun a ha => by
    rcases Nat.lt_or_ge a 0xa0000 with h | h
    · exact ⟨_, List.mem_cons_self .., Nat.zero_le _, h⟩
    · exact ⟨_, List.mem_cons_of_mem _ (List.mem_cons_self ..), h, ha⟩

theorem calcFixedMtrrs_vgaHole : (∃ types, FixedRight 0 vgaHole types) ↔ FixedAligned vgaHole :=
  calcFixedMtrrs_iff vgaHole_space

/-- A page taken off the top of conventional memory is not where a range of 16 KiB begins. -/
theorem calcFixedMtrrs_ebda :
    ¬ ∀ l, AddressSpace l → ∃ types, FixedRight 0 l types := by
  intro hall
  have hspace : AddressSpace [⟨0, 0x9efff, 6⟩, ⟨0x9f000, 0xfffff, 0⟩] := by
    refine ⟨⟨by decide, by decide⟩, fun r hr => ?_, by decide, fun a ha => ?_⟩
    · simp only [List.mem_cons, List.not_mem_nil, or_false] at hr
      rcases hr with rfl | rfl <;> exact ⟨by decide, by decide, by decide⟩
    · rcases Nat.lt_or_ge a 0x9f000 with h | h
      · exact ⟨_, List.mem_cons_self .., Nat.zero_le _, h⟩
      · exact ⟨_, List.mem_cons_of_mem _ (List.mem_cons_self ..), h, ha⟩
  obtain ⟨types, hright⟩ := hall _ hspace
  have hnone : calcFixedMtrrs 0 [⟨0, 0x9efff, 6⟩, ⟨0x9f000, 0xfffff, 0⟩] = none := by
    refine fixedEntries_unaligned hspace.from_zero (i := 0) rfl (by decide) fun halign => ?_
    obtain ⟨j, -, hj⟩ := halign _ (List.mem_cons_self ..) (by decide)
    have hj : 0x9f000 = 4096 * fixedBegin j := hj
    unfold fixedBegin at hj
    repeat' split at hj
    all_goals omega
  exact absurd (hnone.symm.trans hright.returns) (by simp)

end ItxLlama.Coreboot
