import ItxLlama.Coreboot.MemrangeLaws
import ItxLlama.Lib.Holes

/-!
# Filling holes between memory ranges

`memranges_fill_holes_up_to` of `lib/memrange.c`. The holes below the limit get
the tag, unless the limit lies inside or right behind an entry that a hole
follows: the entry put there ends before it starts.
-/

namespace ItxLlama.Coreboot

open Lib.Word Lib.Ranges

def rangeEntryEnd (r : RangeEntry) : Nat := u64 (r.end_ + 1)

/-- `limit - 1`. -/
def lastBelow (limit : Nat) : Nat := u64 (limit + 2 ^ 64 - 1)

/-- The entry that is added where the limit was never reached. -/
def fillBehind (limit tag : Nat) (prev : RangeEntry) (rest freeList : List RangeEntry) :
    Memranges :=
  if rangeEntryEnd prev < limit then
    (rangeListAdd (rangeEntryEnd prev) (lastBelow limit) tag rest freeList).link prev
  else ⟨prev :: rest, freeList⟩

/-- The loop of `memranges_fill_holes_up_to`, from the second entry on. -/
def fillHolesFrom (limit tag : Nat) (prev : RangeEntry) :
    List RangeEntry → (freeList : List RangeEntry) → Memranges
  | [], freeList => fillBehind limit tag prev [] freeList
  | cur :: next, freeList =>
    let after (freeList : List RangeEntry) :=
      -- no other entries after this are affected
      if cur.begin_ ≥ limit then fillBehind limit tag cur next freeList
      else fillHolesFrom limit tag cur next freeList
    if rangeEntryEnd prev ≠ cur.begin_ then
      let end_ := lastBelow cur.begin_
      let end_ := if end_ ≥ limit then lastBelow limit else end_
      let m := after freeList.tail
      (m.link ⟨rangeEntryEnd prev, end_, tag⟩).link prev
    else (after freeList).link prev

def memrangesFillHolesUpTo (m : Memranges) (limit tag : Nat) : Memranges :=
  match m.entries with
  | [] => mergeNeighborEntries m
  | prev :: rest => mergeNeighborEntries (fillHolesFrom limit tag prev rest m.freeList)

-- ---------------------------------------------------------------------------
-- The loop
-- ---------------------------------------------------------------------------

section

variable {limit tag : Nat} {prev : RangeEntry} {rest freeList : List RangeEntry}

theorem lastBelow_succ (h : 0 < limit) (hlt : limit < 2 ^ 64) : lastBelow limit + 1 = limit := by
  unfold lastBelow
  rw [u64_pred h hlt]
  exact Nat.succ_pred_eq_of_pos h

theorem rangeEntryEnd_eq (hfit : prev.end_ + 1 < 2 ^ 64) : rangeEntryEnd prev = prev.end_ + 1 :=
  u64_eq hfit

theorem fillBehind_entries (hfit : prev.end_ + 1 < 2 ^ 64) (hlimit : limit < 2 ^ 64) :
    entryRanges (fillBehind limit tag prev rest freeList).entries =
      prev.range :: (prev.range.hole limit tag ++ entryRanges rest) := by
  unfold fillBehind
  rw [rangeEntryEnd_eq hfit]
  by_cases hlt : prev.end_ + 1 < limit
  · have hhole : prev.range.hole limit tag = [⟨prev.end_ + 1, limit, tag⟩] := if_pos hlt
    rw [if_pos hlt, hhole, link_entries, rangeListAdd_entries, entryRanges_cons, entryRanges_cons,
      RangeEntry.range, RangeEntry.range, lastBelow_succ (Nat.zero_lt_of_lt hlt) hlimit]
    rfl
  · rw [if_neg hlt, Range.hole_of_le (Nat.le_of_not_lt hlt)]
    rfl

theorem fillBehind_reached (hfit : prev.end_ + 1 < 2 ^ 64) (hle : limit ≤ prev.end_ + 1) :
    (fillBehind limit tag prev rest freeList).entries = prev :: rest := by
  rw [fillBehind, rangeEntryEnd_eq hfit, if_neg (Nat.not_lt.mpr hle)]

theorem fillFrom_reached {r : Range Nat} {l : List (Range Nat)} (h : ∀ x ∈ r :: l, limit ≤ x.hi) :
    Lib.Ranges.fillFrom limit tag r l = r :: l := by
  induction l generalizing r with
  | nil => rw [Lib.Ranges.fillFrom, Range.hole_of_le (h r List.mem_cons_self)]
  | cons s l ih =>
    obtain ⟨hr, hs⟩ := List.forall_mem_cons.mp h
    rw [Lib.Ranges.fillFrom, Range.hole_of_le (Nat.le_trans (Nat.min_le_right _ _) hr), ih hs]
    rfl

theorem Sorted.hi_ge {r : Range Nat} {l : List (Range Nat)} (h : Sorted (r :: l))
    (hle : limit ≤ r.hi) : ∀ x ∈ r :: l, limit ≤ x.hi := by
  obtain ⟨hr, hb, hs⟩ := sorted_cons.mp h
  refine List.forall_mem_cons.mpr ⟨hle, fun x hx => ?_⟩
  have hx' := hs.nonempty x hx
  have hrx := hb x hx
  omega

/-- An entry that is followed by a hole and that the limit is not behind, where the loop stops. -/
structure Overshot (limit : Nat) (l pre : List RangeEntry) (e s : RangeEntry)
    (post : List RangeEntry) : Prop where
  split : l = pre ++ e :: s :: post
  hole : e.end_ + 1 < s.begin_
  notBehind : limit ≤ e.end_ + 1
  reached : pre = [] ∨ e.begin_ < limit

/-- The rest of the loop, after a hole or without one. -/
def afterHole (limit tag : Nat) (cur : RangeEntry) (next freeList : List RangeEntry) : Memranges :=
  if cur.begin_ ≥ limit then fillBehind limit tag cur next freeList
  else fillHolesFrom limit tag cur next freeList

theorem fillHolesFrom_hole {cur : RangeEntry} (hfit : prev.end_ + 1 < 2 ^ 64)
    (hhole : prev.end_ + 1 < cur.begin_) :
    (fillHolesFrom limit tag prev (cur :: rest) freeList).entries =
      prev :: ⟨prev.end_ + 1,
          if lastBelow cur.begin_ ≥ limit then lastBelow limit else lastBelow cur.begin_, tag⟩ ::
        (afterHole limit tag cur rest freeList.tail).entries := by
  unfold fillHolesFrom
  rw [rangeEntryEnd_eq hfit, if_pos (Nat.ne_of_lt hhole)]
  rfl

theorem fillHolesFrom_touch {cur : RangeEntry} (hfit : prev.end_ + 1 < 2 ^ 64)
    (htouch : prev.end_ + 1 = cur.begin_) :
    (fillHolesFrom limit tag prev (cur :: rest) freeList).entries =
      prev :: (afterHole limit tag cur rest freeList).entries := by
  unfold fillHolesFrom
  rw [rangeEntryEnd_eq hfit, if_neg (not_not.mpr htouch)]
  rfl

/-- One turn of the loop, with the limit behind the hole's start. -/
theorem fillHolesFrom_cons {cur : RangeEntry} (tag : Nat) (hfit : prev.end_ + 1 < 2 ^ 64)
    (hcur : cur.begin_ < 2 ^ 64) (hlimit : limit < 2 ^ 64) (hle : prev.end_ + 1 ≤ cur.begin_)
    (hbehind : prev.end_ + 1 < cur.begin_ → prev.end_ + 1 < limit) (freeList : List RangeEntry) :
    ∃ piece freeList', entryRanges piece = prev.range.hole (min cur.begin_ limit) tag ∧
      (fillHolesFrom limit tag prev (cur :: rest) freeList).entries =
        prev :: (piece ++ (afterHole limit tag cur rest freeList').entries) := by
  obtain hhole | htouch := Nat.lt_or_eq_of_le hle
  · have hlt := hbehind hhole
    have hmin : (if lastBelow cur.begin_ ≥ limit then lastBelow limit else lastBelow cur.begin_) =
        min cur.begin_ limit - 1 := by
      have hl := lastBelow_succ (Nat.zero_lt_of_lt hlt) hlimit
      have hc := lastBelow_succ (Nat.zero_lt_of_lt hhole) hcur
      split <;> omega
    have hpos : prev.end_ + 1 < min cur.begin_ limit := Nat.lt_min.mpr ⟨hhole, hlt⟩
    have hpiece : prev.range.hole (min cur.begin_ limit) tag =
        [⟨prev.end_ + 1, min cur.begin_ limit, tag⟩] := if_pos hpos
    refine ⟨[⟨prev.end_ + 1, min cur.begin_ limit - 1, tag⟩], freeList.tail, ?_, ?_⟩
    · rw [hpiece, entryRanges_cons, RangeEntry.range, Nat.sub_add_cancel (Nat.zero_lt_of_lt hpos)]
      rfl
    · rw [fillHolesFrom_hole hfit hhole, hmin]
      rfl
  · refine ⟨[], freeList, ?_, fillHolesFrom_touch hfit htouch⟩
    rw [Range.hole_of_le (Nat.le_trans (Nat.min_le_left _ _) (Nat.le_of_eq htouch.symm))]
    rfl

theorem fillHolesFrom_entries (hs : Sorted (entryRanges (prev :: rest)))
    (hf : ∀ r ∈ entryRanges (prev :: rest), r.hi < 2 ^ 64) (hlimit : limit < 2 ^ 64)
    (hnot : ∀ pre e s post, ¬ Overshot limit (prev :: rest) pre e s post)
    (freeList : List RangeEntry) :
    entryRanges (fillHolesFrom limit tag prev rest freeList).entries =
      Lib.Ranges.fillFrom limit tag prev.range (entryRanges rest) := by
  induction rest generalizing prev freeList with
  | nil =>
    rw [fillHolesFrom, fillBehind_entries (hf _ List.mem_cons_self) hlimit]
    exact congrArg _ (List.append_nil _)
  | cons cur next ih =>
    obtain ⟨-, hb, hs'⟩ := sorted_cons.mp hs
    obtain ⟨hfit, hf'⟩ := List.forall_mem_cons.mp hf
    have hfitc : cur.end_ + 1 < 2 ^ 64 := hf' cur.range List.mem_cons_self
    have hnec : cur.begin_ < cur.end_ + 1 := hs'.nonempty cur.range List.mem_cons_self
    obtain ⟨piece, freeList', hpiece, heq⟩ := fillHolesFrom_cons tag hfit
      (Nat.lt_trans hnec hfitc) hlimit (hb cur.range List.mem_cons_self)
      (fun hhole => Nat.lt_of_not_le fun hle => hnot [] prev cur next ⟨rfl, hhole, hle, .inl rfl⟩)
      freeList
    have hafter : entryRanges (afterHole limit tag cur next freeList').entries =
        Lib.Ranges.fillFrom limit tag cur.range (entryRanges next) := by
      unfold afterHole
      by_cases hlim : cur.begin_ ≥ limit
      · have hle := Nat.le_trans hlim (Nat.le_of_lt hnec)
        rw [if_pos hlim, fillBehind_reached hfitc hle]
        exact (fillFrom_reached (Sorted.hi_ge hs' hle)).symm
      · rw [if_neg hlim]
        refine ih hs' hf' (fun pre e s post ho => hnot (prev :: pre) e s post ?_) freeList'
        refine ⟨congrArg _ ho.split, ho.hole, ho.notBehind, .inr ?_⟩
        obtain rfl | hlt := ho.reached
        · obtain rfl := (List.cons.inj ho.split).1
          exact Nat.lt_of_not_le hlim
        · exact hlt
    rw [heq, entryRanges_cons, entryRanges_append, hpiece, hafter, entryRanges_cons,
      Lib.Ranges.fillFrom]
    rfl

/-- The entry that is put behind `e` ends where the limit is, whatever is there. -/
theorem fillHolesFrom_overshot (tag : Nat) (hs : Sorted (entryRanges (prev :: rest)))
    (hf : ∀ r ∈ entryRanges (prev :: rest), r.hi < 2 ^ 64) (hlimit : limit < 2 ^ 64)
    (h : Overshot limit (prev :: rest) pre e s post) (freeList : List RangeEntry) :
    ∃ done, (fillHolesFrom limit tag prev rest freeList).entries =
        done ++ e :: ⟨e.end_ + 1, lastBelow limit, tag⟩ :: s :: post ∧
      entryRanges (done ++ e :: s :: post) =
        Lib.Ranges.fillFrom limit tag prev.range (entryRanges rest) := by
  induction pre generalizing prev rest freeList with
  | nil =>
    obtain ⟨rfl, rfl⟩ := List.cons.inj h.split
    obtain ⟨hne, hb, hs'⟩ := sorted_cons.mp hs
    obtain ⟨hfit, hf'⟩ := List.forall_mem_cons.mp hf
    have hfits : s.end_ + 1 < 2 ^ 64 := hf' s.range List.mem_cons_self
    have hnes : s.begin_ < s.end_ + 1 := hs'.nonempty s.range List.mem_cons_self
    have hhole := h.hole
    have hle := h.notBehind
    have hlast : lastBelow s.begin_ + 1 = s.begin_ :=
      lastBelow_succ (Nat.zero_lt_of_lt hhole) (Nat.lt_trans hnes hfits)
    refine ⟨[], ?_, (fillFrom_reached (Sorted.hi_ge hs hle)).symm⟩
    rw [fillHolesFrom_hole hfit hhole, if_pos (by omega), afterHole, if_pos (by omega),
      fillBehind_reached hfits (by omega)]
    rfl
  | cons p pre ih =>
    obtain ⟨rfl, hrest⟩ := List.cons.inj h.split
    obtain ⟨cur, next, rfl⟩ : ∃ cur next, rest = cur :: next := by
      cases pre with
      | nil => exact ⟨_, _, hrest⟩
      | cons q pre => exact ⟨_, _, hrest⟩
    have hlt : e.begin_ < limit := h.reached.resolve_left (List.cons_ne_nil _ _)
    obtain ⟨-, hb, hs'⟩ := sorted_cons.mp hs
    obtain ⟨hfit, hf'⟩ := List.forall_mem_cons.mp hf
    have hfitc : cur.end_ + 1 < 2 ^ 64 := hf' cur.range List.mem_cons_self
    have hnec : cur.begin_ < cur.end_ + 1 := hs'.nonempty cur.range List.mem_cons_self
    have hcur : prev.end_ + 1 ≤ cur.begin_ := hb cur.range List.mem_cons_self
    -- the entry the loop comes to next starts below the limit too
    have hlim : cur.begin_ < limit := by
      have hmem : e.range ∈ entryRanges (cur :: next) := by
        rw [hrest]
        exact List.mem_map_of_mem (by simp)
      obtain heq | hin := List.mem_cons.mp hmem
      · exact Nat.lt_of_le_of_lt (Nat.le_of_eq (congrArg Range.lo heq).symm) hlt
      · have hle := (sorted_cons.mp hs').2.1 e.range hin
        exact Nat.lt_trans (Nat.lt_of_lt_of_le hnec hle) hlt
    obtain ⟨piece, freeList', hpiece, heq⟩ := fillHolesFrom_cons tag hfit
      (Nat.lt_trans hnec hfitc) hlimit hcur (fun _ => Nat.lt_of_le_of_lt hcur hlim) freeList
    obtain ⟨done, hdone, hfill⟩ := ih hs' hf'
      ⟨hrest, h.hole, h.notBehind, .inr hlt⟩ freeList'
    refine ⟨prev :: (piece ++ done), ?_, ?_⟩
    · rw [heq, afterHole, if_neg (Nat.not_le.mpr hlim), hdone]
      simp only [List.cons_append, List.append_assoc]
    · rw [List.cons_append, List.append_assoc, entryRanges_cons, entryRanges_append, hpiece, hfill,
        entryRanges_cons, Lib.Ranges.fillFrom]
      rfl

end

-- ---------------------------------------------------------------------------
-- Merging
-- ---------------------------------------------------------------------------

theorem mergeFrom_append (pre : List RangeEntry) :
    ∃ done e', (∀ rest freeList, ∃ freeList', (mergeFrom x (pre ++ e :: rest) freeList).entries =
        done ++ (mergeFrom e' rest freeList').entries) ∧ e'.end_ = e.end_ ∧ e'.tag = e.tag := by
  induction pre generalizing x with
  | nil =>
    by_cases hm : u64 (x.end_ + 1) ≥ e.begin_ ∧ x.tag = e.tag
    · refine ⟨[], { x with end_ := e.end_ }, fun rest freeList => ⟨e :: freeList, ?_⟩, rfl, hm.2⟩
      rw [List.nil_append, mergeFrom, if_pos hm]
      rfl
    · refine ⟨[x], e, fun rest freeList => ⟨freeList, ?_⟩, rfl, rfl⟩
      rw [List.nil_append, mergeFrom, if_neg hm]
      rfl
  | cons p pre ih =>
    by_cases hm : u64 (x.end_ + 1) ≥ p.begin_ ∧ x.tag = p.tag
    · obtain ⟨done, e', hrest, hends⟩ := @ih { x with end_ := p.end_ }
      refine ⟨done, e', fun rest freeList => ?_, hends⟩
      obtain ⟨freeList', heq⟩ := hrest rest (p :: freeList)
      exact ⟨freeList', by rw [List.cons_append, mergeFrom, if_pos hm, heq]⟩
    · obtain ⟨done, e', hrest, hends⟩ := @ih p
      refine ⟨x :: done, e', fun rest freeList => ?_, hends⟩
      obtain ⟨freeList', heq⟩ := hrest rest freeList
      exact ⟨freeList', by rw [List.cons_append, mergeFrom, if_neg hm, link_entries, heq]; rfl⟩

theorem mergeFrom_freeList (prev : RangeEntry) (l f g : List RangeEntry) :
    (mergeFrom prev l f).entries = (mergeFrom prev l g).entries := by
  induction l generalizing prev f g with
  | nil => rfl
  | cons cur rest ih =>
    unfold mergeFrom
    split
    · exact ih _ _ _
    · exact congrArg (prev :: ·) (ih _ _ _)

theorem mergeNeighborEntries_append (pre : List RangeEntry) (e : RangeEntry) :
    ∃ done e', (∀ rest freeList, ∃ freeList',
        (mergeNeighborEntries ⟨pre ++ e :: rest, freeList⟩).entries =
          done ++ (mergeFrom e' rest freeList').entries) ∧ e'.end_ = e.end_ ∧ e'.tag = e.tag := by
  cases pre with
  | nil => exact ⟨[], e, fun rest freeList => ⟨freeList, rfl⟩, rfl, rfl⟩
  | cons x pre => exact mergeFrom_append pre

theorem mergeFrom_apart (prev : RangeEntry) {cur : RangeEntry}
    (h : u64 (prev.end_ + 1) < cur.begin_)
    (rest freeList : List RangeEntry) :
    (mergeFrom prev (cur :: rest) freeList).entries = prev :: (mergeFrom cur rest freeList).entries := by
  rw [mergeFrom, if_neg fun hm => Nat.not_le.mpr h hm.1, link_entries]

-- ---------------------------------------------------------------------------
-- memranges_fill_holes_up_to
-- ---------------------------------------------------------------------------

/-- What is asked of the entries afterwards. -/
structure FillsHoles (l : List RangeEntry) (limit tag : Nat) (l' : List RangeEntry) : Prop where
  inv : MemrangesInv l'
  filled : ∀ e ∈ l.head?, ∀ a, e.begin_ ≤ a → a < limit →
    (∀ t, ¬ Has (entryRanges l) a t) → Has (entryRanges l') a tag
  kept : ∀ a t, Has (entryRanges l) a t → Has (entryRanges l') a t
  above : ∀ a, limit ≤ a → (∀ t, ¬ Has (entryRanges l) a t) → ∀ t, ¬ Has (entryRanges l') a t

section

variable {limit tag : Nat} {prev : RangeEntry} {rest : List RangeEntry}

/-- Where the loop leaves the filled list, merging keeps what it means. -/
theorem FillsHoles.of_fillFrom {filled : List RangeEntry} (h : MemrangesInv (prev :: rest))
    (halign : 4096 ∣ limit) (hlimit : limit < 2 ^ 64)
    (hfill : entryRanges filled = Lib.Ranges.fillFrom limit tag prev.range (entryRanges rest))
    (freeList : List RangeEntry) :
    FillsHoles (prev :: rest) limit tag (mergeNeighborEntries ⟨filled, freeList⟩).entries := by
  have hs : Sorted (prev.range :: entryRanges rest) := h.canonical.sorted'
  have hbounds : ∀ x ∈ entryRanges filled,
      (x.lo < 2 ^ 64 ∧ 4096 ∣ x.lo) ∧ x.hi < 2 ^ 64 ∧ 4096 ∣ x.hi := by
    rw [hfill]
    refine fillFrom_bounds (P := fun n => n < 2 ^ 64 ∧ 4096 ∣ n) (fun x hx => ?_) ⟨hlimit, halign⟩
    have hp := h.pages x hx
    exact ⟨⟨Nat.lt_trans (hs.nonempty x hx) hp.fits, hp.loAligned⟩, hp.fits, hp.hiAligned⟩
  have hsorted : Sorted (entryRanges filled) := hfill ▸ sorted_fillFrom hs
  have hmerge := @mergeNeighborEntries_entries ⟨filled, freeList⟩ hsorted fun x hx =>
    (hbounds x hx).2.1
  have hhas (a t : Nat) : Has (entryRanges (mergeNeighborEntries ⟨filled, freeList⟩).entries) a t ↔
      Has (entryRanges (prev :: rest)) a t ∨
        ((prev.begin_ ≤ a ∧ a < limit) ∧ ∀ v, ¬ Has (entryRanges (prev :: rest)) a v) ∧
          tag = t := by
    rw [hmerge]
    refine (has_merge hsorted).trans ?_
    rw [show entryRanges (Memranges.mk filled freeList).entries = _ from hfill]
    exact has_fillFrom hs
  refine ⟨⟨hmerge ▸ merge_canonical hsorted, fun x hx => ?_⟩, ?_,
    fun a t ha => (hhas a t).mpr (.inl ha),
    fun a hle hfree t ha => ?_⟩
  · rw [hmerge] at hx
    obtain ⟨⟨y, hy, hlo⟩, z, hz, hhi⟩ := mem_merge hx
    rw [hlo, hhi]
    exact ⟨(hbounds z hz).2.1, (hbounds y hy).1.2, (hbounds z hz).2.2⟩
  · rintro e he a hle hlt hfree
    obtain rfl := Option.some.inj he
    exact (hhas a tag).mpr (.inr ⟨⟨⟨hle, hlt⟩, hfree⟩, rfl⟩)
  · obtain hold | ⟨⟨⟨-, hlt⟩, -⟩, -⟩ := (hhas a t).mp ha
    · exact hfree t hold
    · exact absurd hlt (Nat.not_lt.mpr hle)

theorem u64_lastBelow (h : limit < 2 ^ 64) : u64 (lastBelow limit + 1) = limit := by
  unfold lastBelow u64
  omega

theorem not_wellFormed_overshot (n : RangeEntry) (hlimit : limit < 2 ^ 64)
    (hle : limit ≤ n.begin_) (hend : n.end_ = lastBelow limit) {l : List RangeEntry} (hn : n ∈ l) :
    ¬ MemrangesInv l := by
  intro h
  have hmem : n.range ∈ entryRanges l := List.mem_map_of_mem hn
  have hfit : n.end_ + 1 < 2 ^ 64 := (h.pages _ hmem).fits
  have hlt : n.begin_ < n.end_ + 1 := h.canonical.nonempty _ hmem
  rw [hend] at hfit hlt
  obtain rfl | hpos := Nat.eq_zero_or_pos limit
  · exact absurd hfit (by decide)
  · rw [lastBelow_succ hpos hlimit] at hlt
    exact Nat.not_lt.mpr hle hlt

/-- An entry behind which the limit lies, merged with what was added behind it, loses its end. -/
theorem not_kept_overshot (e' : RangeEntry) {e s : RangeEntry} {post done l' : List RangeEntry}
    (hlimit : limit < 2 ^ 64) (hsorted : Sorted (entryRanges (s :: post)))
    (hf : ∀ r ∈ entryRanges (s :: post), r.hi < 2 ^ 64) (hhole : e.end_ + 1 < s.begin_)
    (hlt : limit < e.end_ + 1) (hend : e'.end_ = lastBelow limit)
    (hl : l' = done ++ e' :: (mergeFrom s post freeList).entries) (hinv : MemrangesInv l') (t : Nat) :
    ¬ Has (entryRanges l') e.end_ t := by
  have hmem : e'.range ∈ entryRanges l' := by
    rw [hl]
    exact List.mem_map_of_mem (by simp)
  have hfit : e'.end_ + 1 < 2 ^ 64 := (hinv.pages _ hmem).fits
  have hne : e'.begin_ < e'.end_ + 1 := hinv.canonical.nonempty _ hmem
  obtain rfl | hpos := Nat.eq_zero_or_pos limit
  · rw [hend] at hfit
    exact absurd hfit (by decide)
  rw [hend, lastBelow_succ hpos hlimit] at hne
  have hcan := hinv.canonical
  rw [hl, entryRanges_append, canonical_append] at hcan
  rw [hl, entryRanges_append, entryRanges_cons, has_append, has_cons,
    mergeFrom_entries hsorted hf freeList]
  rintro (⟨r, hr, hcov, -⟩ | ⟨hcov, -⟩ | hbehind)
  · have hbefore : r.hi ≤ e'.begin_ := (hcan.2.2 r hr e'.range List.mem_cons_self).1
    exact absurd hcov.2 (by omega)
  · have hcov : e.end_ < e'.end_ + 1 := hcov.2
    rw [hend, lastBelow_succ hpos hlimit] at hcov
    omega
  · have hge : s.begin_ ≤ e.end_ := hsorted.lo_le ((has_mergeFrom hsorted).mp hbehind)
    omega

section

variable {freeList pre post : List RangeEntry} {e s : RangeEntry}

theorem Overshot.fits (ho : Overshot limit (prev :: rest) pre e s post)
    (hfit : ∀ r ∈ entryRanges (prev :: rest), r.hi < 2 ^ 64) : e.end_ + 1 < 2 ^ 64 := by
  refine hfit e.range ?_
  rw [ho.split]
  exact List.mem_map_of_mem (by simp)

theorem fillsHoles_of_overshot (h : MemrangesInv (prev :: rest)) (halign : 4096 ∣ limit)
    (hlimit : limit < 2 ^ 64) (ho : Overshot limit (prev :: rest) pre e s post)
    (hlim : limit = e.end_ + 1) (htag : e.tag = tag) :
    FillsHoles (prev :: rest) limit tag
      (memrangesFillHolesUpTo ⟨prev :: rest, freeList⟩ limit tag).entries := by
  have hf (r : Range Nat) (hr : r ∈ entryRanges (prev :: rest)) :
    r.hi < 2 ^ 64 := (h.pages r hr).fits
  obtain ⟨done, hdone, hfill⟩ :=
    fillHolesFrom_overshot tag h.canonical.sorted' hf hlimit ho freeList
  obtain ⟨before, e', hrest, hend, htag'⟩ := mergeNeighborEntries_append done e
  have hfit : u64 (e'.end_ + 1) = e.end_ + 1 := by
    rw [hend]
    exact u64_eq (ho.fits hf)
  have hempty : lastBelow limit = e'.end_ := by
    have hsucc := lastBelow_succ (hlim ▸ Nat.succ_pos _) hlimit
    omega
  obtain ⟨freeList₁, h₁⟩ := hrest (⟨e.end_ + 1, lastBelow limit, tag⟩ :: s :: post)
    (fillHolesFrom limit tag prev rest freeList).freeList
  obtain ⟨freeList₂, h₂⟩ := hrest (s :: post) freeList
  rw [mergeFrom, if_pos ⟨Nat.le_of_eq hfit.symm, htag'.trans htag⟩] at h₁
  simp only [hempty] at h₁
  rw [mergeFrom_freeList e' (s :: post) _ freeList₂, ← h₂] at h₁
  have hresult : memrangesFillHolesUpTo ⟨prev :: rest, freeList⟩ limit tag = mergeNeighborEntries
      ⟨(fillHolesFrom limit tag prev rest freeList).entries,
        (fillHolesFrom limit tag prev rest freeList).freeList⟩ := rfl
  rw [hresult, hdone, hempty, h₁]
  exact FillsHoles.of_fillFrom h halign hlimit hfill freeList

theorem not_fillsHoles_of_overshot (h : MemrangesInv (prev :: rest)) (hlimit : limit < 2 ^ 64)
    (ho : Overshot limit (prev :: rest) pre e s post) (hnot : ¬ (limit = e.end_ + 1 ∧ e.tag = tag)) :
    ¬ FillsHoles (prev :: rest) limit tag
      (memrangesFillHolesUpTo ⟨prev :: rest, freeList⟩ limit tag).entries := by
  intro hfills
  have hf (r : Range Nat) (hr : r ∈ entryRanges (prev :: rest)) :
    r.hi < 2 ^ 64 := (h.pages r hr).fits
  obtain ⟨done, hdone, -⟩ :=
    fillHolesFrom_overshot tag h.canonical.sorted' hf hlimit ho freeList
  obtain ⟨before, e', hrest, hend, htag'⟩ := mergeNeighborEntries_append done e
  have hfit : u64 (e'.end_ + 1) = e.end_ + 1 := by
    rw [hend]
    exact u64_eq (ho.fits hf)
  have hbelow : u64 (lastBelow limit + 1) < s.begin_ := by
    rw [u64_lastBelow hlimit]
    exact Nat.lt_of_le_of_lt ho.notBehind ho.hole
  obtain ⟨freeList', hmerge⟩ := hrest (⟨e.end_ + 1, lastBelow limit, tag⟩ :: s :: post)
    (fillHolesFrom limit tag prev rest freeList).freeList
  have hresult : memrangesFillHolesUpTo ⟨prev :: rest, freeList⟩ limit tag = mergeNeighborEntries
      ⟨(fillHolesFrom limit tag prev rest freeList).entries,
        (fillHolesFrom limit tag prev rest freeList).freeList⟩ := rfl
  rw [hresult, hdone, hmerge] at hfills
  by_cases htag : e.tag = tag
  · -- the entry is cut off at the limit
    rw [mergeFrom, if_pos ⟨Nat.le_of_eq hfit.symm, htag'.trans htag⟩,
      mergeFrom_apart { e' with end_ := lastBelow limit } hbelow post] at hfills
    have hmem : e.range ∈ entryRanges (prev :: rest) := by
      rw [ho.split]
      exact List.mem_map_of_mem (by simp)
    have hlt : limit < e.end_ + 1 :=
      Nat.lt_of_le_of_ne ho.notBehind fun heq => hnot ⟨heq, htag⟩
    have hbehind : entryRanges (pre ++ [e] ++ s :: post) = entryRanges (prev :: rest) := by
      rw [ho.split, List.append_assoc]
      rfl
    have hsorted := h.canonical.sorted'
    rw [← hbehind, entryRanges_append] at hsorted
    rw [← hbehind, entryRanges_append] at hf
    refine not_kept_overshot { e' with end_ := lastBelow limit } hlimit
      (sorted_append.mp hsorted).2.1 (fun r hr => hf r (List.mem_append_right _ hr)) ho.hole hlt rfl
      rfl hfills.inv e.tag ?_
    exact hfills.kept _ _ ⟨e.range, hmem,
      ⟨Nat.le_of_lt_succ (h.canonical.nonempty _ hmem), Nat.lt_succ_self _⟩, rfl⟩
  · -- what was added stays
    rw [mergeFrom, if_neg fun hm => htag (htag'.symm.trans hm.2), link_entries,
      mergeFrom_apart ⟨e.end_ + 1, lastBelow limit, tag⟩ hbelow post] at hfills
    exact not_wellFormed_overshot ⟨e.end_ + 1, lastBelow limit, tag⟩ hlimit ho.notBehind rfl
      (by simp) hfills.inv

end

end

/-- Two entries with a hole between them. -/
def oneHole : Memranges := ⟨[⟨0, 0x2fff, 1⟩, ⟨0x5000, 0x5fff, 1⟩], []⟩

theorem oneHole_inv : MemrangesInv oneHole.entries :=
  ⟨canonical_cons.mpr ⟨by decide, List.forall_mem_singleton.mpr (.of_lt (by decide)),
      canonical_cons.mpr ⟨by decide, fun s hs => absurd hs List.not_mem_nil, canonical_nil⟩⟩,
    List.forall_mem_cons.mpr ⟨⟨by decide, by decide, by decide⟩,
      List.forall_mem_singleton.mpr ⟨by decide, by decide, by decide⟩⟩⟩

end ItxLlama.Coreboot
