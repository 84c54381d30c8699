import ItxLlama.Coreboot.Memrange

/-!
# Memory ranges mean the last call

The list's loops compute `erase` and `merge` of tagged ranges: an entry with
its inclusive end is the half-open range up to the next address. A run of
calls, none of them of size 0, keeps the list canonical and page aligned,
and the tag found at an address is that of the last call whose rounded range
covers it.
-/

namespace ItxLlama.Coreboot

open Lib.Word Lib.Ranges

def RangeEntry.range (e : RangeEntry) : Range Nat := ⟨e.begin_, e.end_ + 1, e.tag⟩

def entryRanges (l : List RangeEntry) : List (Range Nat) := l.map RangeEntry.range

@[simp] theorem entryRanges_nil : entryRanges [] = [] := rfl

@[simp] theorem entryRanges_cons (e : RangeEntry) (l : List RangeEntry) :
    entryRanges (e :: l) = e.range :: entryRanges l := rfl

theorem entryRanges_append (l l' : List RangeEntry) :
    entryRanges (l ++ l') = entryRanges l ++ entryRanges l' := List.map_append

theorem mem_entryRanges {l : List RangeEntry} : r ∈ entryRanges l ↔ ∃ e ∈ l, e.range = r :=
  List.mem_map

/-- Whole pages, short of the last one. -/
structure PageBounds (lo hi : Nat) : Prop where
  fits : hi < 2 ^ 64
  loAligned : 4096 ∣ lo
  hiAligned : 4096 ∣ hi

/-- The invariant of `ranges->entries`. -/
structure MemrangesInv (l : List RangeEntry) : Prop where
  canonical : Canonical (entryRanges l)
  pages : ∀ r ∈ entryRanges l, PageBounds r.lo r.hi

@[simp] theorem link_entries (cur : RangeEntry) (m : Memranges) :
    (m.link cur).entries = cur :: m.entries := rfl

@[simp] theorem rangeListAdd_entries (b e t : Nat) (rest free : List RangeEntry) :
    (rangeListAdd b e t rest free).entries = ⟨b, e, t⟩ :: rest := rfl

theorem u64_pred (h : 0 < b) (hb : b < 2 ^ 64) : u64 (b + 2 ^ 64 - 1) = b - 1 := by
  unfold u64
  omega

-- ---------------------------------------------------------------------------
-- remove_memranges
-- ---------------------------------------------------------------------------

theorem removeFrom_behind {l : List RangeEntry} (h : ∀ x ∈ l, e < x.begin_)
    (b : Nat) (free : List RangeEntry) : removeFrom b e l free = ⟨l, free⟩ := by
  cases l with
  | nil => rfl
  | cons cur next => rw [removeFrom, if_pos (h cur (by simp))]

theorem erase_behind {l : List (Range T)} (hne : ∀ r ∈ l, r.lo < r.hi)
    (h : ∀ r ∈ l, hi ≤ r.lo) (hlt : lo < hi) : erase lo hi l = l := by
  induction l with
  | nil => rfl
  | cons r l ih =>
    rw [List.forall_mem_cons] at hne h
    rw [erase_cons, r.minus_of_ge hne.1 h.1 hlt, ih hne.2 h.2, List.singleton_append]

/-- Where the erased interval starts does not matter to ranges behind it. -/
theorem erase_start {l : List (Range T)} (h : ∀ r ∈ l, lo ≤ r.lo ∧ lo' ≤ r.lo) :
    erase lo hi l = erase lo' hi l := by
  induction l with
  | nil => rfl
  | cons r l ih =>
    rw [List.forall_mem_cons] at h
    rw [erase_cons, erase_cons, ih h.2, Range.minus, Range.minus,
      if_neg (Nat.not_lt.mpr h.1.1), if_neg (Nat.not_lt.mpr h.1.2)]

theorem removeFrom_erase {l : List RangeEntry} (h : MemrangesInv l) (hbe : b ≤ e)
    (he : e + 1 < 2 ^ 64) (free : List RangeEntry) :
    entryRanges (removeFrom b e l free).entries = erase b (e + 1) (entryRanges l) := by
  induction l generalizing b free with
  | nil => rfl
  | cons cur next ih =>
    obtain ⟨hne, hbefore, hcan⟩ := canonical_cons.mp (entryRanges_cons cur next ▸ h.canonical)
    obtain ⟨⟨hfit, -, -⟩, hpages⟩ := List.forall_mem_cons.mp (entryRanges_cons cur next ▸ h.pages)
    replace hfit : cur.end_ + 1 < 2 ^ 64 := hfit
    have hcur : cur.begin_ ≤ cur.end_ := by
      simp only [RangeEntry.range] at hne
      omega
    have hnext : ∀ x ∈ next, cur.end_ < x.begin_ := fun x hx => by
      have := (hbefore x.range (mem_entryRanges.mpr ⟨x, hx, rfl⟩)).1
      simp only [RangeEntry.range] at this
      omega
    have hnext' : ∀ r ∈ entryRanges next, cur.end_ < r.lo := by
      intro r hr
      obtain ⟨x, hx, rfl⟩ := mem_entryRanges.mp hr
      exact hnext x hx
    have hskip : ∀ lo, lo ≤ e → e ≤ cur.end_ →
        erase lo (e + 1) (entryRanges next) = entryRanges next := fun lo hlo hle =>
      erase_behind hcan.nonempty (fun r hr => by have := hnext' r hr; omega) (by omega)
    have hrange : cur.range = ⟨cur.begin_, cur.end_ + 1, cur.tag⟩ := rfl
    rw [entryRanges_cons, erase_cons, removeFrom]
    by_cases hlt : e < cur.begin_
    · rw [if_pos hlt, cur.range.minus_of_ge hne (by rw [hrange]; exact hlt) (by omega),
        hskip b hbe (by omega)]
      rfl
    rw [if_neg hlt]
    by_cases hgt : b > cur.end_
    · rw [if_pos hgt, cur.range.minus_of_le hne (by rw [hrange]; exact hgt) (by omega),
        link_entries, entryRanges_cons, ih ⟨hcan, hpages⟩ hbe]
      rfl
    rw [if_neg hgt]
    by_cases hfull : b ≤ cur.begin_ ∧ e ≥ cur.end_
    · -- `cur` is covered
      rw [if_pos hfull, u64_eq hfit, hrange, Range.minus, if_neg (by simp only; omega),
        if_neg (by simp only; omega), List.append_nil, List.nil_append]
      by_cases hrest : cur.end_ + 1 ≤ e
      · rw [ih ⟨hcan, hpages⟩ hrest]
        exact erase_start fun r hr => by have := hnext' r hr; omega
      · rw [removeFrom_behind (fun x hx => by have := hnext x hx; omega),
          hskip b hbe (by omega)]
    rw [if_neg hfull]
    by_cases hb : b ≤ cur.begin_
    · -- the head of `cur` goes
      have hin : e < cur.end_ := by omega
      have hu : u64 (e + 1) = e + 1 := u64_eq he
      simp only [if_pos hb, if_neg (show ¬ e > cur.end_ by omega), gt_iff_lt, lt_irrefl, false_and,
        if_false, if_true, if_neg (show ¬ e = cur.end_ by omega), hu]
      rw [removeFrom_behind (fun x hx => by have := hnext x hx; omega),
        hskip b hbe (by omega), hrange,
        Range.minus, if_neg (by simp only; omega), if_pos (by simp only; omega),
        Nat.max_eq_right (by simp only; omega)]
      rfl
    · have hpred : u64 (b + 2 ^ 64 - 1) = b - 1 := u64_pred (by omega) (by omega)
      have hlo : b > cur.begin_ := by omega
      by_cases hin : e < cur.end_
      · -- the middle of `cur` goes
        have hu : u64 (e + 1) = e + 1 := u64_eq he
        simp only [if_neg hb, if_neg (show ¬ e > cur.end_ by omega), hlo, hin, and_self, if_true,
          hpred, hu]
        rw [hskip b hbe (by omega), hrange, Range.minus, if_pos (by simp only; omega),
          if_pos (by simp only; omega),
          Nat.max_eq_right (by simp only; omega), Nat.min_eq_right (by simp only; omega)]
        simp only [link_entries, rangeListAdd_entries, entryRanges_cons, RangeEntry.range,
          List.cons_append, List.nil_append, show b - 1 + 1 = b by omega]
      · -- the tail of `cur` goes
        have htmp : (if e > cur.end_ then cur.end_ else e) = cur.end_ := by
          split <;> omega
        simp only [if_neg hb, htmp, lt_irrefl, and_false, if_false, if_true,
          if_neg (show ¬ b = cur.begin_ by omega), hpred]
        rw [link_entries, entryRanges_cons, ih ⟨hcan, hpages⟩ hbe, hrange, Range.minus,
          if_pos (by simp only; omega), if_neg (by simp only; omega),
          Nat.min_eq_right (by simp only; omega)]
        simp only [RangeEntry.range, List.append_nil, List.singleton_append,
          show b - 1 + 1 = b by omega]

theorem PageBounds.minus {r : Range Nat} (h : PageBounds r.lo r.hi) (hp : PageBounds lo hi)
    (hs : s ∈ r.minus lo hi) : PageBounds s.lo s.hi := by
  simp only [Range.minus, List.mem_append, List.mem_ite_nil_right, List.mem_singleton] at hs
  rcases hs with ⟨-, rfl⟩ | ⟨-, rfl⟩
  · refine ⟨Nat.lt_of_le_of_lt (Nat.min_le_left _ _) h.fits, h.loAligned, ?_⟩
    rcases Nat.le_total r.hi lo with hle | hle
    · simpa only [Nat.min_eq_left hle] using h.hiAligned
    · simpa only [Nat.min_eq_right hle] using hp.loAligned
  · refine ⟨h.fits, ?_, h.hiAligned⟩
    rcases Nat.le_total r.lo hi with hle | hle
    · simpa only [Nat.max_eq_right hle] using hp.hiAligned
    · simpa only [Nat.max_eq_left hle] using h.loAligned

section

variable {m : Memranges} {b e : Nat}

theorem removeMemranges_entries (h : MemrangesInv m.entries) (hbe : b ≤ e)
    (hp : PageBounds b (e + 1)) :
    entryRanges (removeMemranges m b e).entries = erase b (e + 1) (entryRanges m.entries) :=
  removeFrom_erase h hbe hp.fits m.freeList

theorem removeMemranges_spec (h : MemrangesInv m.entries) (hbe : b ≤ e)
    (hp : PageBounds b (e + 1)) :
    MemrangesInv (removeMemranges m b e).entries ∧
      Overrides (entryRanges m.entries) (entryRanges (removeMemranges m b e).entries)
        ⟨b, e + 1, none⟩ := by
  have hent := removeMemranges_entries h hbe hp
  refine ⟨⟨hent ▸ h.canonical.erase (by omega), fun s hs => ?_⟩, fun a t => ?_⟩
  · rw [hent] at hs
    obtain ⟨r, hr, hs⟩ := mem_erase hs
    exact (h.pages r hr).minus hp hs
  · rw [hent, has_erase]
    simp only [Write.Covers, reduceCtorEq]
    split
    · exact ⟨fun h => h.1 ‹_›, False.elim⟩
    · exact ⟨And.right, fun h => ⟨‹_›, h⟩⟩

end

-- ---------------------------------------------------------------------------
-- merge_add_memranges
-- ---------------------------------------------------------------------------

theorem mergeFrom_entries {prev : RangeEntry} {l : List RangeEntry}
    (hs : Sorted (entryRanges (prev :: l))) (hf : ∀ r ∈ entryRanges (prev :: l), r.hi < 2 ^ 64)
    (free : List RangeEntry) :
    entryRanges (mergeFrom prev l free).entries = Lib.Ranges.mergeFrom prev.range (entryRanges l) := by
  induction l generalizing prev free with
  | nil => rfl
  | cons cur rest ih =>
    rw [entryRanges_cons] at hs hf
    obtain ⟨hne, ho, hs'⟩ := sorted_cons.mp hs
    obtain ⟨hfit, hf'⟩ := List.forall_mem_cons.mp hf
    have hwrap : u64 (prev.end_ + 1) = prev.end_ + 1 := u64_eq hfit
    have hle : prev.end_ + 1 ≤ cur.begin_ := ho cur.range (by simp)
    have hcond : (u64 (prev.end_ + 1) ≥ cur.begin_ ∧ prev.tag = cur.tag) ↔
        (prev.range.hi = cur.range.lo ∧ prev.range.tag = cur.range.tag) := by
      simp only [hwrap, RangeEntry.range]
      omega
    rw [entryRanges_cons, Lib.Ranges.mergeFrom, mergeFrom]
    by_cases hm : u64 (prev.end_ + 1) ≥ cur.begin_ ∧ prev.tag = cur.tag
    · rw [if_pos hm, if_pos (hcond.mp hm)]
      obtain ⟨hnec, hoc, hs''⟩ := sorted_cons.mp hs'
      obtain ⟨hfitc, hf''⟩ := List.forall_mem_cons.mp hf'
      refine @ih { prev with end_ := cur.end_ } (sorted_cons.mpr ⟨?_, hoc, hs''⟩)
        (List.forall_mem_cons.mpr ⟨hfitc, hf''⟩) _
      simp only [RangeEntry.range] at hne hnec ⊢
      omega
    · rw [if_neg hm, if_neg (mt hcond.mpr hm), link_entries, entryRanges_cons, ih hs' hf']

/-- The new entry goes behind everything that does not start after it. -/
theorem addFrom_entries (b e t : Nat) (l free : List RangeEntry) :
    ∃ pre post, l = pre ++ post ∧ (addFrom b e t l free).entries = pre ++ ⟨b, e, t⟩ :: post ∧
      (∀ x ∈ pre, x.begin_ ≤ e) ∧ ∀ x ∈ post.head?, e < x.begin_ := by
  induction l with
  | nil => exact ⟨[], [], rfl, rfl, by simp, by simp⟩
  | cons cur next ih =>
    rw [addFrom]
    by_cases hlt : e < cur.begin_
    · rw [if_pos hlt]
      exact ⟨[], cur :: next, rfl, rfl, by simp, by simpa using hlt⟩
    · obtain ⟨pre, post, rfl, hadd, hpre, hpost⟩ := ih
      rw [if_neg hlt]
      exact ⟨cur :: pre, post, rfl, by rw [link_entries, hadd]; rfl,
        List.forall_mem_cons.mpr ⟨by omega, hpre⟩, hpost⟩

section

variable {m : Memranges} {b e : Nat}

theorem mergeNeighborEntries_entries (hs : Sorted (entryRanges m.entries))
    (hf : ∀ r ∈ entryRanges m.entries, r.hi < 2 ^ 64) :
    entryRanges (mergeNeighborEntries m).entries = merge (entryRanges m.entries) := by
  obtain ⟨entries, freeList⟩ := m
  cases entries with
  | nil => rfl
  | cons prev rest => exact mergeFrom_entries hs hf freeList

theorem mergeAddMemranges_spec (t : Nat) (h : MemrangesInv m.entries) (hbe : b ≤ e)
    (hp : PageBounds b (e + 1)) :
    MemrangesInv (mergeAddMemranges m b e t).entries ∧
      Overrides (entryRanges m.entries) (entryRanges (mergeAddMemranges m b e t).entries)
        ⟨b, e + 1, some t⟩ := by
  obtain ⟨hinv, hover⟩ := removeMemranges_spec h hbe hp
  unfold mergeAddMemranges
  generalize removeMemranges m b e = m₁ at hinv hover ⊢
  obtain ⟨pre, post, hsplit, hadd, hpre, hpost⟩ := addFrom_entries b e t m₁.entries m₁.freeList
  have hsorted := hinv.canonical.sorted'
  have hpages := hinv.pages
  have hfree : ∀ r ∈ entryRanges m₁.entries, ∀ a, r.Covers a →
      ¬ (⟨b, e + 1, t⟩ : Range Nat).Covers a := by
    intro r hr a hra hc
    have hh := (hover a r.tag).mp ⟨r, hr, hra, rfl⟩
    rw [if_pos (show (⟨b, e + 1, none⟩ : Write Nat).Covers a from hc)] at hh
    exact absurd hh (by simp)
  have hlist : entryRanges (addFrom b e t m₁.entries m₁.freeList).entries =
      entryRanges pre ++ ⟨b, e + 1, t⟩ :: entryRanges post := by
    rw [hadd, entryRanges_append, entryRanges_cons]
    rfl
  rw [hsplit, entryRanges_append] at hsorted hpages hfree
  have hsorted' := hsorted.insert (n := ⟨b, e + 1, t⟩) (by simp only; omega) hfree
    (fun r hr => by
      obtain ⟨x, hx, rfl⟩ := mem_entryRanges.mp hr
      exact Nat.lt_succ_of_le (hpre x hx))
    (fun r hr => by
      cases post with
      | nil => simp at hr
      | cons x post =>
        obtain rfl : x.range = r := by simpa using hr
        exact hpost x rfl)
  have hpages' : ∀ r ∈ entryRanges pre ++ ⟨b, e + 1, t⟩ :: entryRanges post,
      PageBounds r.lo r.hi := by
    rw [List.forall_mem_append, List.forall_mem_cons]
    rw [List.forall_mem_append] at hpages
    exact ⟨hpages.1, hp, hpages.2⟩
  have hmerge := mergeNeighborEntries_entries (m := addFrom b e t m₁.entries m₁.freeList)
    (hlist ▸ hsorted') (fun r hr => (hpages' r (hlist ▸ hr)).fits)
  rw [hlist] at hmerge
  refine ⟨⟨hmerge ▸ merge_canonical hsorted', fun r hr => ?_⟩, fun a u => ?_⟩
  · rw [hmerge] at hr
    obtain ⟨⟨y, hy, hlo⟩, z, hz, hhi⟩ := mem_merge hr
    rw [hlo, hhi]
    exact ⟨(hpages' z hz).fits, (hpages' y hy).loAligned, (hpages' z hz).hiAligned⟩
  · have hover' := hover a u
    rw [hsplit, entryRanges_append, has_append] at hover'
    rw [hmerge, has_merge hsorted', has_append, has_cons, or_left_comm, hover']
    by_cases hc : b ≤ a ∧ a < e + 1
    · simp only [Write.Covers, Range.Covers, hc, and_self, if_true, reduceCtorEq, true_and,
        or_false, Option.some.injEq]
    · simp only [Write.Covers, Range.Covers, hc, if_false, false_and, false_or]

end

-- ---------------------------------------------------------------------------
-- Runs
-- ---------------------------------------------------------------------------

inductive MemrangesCall where
  | insert (base size tag : Nat)
  | createHole (base size : Nat)
  deriving DecidableEq, Repr

namespace MemrangesCall

def base : MemrangesCall → Nat
  | insert b _ _ => b
  | createHole b _ => b

def size : MemrangesCall → Nat
  | insert _ s _ => s
  | createHole _ s => s

/-- What the call leaves on its pages. -/
def val : MemrangesCall → Option Nat
  | insert _ _ t => some t
  | createHole _ _ => none

def run (m : Memranges) : MemrangesCall → Memranges
  | insert b s t => memrangesInsert m b s t
  | createHole b s => memrangesCreateHole m b s

/-- The rounded end does not wrap. -/
def Fits (c : MemrangesCall) : Prop := alignUp (c.base + c.size) 4096 < 2 ^ 64

instance (c : MemrangesCall) : Decidable c.Fits := inferInstanceAs (Decidable (_ < _))

/-- The page-rounded range of the call covers `a`. -/
def Covers (c : MemrangesCall) (a : Nat) : Prop :=
  alignDown c.base 4096 ≤ a ∧ a < alignUp (c.base + c.size) 4096

instance (c : MemrangesCall) (a : Nat) : Decidable (c.Covers a) :=
  inferInstanceAs (Decidable (_ ∧ _))

def write (c : MemrangesCall) : Write Nat :=
  ⟨alignDown c.base 4096, alignUp (c.base + c.size) 4096, c.val⟩

end MemrangesCall

def runCalls (cs : List MemrangesCall) : Memranges := cs.foldl MemrangesCall.run ⟨[], []⟩

def Memranges.tagAt (m : Memranges) (a : Nat) : Option Nat := lookup (entryRanges m.entries) a

/-- The tag that the last call over `a` left there. -/
def lastTag (cs : List MemrangesCall) (a : Nat) : Option Nat :=
  (cs.reverse.find? fun c => c.Covers a).bind MemrangesCall.val

theorem lastTag_eq (cs : List MemrangesCall) (a : Nat) :
    lastTag cs a = lastWrite (cs.map MemrangesCall.write) a := by
  simp only [lastTag, lastWrite, ← List.map_reverse, List.find?_map, Option.bind_map]
  rfl

section

variable {base size : Nat}

theorem action_bounds (hpos : 0 < size) (hfit : alignUp (base + size) 4096 < 2 ^ 64) :
    actionBegin base ≤ actionEnd base size ∧
      actionEnd base size + 1 = alignUp (base + size) 4096 ∧
      PageBounds (actionBegin base) (actionEnd base size + 1) := by
  have hup := le_alignUp (a := 4096) (base + size) (by decide)
  have hle := alignDown_le base 4096
  have hsum : alignDown base 4096 + size + (base - alignDown base 4096) = base + size := by omega
  have hdvd := dvd_alignUp (base + size) 4096
  have hlt : base + size + 4095 < 2 ^ 64 := by
    have := lt_alignDown_add (a := 4096) (base + size + 4095) (by decide)
    simp only [alignUp, Nat.add_one_sub_one] at hfit hdvd
    omega
  have hend : actionEnd base size + 1 = alignUp (base + size) 4096 := by
    simp only [actionEnd, actionBegin, hsum]
    rw [u64_eq (show base + size < 2 ^ 64 by omega), u64_eq hlt]
    change u64 (alignUp (base + size) 4096 + 2 ^ 64 - 1) + 1 = _
    rw [u64_pred (by omega) hfit]
    omega
  have hbe : actionBegin base ≤ actionEnd base size := by
    unfold actionBegin
    omega
  exact ⟨hbe, hend, hend ▸ hfit, dvd_alignDown _ _, hend ▸ dvd_alignUp _ _⟩

end

theorem runCalls_concat (cs : List MemrangesCall) (c : MemrangesCall) :
    runCalls (cs ++ [c]) = c.run (runCalls cs) := by
  simp [runCalls]

theorem MemrangesCall.run_spec {m : Memranges} (h : MemrangesInv m.entries) (c : MemrangesCall)
    (hpos : 0 < c.size) (hfit : c.Fits) :
    MemrangesInv (c.run m).entries ∧
      Overrides (entryRanges m.entries) (entryRanges (c.run m).entries) c.write := by
  obtain ⟨hbe, hend, hp⟩ := action_bounds hpos hfit
  cases c with
  | insert base size tag =>
    simp only [write, ← hend]
    exact mergeAddMemranges_spec tag h hbe hp
  | createHole base size =>
    simp only [write, ← hend]
    exact removeMemranges_spec h hbe hp

theorem runCalls_spec (cs : List MemrangesCall) (hfit : ∀ c ∈ cs, c.Fits)
    (hpos : ∀ c ∈ cs, 0 < c.size) :
    MemrangesInv (runCalls cs).entries ∧
      ∀ a, (runCalls cs).tagAt a = lastWrite (cs.map MemrangesCall.write) a := by
  induction cs using List.reverseRecOn with
  | nil => exact ⟨⟨canonical_nil, by simp [runCalls]⟩, fun a => rfl⟩
  | append_singleton cs c ih =>
    obtain ⟨hinv, hmean⟩ := ih (fun x hx => hfit x (by simp [hx])) fun x hx => hpos x (by simp [hx])
    obtain ⟨hinv', hover⟩ := c.run_spec hinv (hpos c (by simp)) (hfit c (by simp))
    rw [runCalls_concat, List.map_append, List.map_singleton]
    exact ⟨hinv', fun a => hover.lastWrite hinv.canonical hinv'.canonical hmean a⟩

/-- What a run is meant to leave: sorted, disjoint, page-aligned entries,
merged with their neighbours, that say of every address what the last call
over it said. -/
structure MemrangesMeaning (cs : List MemrangesCall) (m : Memranges) : Prop where
  entries : ∀ e ∈ m.entries, e.begin_ ≤ e.end_ ∧ 4096 ∣ e.begin_ ∧ 4096 ∣ e.end_ + 1
  sorted : m.entries.Pairwise fun e f =>
    e.end_ < f.begin_ ∧ (e.end_ + 1 = f.begin_ → e.tag ≠ f.tag)
  tags : ∀ a, m.tagAt a = lastTag cs a

/-- Every run of calls of non-zero size has its meaning. -/
theorem runCalls_meaning (cs : List MemrangesCall) (hfit : ∀ c ∈ cs, c.Fits)
    (hpos : ∀ c ∈ cs, 0 < c.size) : MemrangesMeaning cs (runCalls cs) := by
  obtain ⟨⟨hcan, hpages⟩, hmean⟩ := runCalls_spec cs hfit hpos
  refine ⟨fun e he => ?_, ?_, fun a => by rw [hmean, lastTag_eq]⟩
  · have hmem := mem_entryRanges.mpr ⟨e, he, rfl⟩
    have hne := hcan.nonempty e.range hmem
    have hp := hpages e.range hmem
    exact ⟨Nat.le_of_lt_succ hne, hp.loAligned, hp.hiAligned⟩
  · exact List.pairwise_map.mp hcan.sorted

/-- RAM with a hole at its third page, the first page of which gets another
tag. -/
theorem runCalls_meaning_hole :
    let cs : List MemrangesCall :=
      [.insert 0 0x10000 6, .createHole 0x2010 0xfe0, .insert 0x3000 1 5, .insert 0x2000 0x1000 6]
    (runCalls cs).entries = [⟨0, 0x2fff, 6⟩, ⟨0x3000, 0x3fff, 5⟩, ⟨0x4000, 0xffff, 6⟩] ∧
      MemrangesMeaning cs (runCalls cs) :=
  ⟨by decide, runCalls_meaning _ (by decide) (by decide)⟩

/-- A hole of size 0 at address 0 ends at the last address of all: it
empties the list. -/
theorem createHole_zero_empties :
    let cs : List MemrangesCall := [.insert 0x100000 0x1000 1, .createHole 0 0]
    (∀ c ∈ cs, c.Fits) ∧ (runCalls cs).entries = [] ∧
      (runCalls (cs.take 1)).entries = [⟨0x100000, 0x100fff, 1⟩] ∧
      ¬ MemrangesMeaning cs (runCalls cs) := by
  refine ⟨by decide, by decide, by decide, fun h => ?_⟩
  have := h.tags 0x100000
  revert this
  decide

end ItxLlama.Coreboot
