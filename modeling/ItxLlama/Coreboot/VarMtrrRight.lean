import ItxLlama.Coreboot.VarMtrrPlans
import Mathlib.Data.List.Forall2

/-!
# The variable MTRRs give every page its type

The pieces of all entries together have each page of an entry in its type: an
entry of the default type has none, or one that is uncacheable. So the registers
mean what the address space says, as long as there are as many as were counted.
-/

namespace ItxLlama.Coreboot.VarMtrr

open Lib.Word Lib.Ranges Lib.Dyadic

-- ---------------------------------------------------------------------------
-- All entries
-- ---------------------------------------------------------------------------

/-- Entries one behind the other. -/
structure Entries (n : Nat) (l : List RangeEntry) : Prop where
  fits : ∀ r ∈ l, Fits n r
  ordered : l.Pairwise fun r s => rangeEntryEndMtrrAddr r ≤ rangeEntryBaseMtrrAddr s

theorem Entries.tail (h : Entries n (r :: l)) : Entries n l :=
  ⟨fun s hs => h.fits s (List.mem_cons_of_mem _ hs), h.ordered.of_cons⟩

theorem Entries.head_le (h : Entries n (r :: l)) :
    ∀ s ∈ l, rangeEntryEndMtrrAddr r ≤ rangeEntryBaseMtrrAddr s :=
  (List.pairwise_cons.mp h.ordered).1

/-- What the pieces of all entries are for. -/
structure Mapped (above4gb : Bool) (n d : Nat) (l : List RangeEntry) (ps : List Piece) : Prop where
  aligned : ∀ p ∈ ps, 2 ^ p.block.log ∣ p.block.base
  below : ∀ p ∈ ps, p.block.top ≤ 2 ^ n
  types : ∀ p ∈ ps, p.type = d ∨ ∃ r ∈ l, p.type = rangeEntryMtrrType r
  own : ∀ page, Asked above4gb page → ∀ r ∈ l, HasPage r page → rangeEntryMtrrType r ≠ d →
    (∃ p ∈ ps, p.block.Covers page) ∧
      ∀ p ∈ ps, p.block.Covers page → p.type = rangeEntryMtrrType r
  default : ∀ page, Asked above4gb page → ∀ r ∈ l, HasPage r page → rangeEntryMtrrType r = d →
    ∀ p ∈ ps, p.block.Covers page → d = uncacheable ∧ ∃ q ∈ ps, q.block.Covers page ∧ q.type = d
  starts : ∀ page, Asked above4gb page → ∀ p ∈ ps, p.block.Covers page →
    ∃ r ∈ l, rangeEntryBaseMtrrAddr r ≤ page

variable {above4gb : Bool} {n d : Nat} {r : RangeEntry} {l : List RangeEntry} {ps qs : List Piece}

theorem mapped_nil : Mapped above4gb n d [] [] := by
  constructor <;> simp

theorem Mapped.not_head (h : Mapped above4gb n d l ps) (hl : Entries n (r :: l)) {page : Nat}
    (hpage : Asked above4gb page) (hhas : HasPage r page) : ∀ p ∈ ps, ¬ p.block.Covers page := by
  intro p hp hcovers
  obtain ⟨s, hs, hle⟩ := h.starts page hpage p hp hcovers
  exact Nat.lt_irrefl _ (Nat.lt_of_lt_of_le hhas.2 (Nat.le_trans (hl.head_le s hs) hle))

theorem Mapped.skip (h : Mapped above4gb n d l ps) (hl : Entries n (r :: l))
    (hd : rangeEntryMtrrType r = d) : Mapped above4gb n d (r :: l) ps where
  aligned := h.aligned
  below := h.below
  types p hp := (h.types p hp).imp_right fun ⟨s, hs, heq⟩ => ⟨s, List.mem_cons_of_mem _ hs, heq⟩
  own page hpage s hs hhas hne := by
    rcases List.mem_cons.mp hs with rfl | hs
    · exact absurd hd hne
    · exact h.own page hpage s hs hhas hne
  default page hpage s hs hhas heq p hp hcovers := by
    rcases List.mem_cons.mp hs with rfl | hs
    · exact absurd hcovers (h.not_head hl hpage hhas p hp)
    · exact h.default page hpage s hs hhas heq p hp hcovers
  starts page hpage p hp hcovers := by
    obtain ⟨s, hs, hle⟩ := h.starts page hpage p hp hcovers
    exact ⟨s, List.mem_cons_of_mem _ hs, hle⟩

/-- Pieces of an entry that have a page of a later one: this is the next entry, it has the
default type, and a piece has the page in it. -/
theorem Plan.later {s : RangeEntry} (h : Plan above4gb n d r l.head? ps) (hl : Entries n (r :: l))
    (hs : s ∈ l) {page : Nat} (hpage : Asked above4gb page) (hhas : HasPage s page)
    (hcovers : ∃ p ∈ ps, p.block.Covers page) :
    rangeEntryMtrrType s = d ∧ ∃ q ∈ ps, q.block.Covers page ∧ q.type = d := by
  obtain ⟨p, hp, hcovers⟩ := hcovers
  have hnot : ¬ HasPage r page := fun hr => Nat.lt_irrefl _
    (Nat.lt_of_lt_of_le hr.2 (Nat.le_trans (hl.head_le s hs) hhas.1))
  obtain ⟨-, hnext⟩ := h.behind page hpage p hp hcovers hnot
  cases l with
  | nil => exact absurd hs List.not_mem_nil
  | cons s' l =>
    obtain ⟨htype, hlt, hpiece⟩ := hnext s' rfl
    rcases List.mem_cons.mp hs with rfl | hs
    · exact ⟨htype, hpiece⟩
    · exact absurd (Nat.lt_of_lt_of_le hlt (Nat.le_trans (hl.tail.head_le s hs) hhas.1))
        (Nat.lt_irrefl _)

theorem Mapped.cons (h : Mapped above4gb n d l ps) (hl : Entries n (r :: l))
    (hplan : Plan above4gb n d r l.head? qs) (hne : rangeEntryMtrrType r ≠ d)
    (hbehind : d = uncacheable ∨
      ∀ page, Asked above4gb page → ∀ q ∈ qs, q.block.Covers page → HasPage r page) :
    Mapped above4gb n d (r :: l) (qs ++ ps) where
  aligned := List.forall_mem_append.mpr ⟨hplan.aligned, h.aligned⟩
  below := List.forall_mem_append.mpr ⟨hplan.below, h.below⟩
  types := List.forall_mem_append.mpr
    ⟨fun q hq => (hplan.types q hq).symm.imp_right fun heq => ⟨r, List.mem_cons_self .., heq⟩,
      fun p hp => (h.types p hp).imp_right fun ⟨s, hs, heq⟩ =>
        ⟨s, List.mem_cons_of_mem _ hs, heq⟩⟩
  own page hpage s hs hhas hne' := by
    rcases List.mem_cons.mp hs with rfl | hs
    · obtain ⟨q, hq, hcovers⟩ := hplan.covers page hpage hhas
      refine ⟨⟨q, List.mem_append_left _ hq, hcovers⟩, fun p hp hcovers => ?_⟩
      rcases List.mem_append.mp hp with hp | hp
      · exact hplan.type page hpage hhas p hp hcovers
      · exact absurd hcovers (h.not_head hl hpage hhas p hp)
    · obtain ⟨⟨p, hp, hcovers⟩, htype⟩ := h.own page hpage s hs hhas hne'
      refine ⟨⟨p, List.mem_append_right _ hp, hcovers⟩, fun p hp hcovers => ?_⟩
      rcases List.mem_append.mp hp with hp | hp
      · exact absurd (hplan.later hl hs hpage hhas ⟨p, hp, hcovers⟩).1 hne'
      · exact htype p hp hcovers
  default page hpage s hs hhas heq p hp hcovers := by
    rcases List.mem_cons.mp hs with rfl | hs
    · exact absurd heq hne
    rcases List.mem_append.mp hp with hp | hp
    · obtain ⟨-, q, hq, hcovers', htype⟩ := hplan.later hl hs hpage hhas ⟨p, hp, hcovers⟩
      refine ⟨?_, q, List.mem_append_left _ hq, hcovers', htype⟩
      rcases hbehind with huc | hinside
      · exact huc
      · have hr := hinside page hpage p hp hcovers
        exact absurd (Nat.lt_of_lt_of_le hr.2 (Nat.le_trans (hl.head_le s hs) hhas.1))
          (Nat.lt_irrefl _)
    · obtain ⟨huc, q, hq, hcovers', htype⟩ := h.default page hpage s hs hhas heq p hp hcovers
      exact ⟨huc, q, List.mem_append_right _ hq, hcovers', htype⟩
  starts page hpage p hp hcovers := by
    rcases List.mem_append.mp hp with hp | hp
    · refine ⟨r, List.mem_cons_self .., ?_⟩
      by_cases hhas : HasPage r page
      · exact hhas.1
      · have hfits := (hl.fits r (List.mem_cons_self ..)).nonempty
        exact Nat.le_trans (Nat.le_of_lt hfits) (hplan.behind page hpage p hp hcovers hhas).1
    · obtain ⟨s, hs, hle⟩ := h.starts page hpage p hp hcovers
      exact ⟨s, List.mem_cons_of_mem _ hs, hle⟩

theorem commitEntries_mapped (hl : Entries n l) (hn : 14 ≤ n) (above4gb : Bool) (d : Nat) :
    ∃ ps, Mapped above4gb n d l ps ∧ ∀ totalMtrrs s, s.above4gb = above4gb → s.defMtrrType = d →
      Adds totalMtrrs ps s (commitEntries totalMtrrs s l) := by
  induction l with
  | nil => exact ⟨[], mapped_nil, fun _ s _ _ => .refl s⟩
  | cons r l ih =>
    obtain ⟨ps, hmapped, hrest⟩ := ih hl.tail
    have hfits := hl.fits r (List.mem_cons_self ..)
    by_cases hd : rangeEntryMtrrType r = d
    · refine ⟨ps, hmapped.skip hl hd, fun totalMtrrs s hs hdef => ?_⟩
      rw [commitEntries, commitEntry, if_pos (hd.trans hdef.symm)]
      exact hrest totalMtrrs s hs hdef
    by_cases hhole : d = uncacheable ∧ r.tag.testBit mtrrAlgoShift
    · obtain ⟨qs, hplan, hadds⟩ := withHole_plan hfits hn above4gb d l.head?
      refine ⟨qs ++ ps, hmapped.cons hl hplan hd (.inl hhole.1), fun totalMtrrs s hs hdef => ?_⟩
      have hfirst := hadds totalMtrrs s hs hdef
      rw [commitEntries, commitEntry, if_neg (hdef ▸ hd), if_pos (hdef ▸ hhole)]
      exact hfirst.trans (hrest totalMtrrs _ (hfirst.above4gb.trans hs)
        (hfirst.defMtrrType.trans hdef))
    · obtain ⟨qs, -, hplan, hinside, hadds⟩ := withoutHole_plan hfits above4gb
      refine ⟨qs ++ ps, hmapped.cons hl (hplan d _) hd (.inr hinside),
        fun totalMtrrs s hs hdef => ?_⟩
      have hfirst := hadds totalMtrrs s hs
      rw [commitEntries, commitEntry, if_neg (hdef ▸ hd), if_neg (hdef ▸ hhole)]
      exact hfirst.trans (hrest totalMtrrs _ (hfirst.above4gb.trans hs)
        (hfirst.defMtrrType.trans hdef))

-- ---------------------------------------------------------------------------
-- The counts
-- ---------------------------------------------------------------------------

/-- The walk changes an entry in its tag only, above the type. -/
structure Same (r r' : RangeEntry) : Prop where
  begin_ : r'.begin_ = r.begin_
  end_ : r'.end_ = r.end_
  type : rangeEntryMtrrType r' = rangeEntryMtrrType r

theorem Same.base {r r' : RangeEntry} (h : Same r r') :
    rangeEntryBaseMtrrAddr r' = rangeEntryBaseMtrrAddr r := by
  unfold rangeEntryBaseMtrrAddr
  rw [h.begin_]

theorem Same.limit {r r' : RangeEntry} (h : Same r r') :
    rangeEntryEndMtrrAddr r' = rangeEntryEndMtrrAddr r := by
  unfold rangeEntryEndMtrrAddr
  rw [h.end_]

theorem Same.hasPage {r r' : RangeEntry} (h : Same r r') (page : Nat) :
    HasPage r' page ↔ HasPage r page := by
  rw [HasPage, h.base, h.limit, HasPage]

theorem Same.fits {r r' : RangeEntry} (h : Same r r') (hfits : Fits n r) : Fits n r' :=
  ⟨by rw [h.base, h.limit]; exact hfits.nonempty, by rw [h.limit]; exact hfits.room,
    by rw [h.limit]; exact hfits.below⟩

theorem Entries.same {l l' : List RangeEntry} (h : Entries n l) (hsame : List.Forall₂ Same l l') :
    Entries n l' := by
  induction hsame with
  | nil => exact h
  | @cons r r' l l' hr hrest ih =>
    have htail := ih h.tail
    refine ⟨List.forall_mem_cons.mpr ⟨hr.fits (h.fits r (List.mem_cons_self ..)), htail.fits⟩,
      List.pairwise_cons.mpr ⟨fun s' hs' => ?_, htail.ordered⟩⟩
    obtain ⟨s, hs, hsame⟩ : ∃ s ∈ l, Same s s' := by
      obtain ⟨i, hi, rfl⟩ := List.mem_iff_getElem.mp hs'
      have hlen := hrest.length_eq
      exact ⟨l[i], List.getElem_mem _, hrest.get (by omega) hi⟩
    rw [hr.limit, hsame.base]
    exact h.head_le s hs

section
variable (totalMtrrs : Nat)

theorem calcVarMtrrHole_same {l l' : List RangeEntry} (hl : List.Forall₂ Same l l')
    (s : VarMtrrState) (a1 a2 t : Nat) :
    calcVarMtrrHole totalMtrrs s a1 a2 t l'.head? =
      calcVarMtrrHole totalMtrrs s a1 a2 t l.head? := by
  cases hl with
  | nil => rfl
  | cons hnext _ =>
    unfold calcVarMtrrHole
    dsimp only [List.head?_cons, Option.isNone_some]
    rw [hnext.type, hnext.limit]
    rfl

theorem calcVarMtrrsWithHole_same {r r' : RangeEntry} (h : Same r r') {l l' : List RangeEntry}
    (hl : List.Forall₂ Same l l') (s : VarMtrrState) :
    calcVarMtrrsWithHole totalMtrrs s r' l'.head? =
      calcVarMtrrsWithHole totalMtrrs s r l.head? := by
  unfold calcVarMtrrsWithHole clip
  simp only [h.base, h.limit, h.type, calcVarMtrrHole_same totalMtrrs hl]

variable {totalMtrrs}

theorem counted_withoutHole (hfits : Fits n r) (above4gb : Bool) (addressBits d : Nat)
    (msrs : Nat → PhysMtrr) :
    counted (calcVarMtrrsWithoutHole totalMtrrs · r) above4gb addressBits d msrs < 64 ∧
      ∀ s, s.above4gb = above4gb → (calcVarMtrrsWithoutHole totalMtrrs s r).mtrrIndex =
        s.mtrrIndex +
          counted (calcVarMtrrsWithoutHole totalMtrrs · r) above4gb addressBits d msrs := by
  obtain ⟨ps, hlength, -, -, hadds⟩ := withoutHole_plan hfits above4gb
  have hcount : counted (calcVarMtrrsWithoutHole totalMtrrs · r) above4gb addressBits d msrs =
      ps.length := by
    rw [counted, (hadds totalMtrrs _ rfl).mtrrIndex, Nat.zero_add]
  rw [hcount]
  exact ⟨hlength, fun s hs => (hadds totalMtrrs s hs).mtrrIndex⟩

theorem counted_withHole (hfits : Fits n r) (hn : 14 ≤ n) (above4gb : Bool) (addressBits d : Nat)
    (msrs : Nat → PhysMtrr) (next : Option RangeEntry) :
    ∀ s, s.above4gb = above4gb → s.defMtrrType = d →
      (calcVarMtrrsWithHole totalMtrrs s r next).mtrrIndex = s.mtrrIndex +
        counted (calcVarMtrrsWithHole totalMtrrs · r next) above4gb addressBits d msrs := by
  obtain ⟨ps, -, hadds⟩ := withHole_plan hfits hn above4gb d next
  intro s hs hd
  rw [counted, (hadds totalMtrrs s hs hd).mtrrIndex, (hadds totalMtrrs _ rfl rfl).mtrrIndex,
    Nat.zero_add]

theorem same_self (r : RangeEntry) : Same r r := ⟨rfl, rfl, rfl⟩

theorem same_marked (r : RangeEntry) :
    Same r { r with tag := rangeEntryMtrrType r ||| mtrrRangeUcUseHole } := by
  refine ⟨rfl, rfl, ?_⟩
  unfold rangeEntryMtrrType mtrrRangeUcUseHole
  rw [Nat.or_mod_two_pow, Nat.mod_mod, Nat.mod_self, Nat.or_zero]

theorem marked_testBit (t : Nat) : (t ||| mtrrRangeUcUseHole).testBit mtrrAlgoShift = true := by
  unfold mtrrRangeUcUseHole
  rw [Nat.testBit_or, Nat.testBit_two_pow_self, Bool.or_true]

section
variable {above4gb : Bool} {addressBits : Nat} {msrs : Nat → PhysMtrr} {next : Option RangeEntry}

theorem commitEntry_unmarked (totalMtrrs : Nat) (above4gb : Bool) (addressBits : Nat)
    (msrs : Nat → PhysMtrr) (next : Option RangeEntry) (hfits : Fits n r)
    (hmark : d = uncacheable → r.tag.testBit mtrrAlgoShift = false)
    (s : VarMtrrState) (hs : s.above4gb = above4gb) (hd : s.defMtrrType = d) :
    (commitEntry totalMtrrs s r next).mtrrIndex = s.mtrrIndex +
      if rangeEntryMtrrType r ≠ d then
        counted (calcVarMtrrsWithoutHole totalMtrrs · r) above4gb addressBits d msrs
      else 0 := by
  unfold commitEntry
  by_cases hdef : rangeEntryMtrrType r = d
  · rw [if_pos (hdef.trans hd.symm), if_neg (not_not.mpr hdef), Nat.add_zero]
  · have hnohole : ¬ (s.defMtrrType = uncacheable ∧ r.tag.testBit mtrrAlgoShift = true) := by
      rintro ⟨huc, hbit⟩
      rw [hmark (hd.symm.trans huc)] at hbit
      exact Bool.noConfusion hbit
    rw [if_neg (hd ▸ hdef), if_neg hnohole, if_pos hdef]
    exact (counted_withoutHole hfits above4gb addressBits d msrs).2 s hs

/-- What the dry runs make of an entry: its number for the default type WB, and the algorithm
and its number for UC. -/
theorem calcEntry_spec (totalMtrrs : Nat) (above4gb : Bool) (addressBits : Nat)
    (msrs : Nat → PhysMtrr) (hfits : Fits n r) (hn : 14 ≤ n) (htag : r.tag < 2 ^ mtrrAlgoShift)
    {l' : List RangeEntry} (hl : List.Forall₂ Same l l') :
    Same r (calcEntry totalMtrrs above4gb addressBits msrs r l.head?).1 ∧
      (∀ s, s.above4gb = above4gb → s.defMtrrType = wrback →
        (commitEntry totalMtrrs s (calcEntry totalMtrrs above4gb addressBits msrs r l.head?).1
          l'.head?).mtrrIndex = s.mtrrIndex +
            (calcEntry totalMtrrs above4gb addressBits msrs r l.head?).2.1) ∧
      ∀ s, s.above4gb = above4gb → s.defMtrrType = uncacheable →
        (commitEntry totalMtrrs s (calcEntry totalMtrrs above4gb addressBits msrs r l.head?).1
          l'.head?).mtrrIndex = s.mtrrIndex +
            (calcEntry totalMtrrs above4gb addressBits msrs r l.head?).2.2 := by
  have hbit : r.tag.testBit mtrrAlgoShift = false := Nat.testBit_lt_two_pow htag
  have hne : wrback ≠ uncacheable := by decide
  have hunmarked := fun d => commitEntry_unmarked (d := d) totalMtrrs above4gb addressBits msrs
    l'.head? hfits fun _ => hbit
  unfold calcEntry
  by_cases huc : rangeEntryMtrrType r = uncacheable
  · simp only [huc, ne_eq, not_true_eq_false, if_false, hne.symm, not_false_eq_true, if_true]
    refine ⟨same_self r, fun s hs hd => ?_, fun s hs hd => ?_⟩
    · rw [hunmarked wrback s hs hd, if_pos (huc ▸ hne.symm)]
    · rw [hunmarked uncacheable s hs hd, if_neg (not_not.mpr huc)]
  by_cases hbest : counted (calcVarMtrrsWithoutHole totalMtrrs · r) above4gb addressBits
      uncacheable msrs <
    if rangeEntryMtrrType r = wrback then
      counted (calcVarMtrrsWithHole totalMtrrs · r l.head?) above4gb addressBits uncacheable msrs
    else 64
  · simp only [ne_eq, huc, not_false_eq_true, if_true, hbest]
    refine ⟨same_self r, fun s hs hd => ?_, fun s hs hd => ?_⟩
    · rw [hunmarked wrback s hs hd]
    · rw [hunmarked uncacheable s hs hd, if_pos huc]
  · simp only [ne_eq, huc, not_false_eq_true, if_true, hbest, if_false]
    -- only a WB entry has the hole calculation
    have hwb : rangeEntryMtrrType r = wrback := by
      by_contra hwb
      rw [if_neg hwb] at hbest
      exact hbest (counted_withoutHole hfits above4gb addressBits uncacheable msrs).1
    have hsame := same_marked r
    refine ⟨hsame, fun s hs hd => ?_, fun s hs hd => ?_⟩
    · unfold commitEntry
      rw [if_pos (hsame.type.trans (hwb.trans hd.symm)), if_neg (not_not.mpr hwb), Nat.add_zero]
    · unfold commitEntry
      rw [if_neg (by rw [hsame.type, hd]; exact huc), if_pos ⟨hd, marked_testBit _⟩,
        calcVarMtrrsWithHole_same totalMtrrs hsame hl, if_pos hwb]
      exact counted_withHole hfits hn above4gb addressBits uncacheable msrs _ s hs hd

theorem commitEntry_settings (totalMtrrs : Nat) (next : Option RangeEntry) (hfits : Fits n r)
    (hn : 14 ≤ n) (s : VarMtrrState) :
    (commitEntry totalMtrrs s r next).above4gb = s.above4gb ∧
      (commitEntry totalMtrrs s r next).defMtrrType = s.defMtrrType := by
  unfold commitEntry
  split
  · exact ⟨rfl, rfl⟩
  split
  · obtain ⟨ps, -, hadds⟩ := withHole_plan hfits hn s.above4gb s.defMtrrType next
    exact ⟨(hadds totalMtrrs s rfl rfl).above4gb, (hadds totalMtrrs s rfl rfl).defMtrrType⟩
  · obtain ⟨ps, -, -, -, hadds⟩ := withoutHole_plan hfits s.above4gb
    exact ⟨(hadds totalMtrrs s rfl).above4gb, (hadds totalMtrrs s rfl).defMtrrType⟩

theorem calcEntries_spec (totalMtrrs : Nat) (above4gb : Bool) (addressBits : Nat)
    (msrs : Nat → PhysMtrr) (hl : Entries n l) (hn : 14 ≤ n)
    (htags : ∀ r ∈ l, r.tag < 2 ^ mtrrAlgoShift) :
    List.Forall₂ Same l (calcEntries totalMtrrs above4gb addressBits msrs l).entries ∧
      (∀ s, s.above4gb = above4gb → s.defMtrrType = wrback →
        (commitEntries totalMtrrs s
          (calcEntries totalMtrrs above4gb addressBits msrs l).entries).mtrrIndex =
            s.mtrrIndex + (calcEntries totalMtrrs above4gb addressBits msrs l).wbDeftypeCount) ∧
      ∀ s, s.above4gb = above4gb → s.defMtrrType = uncacheable →
        (commitEntries totalMtrrs s
          (calcEntries totalMtrrs above4gb addressBits msrs l).entries).mtrrIndex =
            s.mtrrIndex + (calcEntries totalMtrrs above4gb addressBits msrs l).ucDeftypeCount := by
  induction l with
  | nil => exact ⟨.nil, fun _ _ _ => rfl, fun _ _ _ => rfl⟩
  | cons r l ih =>
    obtain ⟨hsame, hwb, huc⟩ := ih hl.tail fun s hs => htags s (List.mem_cons_of_mem _ hs)
    have hfits := hl.fits r (List.mem_cons_self ..)
    obtain ⟨hsame', hwb', huc'⟩ := calcEntry_spec totalMtrrs above4gb addressBits msrs
      hfits hn (htags r (List.mem_cons_self ..)) hsame
    have hsettings := fun s => commitEntry_settings totalMtrrs
      (calcEntries totalMtrrs above4gb addressBits msrs l).entries.head? (hsame'.fits hfits) hn s
    refine ⟨.cons hsame' hsame, fun s hs hd => ?_, fun s hs hd => ?_⟩
    · have hrest := hwb _ ((hsettings s).1.trans hs) ((hsettings s).2.trans hd)
      rw [hwb' s hs hd] at hrest
      exact hrest.trans (Nat.add_assoc ..)
    · have hrest := huc _ ((hsettings s).1.trans hs) ((hsettings s).2.trans hd)
      rw [huc' s hs hd] at hrest
      exact hrest.trans (Nat.add_assoc ..)

end

end

end ItxLlama.Coreboot.VarMtrr
