import ItxLlama.Coreboot.VarMtrrPieces

/-!
# What the algorithms plan for an entry

Without a hole the pieces cover the pages of the entry, clipped to what is
looked at. With a hole they may reach into the next entry, and then they cover
what they have there with the default type too.
-/

namespace ItxLlama.Coreboot.VarMtrr

open Lib.Word Lib.Wrap Lib.Dyadic

section
variable {totalMtrrs : Nat} {ps : List Piece} {a1 a2 t d page : Nat}

theorem calcVarMtrrRange_sub (totalMtrrs : Nat) (s : VarMtrrState) (hle : lo ≤ hi)
    (hhi : hi < 2 ^ 32) (type : Nat) :
    Adds totalMtrrs (pieces lo (hi - lo) type) s
      (calcVarMtrrRange totalMtrrs s lo (sub32 hi lo) type) := by
  rw [sub32_of_le hle hhi]
  exact calcVarMtrrRange_adds s (by omega) (by omega) type

theorem exact_sub (hle : lo ≤ hi) (t : Nat) : Exact lo hi t (pieces lo (hi - lo) t) := by
  have hexact := exact_pieces lo (hi - lo) t
  rwa [Nat.add_sub_cancel' hle] at hexact

theorem mtrrMinAlign_eq : mtrrMinAlign = 2 ^ 14 := by decide

theorem alignUpMin_eq (hfit : x + 2 ^ 14 ≤ 2 ^ 32) : alignUpMin x = alignUp x (2 ^ 14) := by
  unfold alignUpMin
  rw [mtrrMinAlign_eq, u32_eq (by omega)]
  rfl

-- ---------------------------------------------------------------------------
-- Without a hole
-- ---------------------------------------------------------------------------

/-- The three parts of `[a1, c2)`. -/
def parts (a1 c2 t : Nat) : List Piece :=
  if c2 - a1 < 2 ^ 14 then pieces a1 (c2 - a1) t
  else pieces a1 (alignUp a1 (2 ^ 14) - a1) t ++
    pieces (alignUp a1 (2 ^ 14)) (alignDown c2 (2 ^ 14) - alignUp a1 (2 ^ 14)) t ++
    pieces (alignDown c2 (2 ^ 14)) (c2 - alignDown c2 (2 ^ 14)) t

theorem alignUp_le_alignDown (hlong : 2 ^ 14 ≤ c2 - a1) :
    alignUp a1 (2 ^ 14) ≤ alignDown c2 (2 ^ 14) := by
  have hup := alignUp_lt a1 (a := 2 ^ 14) (by decide)
  have hdown := lt_alignDown_add c2 (a := 2 ^ 14) (by decide)
  obtain ⟨j, hj⟩ := dvd_alignUp a1 (2 ^ 14)
  obtain ⟨k, hk⟩ := dvd_alignDown c2 (2 ^ 14)
  omega

theorem calcVarMtrrParts_adds (s : VarMtrrState) (hle : a1 ≤ c2) (hfit : c2 + 2 ^ 14 ≤ 2 ^ 32)
    (t : Nat) : Adds totalMtrrs (parts a1 c2 t) s (calcVarMtrrParts totalMtrrs s a1 c2 t) := by
  unfold calcVarMtrrParts parts
  have hsub := sub32_of_le hle (show c2 < 2 ^ 32 by omega)
  rw [hsub, mtrrMinAlign_eq]
  by_cases hshort : c2 - a1 < 2 ^ 14
  · rw [if_pos hshort, if_pos hshort]
    have hrange := calcVarMtrrRange_sub totalMtrrs s hle (by omega) t
    rwa [hsub] at hrange
  · rw [if_neg hshort, if_neg hshort]
    have hmid := alignUp_le_alignDown (Nat.le_of_not_lt hshort)
    have hup := le_alignUp a1 (a := 2 ^ 14) (by decide)
    have hdown := alignDown_le c2 (2 ^ 14)
    have hdownMin : alignDownMin c2 = alignDown c2 (2 ^ 14) := rfl
    dsimp only
    rw [alignUpMin_eq (by omega), hdownMin]
    have hfirst := calcVarMtrrRange_sub totalMtrrs s hup (by omega) t
    have hsecond := calcVarMtrrRange_sub totalMtrrs
      (calcVarMtrrRange totalMtrrs s a1 (sub32 (alignUp a1 (2 ^ 14)) a1) t) hmid (by omega) t
    exact (hfirst.trans hsecond).trans (calcVarMtrrRange_sub _ _ hdown (by omega) t)

theorem exact_parts (hle : a1 ≤ c2) (t : Nat) : Exact a1 c2 t (parts a1 c2 t) := by
  unfold parts
  by_cases hshort : c2 - a1 < 2 ^ 14
  · rw [if_pos hshort]
    exact exact_sub hle t
  · rw [if_neg hshort]
    have hmid := alignUp_le_alignDown (Nat.le_of_not_lt hshort)
    have hup := le_alignUp a1 (a := 2 ^ 14) (by decide)
    have hdown := alignDown_le c2 (2 ^ 14)
    exact ((exact_sub hup t).append (exact_sub hmid t) hup hmid).append (exact_sub hdown t)
      (Nat.le_trans hup hmid) hdown

theorem parts_length (hfit : c2 + 2 ^ 14 ≤ 2 ^ 32) (t : Nat) : (parts a1 c2 t).length < 64 := by
  unfold parts pieces
  by_cases hshort : c2 - a1 < 2 ^ 14
  · rw [if_pos hshort, List.length_map]
    have := blocks_length (logsBelow_size hshort a1) (i := 0) (j := 0) (Nat.one_dvd _)
      (Nat.le_refl _) (Nat.one_dvd _) (Nat.zero_le _) (Nat.zero_le _)
    omega
  · rw [if_neg hshort]
    simp only [List.length_append, List.length_map]
    have hmid := alignUp_le_alignDown (Nat.le_of_not_lt hshort)
    have hup := le_alignUp a1 (a := 2 ^ 14) (by decide)
    have huplt := alignUp_lt a1 (a := 2 ^ 14) (by decide)
    have hdown := alignDown_le c2 (2 ^ 14)
    have hdownlt := lt_alignDown_add c2 (a := 2 ^ 14) (by decide)
    have hupdvd := dvd_alignUp a1 (2 ^ 14)
    have hdowndvd := dvd_alignDown c2 (2 ^ 14)
    generalize alignUp a1 (2 ^ 14) = b1 at *
    generalize alignDown c2 (2 ^ 14) = b2 at *
    have hfirst : (blocks a1 (b1 - a1)).length ≤ 14 - 0 := blocks_length_of_dvd_top
      (by rwa [Nat.add_sub_cancel' hup]) (by omega) (Nat.one_dvd _) (Nat.zero_le _)
    have hlast : (blocks b2 (c2 - b2)).length ≤ 14 - 0 :=
      blocks_length_of_dvd hdowndvd (by omega) (Nat.one_dvd _) (Nat.zero_le _)
    have hsecond : (blocks b1 (b2 - b1)).length ≤ 35 := by
      have hsize := Nat.dvd_sub hdowndvd hupdvd
      rcases Nat.eq_zero_or_pos b1 with rfl | hpos
      · have : (blocks 0 (b2 - 0)).length ≤ 32 - 14 :=
          blocks_length_of_dvd (Nat.dvd_zero _) (by omega) hsize (by decide)
        omega
      · exact blocks_length (logsBelow_top (n := 32) hpos (by omega)) (i := 14) (j := 14) hsize
          (Nat.le_refl _) hupdvd (by decide) (by decide)
    omega

-- ---------------------------------------------------------------------------
-- The plan for an entry
-- ---------------------------------------------------------------------------

def HasPage (r : RangeEntry) (page : Nat) : Prop :=
  rangeEntryBaseMtrrAddr r ≤ page ∧ page < rangeEntryEndMtrrAddr r

/-- The variable MTRRs are asked for a page behind the first megabyte, and below 4 GiB where
nothing above is processed. -/
def Asked (above4gb : Bool) (page : Nat) : Prop :=
  range1mb ≤ page ∧ (above4gb = true ∨ page < range4gb)

/-- The pages of an entry have room behind them, and addresses of `n + 12` bits. -/
structure Fits (n : Nat) (r : RangeEntry) : Prop where
  nonempty : rangeEntryBaseMtrrAddr r < rangeEntryEndMtrrAddr r
  room : rangeEntryEndMtrrAddr r + 2 ^ 14 ≤ 2 ^ 32
  below : rangeEntryEndMtrrAddr r ≤ 2 ^ n

/-- What the pieces of an entry are for. Behind its pages they have a piece of the default type
wherever they have one at all, if there is a next entry. -/
structure Plan (above4gb : Bool) (n d : Nat) (r : RangeEntry) (next : Option RangeEntry)
    (ps : List Piece) : Prop where
  aligned : ∀ p ∈ ps, 2 ^ p.block.log ∣ p.block.base
  below : ∀ p ∈ ps, p.block.top ≤ 2 ^ n
  types : ∀ p ∈ ps, p.type = rangeEntryMtrrType r ∨ p.type = d
  covers : ∀ page, Asked above4gb page → HasPage r page → ∃ p ∈ ps, p.block.Covers page
  type : ∀ page, Asked above4gb page → HasPage r page → ∀ p ∈ ps, p.block.Covers page →
    p.type = rangeEntryMtrrType r
  behind : ∀ page, Asked above4gb page → ∀ p ∈ ps, p.block.Covers page → ¬ HasPage r page →
    rangeEntryEndMtrrAddr r ≤ page ∧ ∀ s, next = some s → rangeEntryMtrrType s = d ∧
      page < rangeEntryEndMtrrAddr s ∧ ∃ q ∈ ps, q.block.Covers page ∧ q.type = d

/-- The pages of an entry that are looked at, when there are some. -/
structure Clip (above4gb : Bool) (r : RangeEntry) (lo hi : Nat) : Prop where
  le : lo ≤ hi
  base : lo ≤ rangeEntryBaseMtrrAddr r
  end_ : hi ≤ rangeEntryEndMtrrAddr r
  asked : ∀ page, Asked above4gb page → (lo ≤ page ∧ page < hi ↔ HasPage r page)
  full : hi = rangeEntryEndMtrrAddr r ∨ above4gb = false ∧ hi = range4gb

/-- Either there is nothing to look at or the rest gets the clipped ends. -/
theorem clip_cases (above4gb : Bool) {r : RangeEntry}
    (hne : rangeEntryBaseMtrrAddr r < rangeEntryEndMtrrAddr r) :
    ((∀ {α : Type} (skip : α) f, clip above4gb r skip f = skip) ∧
        ∀ page, Asked above4gb page → ¬ HasPage r page) ∨
      ∃ lo hi, (∀ {α : Type} (skip : α) f, clip above4gb r skip f = f lo hi) ∧
        Clip above4gb r lo hi := by
  unfold clip
  dsimp only
  by_cases hlow : rangeEntryEndMtrrAddr r < range1mb
  · refine .inl ⟨fun skip f => if_pos hlow, fun page hpage hhas => ?_⟩
    exact Nat.lt_irrefl page (Nat.lt_trans hhas.2 (Nat.lt_of_lt_of_le hlow hpage.1))
  simp only [if_neg hlow]
  -- where the pages start
  obtain ⟨lo, hlo⟩ : ∃ lo, (if rangeEntryBaseMtrrAddr r < range1mb then 0
    else rangeEntryBaseMtrrAddr r) = lo := ⟨_, rfl⟩
  have hlole : lo ≤ rangeEntryBaseMtrrAddr r := by
    rw [← hlo]
    split <;> omega
  have hloasked : ∀ page, range1mb ≤ page → (lo ≤ page ↔ rangeEntryBaseMtrrAddr r ≤ page) := by
    intro page hpage
    rw [← hlo]
    split <;> omega
  simp only [hlo]
  by_cases hhigh : (!above4gb) = true ∧ lo ≥ range4gb
  · refine .inl ⟨fun skip f => if_pos hhigh, fun page hpage hhas => ?_⟩
    obtain ⟨hnot, hge⟩ := hhigh
    rcases hpage.2 with habove | hlt
    · rw [habove] at hnot
      exact Bool.noConfusion hnot
    · have := (hloasked page hpage.1).mpr hhas.1
      omega
  simp only [if_neg hhigh]
  -- and where they end
  obtain ⟨hi, hhi⟩ : ∃ hi, (if (!above4gb) = true ∧ rangeEntryEndMtrrAddr r > range4gb then range4gb
    else rangeEntryEndMtrrAddr r) = hi := ⟨_, rfl⟩
  simp only [hhi]
  refine .inr ⟨lo, hi, fun _ _ => rfl, ?_⟩
  by_cases hclipped : (!above4gb) = true ∧ rangeEntryEndMtrrAddr r > range4gb
  · rw [if_pos hclipped] at hhi
    have hfalse : above4gb = false := Bool.eq_false_of_not_eq_true' hclipped.1
    have hlolt : lo < range4gb := Nat.lt_of_not_le fun hge => hhigh ⟨hclipped.1, hge⟩
    refine ⟨by omega, hlole, by omega, fun page hpage => ?_, .inr ⟨hfalse, hhi.symm⟩⟩
    have hbelow : page < range4gb := by
      rcases hpage.2 with habove | hlt
      · rw [hfalse] at habove
        exact Bool.noConfusion habove
      · exact hlt
    rw [hloasked page hpage.1, HasPage]
    omega
  · rw [if_neg hclipped] at hhi
    refine ⟨by omega, hlole, by omega, fun page hpage => ?_, .inl hhi.symm⟩
    rw [hloasked page hpage.1, HasPage, hhi]

theorem Clip.plan {above4gb : Bool} {n d lo hi : Nat} {r : RangeEntry} (h : Clip above4gb r lo hi)
    (hfits : Fits n r) (next : Option RangeEntry) {ps : List Piece}
    (hexact : Exact lo hi (rangeEntryMtrrType r) ps) : Plan above4gb n d r next ps where
  aligned := hexact.aligned
  below p hp := Nat.le_trans (hexact.below p hp) (Nat.le_trans h.end_ hfits.below)
  types p hp := .inl (hexact.type p hp)
  covers page hpage hhas := (hexact.covers page).mpr ((h.asked page hpage).mpr hhas)
  type _ _ _ p hp _ := hexact.type p hp
  behind page hpage p hp hcovers hnot :=
    absurd ((h.asked page hpage).mp ((hexact.covers page).mp ⟨p, hp, hcovers⟩)) hnot

theorem plan_nil {above4gb : Bool} {r : RangeEntry} (next : Option RangeEntry)
    (hskip : ∀ page, Asked above4gb page → ¬ HasPage r page) : Plan above4gb n d r next [] where
  aligned := by simp
  below := by simp
  types := by simp
  covers page hpage hhas := absurd hhas (hskip page hpage)
  type page hpage hhas := absurd hhas (hskip page hpage)
  behind := by simp

theorem withoutHole_plan {r : RangeEntry} (hfits : Fits n r) (above4gb : Bool) :
    ∃ ps, ps.length < 64 ∧ (∀ d next, Plan above4gb n d r next ps) ∧
      (∀ page, Asked above4gb page → ∀ p ∈ ps, p.block.Covers page → HasPage r page) ∧
      ∀ totalMtrrs s, s.above4gb = above4gb →
        Adds totalMtrrs ps s (calcVarMtrrsWithoutHole totalMtrrs s r) := by
  unfold calcVarMtrrsWithoutHole
  rcases clip_cases above4gb hfits.nonempty with ⟨hskip, hnone⟩ | ⟨lo, hi, hrest, hclip⟩
  · refine ⟨[], by decide, fun d next => plan_nil next hnone, by simp, fun _ s hs => ?_⟩
    rw [hs, hskip]
    exact .refl s
  · have hroom : hi + 2 ^ 14 ≤ 2 ^ 32 := by
      have := hfits.room
      have := hclip.end_
      omega
    have hexact := exact_parts hclip.le (rangeEntryMtrrType r)
    refine ⟨_, parts_length hroom _, fun d next => hclip.plan hfits next hexact,
      fun page hpage p hp hcovers => ?_, fun _ s hs => ?_⟩
    · exact (hclip.asked page hpage).mp ((hexact.covers page).mp ⟨p, hp, hcovers⟩)
    rw [hs, hrest]
    exact calcVarMtrrParts_adds s hclip.le hroom _

-- ---------------------------------------------------------------------------
-- With a hole
-- ---------------------------------------------------------------------------

theorem alignUp_le (hdvd : a ∣ y) (hle : x ≤ y) (ha : 0 < a) : alignUp x a ≤ y := by
  obtain ⟨j, hj⟩ := dvd_alignUp x a
  obtain ⟨k, rfl⟩ := hdvd
  have hlt := alignUp_lt x ha
  rw [hj] at hlt ⊢
  have hjk : a * j < a * (k + 1) := by
    rw [Nat.mul_succ]
    omega
  exact Nat.mul_le_mul_left a (Nat.le_of_lt_succ (Nat.lt_of_mul_lt_mul_left hjk))

/-- A block at a nonzero number of `n` bits ends in `n` bits. -/
theorem add_pow_le (hdvd : 2 ^ k ∣ x) (hpos : 0 < x) (hlt : x < 2 ^ n) : 2 ^ k + x ≤ 2 ^ n := by
  have hk : k ≤ n := Nat.le_of_lt ((Nat.pow_lt_pow_iff_right (a := 2) (by decide)).mp
    (Nat.lt_of_le_of_lt (Nat.le_of_dvd hpos hdvd) hlt))
  obtain ⟨c, rfl⟩ := hdvd
  obtain ⟨e, he⟩ := Nat.pow_dvd_pow 2 hk
  rw [he] at hlt ⊢
  have hce : c < e := Nat.lt_of_mul_lt_mul_left hlt
  rw [Nat.add_comm, ← Nat.mul_succ]
  exact Nat.mul_le_mul_left _ hce

theorem Clip.plan_behind {above4gb : Bool} {lo hi top top' : Nat} {r : RangeEntry}
    (h : Clip above4gb r lo hi) (next : Option RangeEntry) {ps qs : List Piece}
    (hps : Exact lo top (rangeEntryMtrrType r) ps) (hqs : Exact hi top' d qs) (hhi : hi ≤ top)
    (htop' : top' ≤ top) (htop : top ≤ 2 ^ n)
    (hnext : ∀ s, next = some s →
      rangeEntryMtrrType s = d ∧ top ≤ rangeEntryEndMtrrAddr s ∧ top' = top) :
    Plan above4gb n d r next (ps ++ qs) where
  aligned := List.forall_mem_append.mpr ⟨hps.aligned, hqs.aligned⟩
  below := List.forall_mem_append.mpr ⟨fun p hp => Nat.le_trans (hps.below p hp) htop,
    fun q hq => Nat.le_trans (hqs.below q hq) (Nat.le_trans htop' htop)⟩
  types := List.forall_mem_append.mpr ⟨fun p hp => .inl (hps.type p hp),
    fun q hq => .inr (hqs.type q hq)⟩
  covers page hpage hhas := by
    obtain ⟨hlo, hlt⟩ := (h.asked page hpage).mpr hhas
    obtain ⟨p, hp, hcovers⟩ := (hps.covers page).mpr ⟨hlo, Nat.lt_of_lt_of_le hlt hhi⟩
    exact ⟨p, List.mem_append_left _ hp, hcovers⟩
  type page hpage hhas p hp hcovers := by
    rcases List.mem_append.mp hp with hp | hq
    · exact hps.type p hp
    · have hge := ((hqs.covers page).mp ⟨p, hq, hcovers⟩).1
      exact absurd ((h.asked page hpage).mpr hhas).2 (Nat.not_lt.mpr hge)
  behind page hpage p hp hcovers hnot := by
    have hin : lo ≤ page ∧ page < top := by
      rcases List.mem_append.mp hp with hp | hq
      · exact (hps.covers page).mp ⟨p, hp, hcovers⟩
      · obtain ⟨hge, hlt⟩ := (hqs.covers page).mp ⟨p, hq, hcovers⟩
        exact ⟨Nat.le_trans h.le hge, Nat.lt_of_lt_of_le hlt htop'⟩
    have hge : hi ≤ page :=
      Nat.le_of_not_lt fun hlt => hnot ((h.asked page hpage).mp ⟨hin.1, hlt⟩)
    refine ⟨?_, fun s hs => ?_⟩
    · rcases h.full with heq | ⟨hfalse, heq⟩
      · exact heq ▸ hge
      · rcases hpage.2 with habove | hlt
        · rw [hfalse] at habove
          exact Bool.noConfusion habove
        · exact absurd hlt (Nat.not_lt.mpr (heq ▸ hge))
    · obtain ⟨htype, hend, rfl⟩ := hnext s hs
      obtain ⟨q, hq, hcovers'⟩ := (hqs.covers page).mpr ⟨hge, hin.2⟩
      exact ⟨htype, Nat.lt_of_lt_of_le hin.2 hend, q, List.mem_append_right _ hq, hcovers',
        hqs.type q hq⟩

theorem fls_lt (hpos : 0 < x) (hlt : x < 2 ^ 32) : fls x < 32 := by
  refine Nat.lt_of_not_le fun hle => ?_
  have hdvd := (dvd_iff_le_fls (x := x) (Nat.le_refl 32)).mpr hle
  exact absurd (Nat.le_of_dvd hpos hdvd) (Nat.not_le.mpr hlt)

/-- The last entry above 4 GiB may reach as far as its base is aligned. -/
theorem calcVarMtrrHole_over {above4gb : Bool} {lo hi : Nat} {r : RangeEntry}
    (h : Clip above4gb r lo hi) (hfits : Fits n r) (d : Nat) (hpos : 0 < lo)
    (htop : u32 (2 ^ fls lo + lo) ≥ hi) :
    ∃ ps, Plan above4gb n d r none ps ∧ ∀ totalMtrrs s, Adds totalMtrrs ps s
      (calcVarMtrrRange totalMtrrs s lo (sub32 (u32 (2 ^ fls lo + lo)) lo)
        (rangeEntryMtrrType r)) := by
  have hroom := hfits.room
  have hlo := Nat.lt_of_le_of_lt h.base hfits.nonempty
  have hle := h.le
  have hlt : lo < 2 ^ 32 := by omega
  have hdvd : 2 ^ fls lo ∣ lo :=
    (dvd_iff_le_fls (Nat.le_of_lt (fls_lt hpos hlt))).mpr (Nat.le_refl _)
  have hsum := add_pow_le hdvd hpos hlt
  have hsum' := add_pow_le hdvd hpos (Nat.lt_of_lt_of_le hlo hfits.below)
  -- a sum that wraps is 0
  have hnowrap : 2 ^ fls lo + lo < 2 ^ 32 := by
    refine Nat.lt_of_le_of_ne hsum fun heq => ?_
    have hzero : u32 (2 ^ fls lo + lo) = 0 := by rw [heq]; rfl
    omega
  rw [u32_eq hnowrap] at htop ⊢
  have hle' : lo ≤ 2 ^ fls lo + lo := Nat.le_add_left _ _
  have hplan := h.plan_behind none (exact_sub hle' _) (exact_sub (Nat.le_refl hi) d) htop
    htop hsum' (by simp)
  refine ⟨_, hplan, fun totalMtrrs s => ?_⟩
  rw [Nat.sub_self, pieces, pieces, blocks_zero, List.map_nil, List.append_nil]
  exact calcVarMtrrRange_sub _ s hle' hnowrap _

/-- The hole's bottom is at the end of the pages, its top is aligned. -/
theorem calcVarMtrrHole_plan {above4gb : Bool} {lo hi : Nat} {r : RangeEntry}
    (h : Clip above4gb r lo hi) (hfits : Fits n r) (hn : 14 ≤ n) (d : Nat)
    (next : Option RangeEntry) :
    ∃ ps, Plan above4gb n d r next ps ∧ ∀ totalMtrrs s, s.defMtrrType = d →
      Adds totalMtrrs ps s
        (calcVarMtrrHole totalMtrrs s lo hi (rangeEntryMtrrType r) next) := by
  have hroom := hfits.room
  have hend := h.end_
  have hle := h.le
  unfold calcVarMtrrHole
  dsimp only
  by_cases hover : lo ≥ range4gb ∧ next.isNone ∧ u32 (2 ^ fls lo + lo) ≥ hi
  · simp only [if_pos hover]
    obtain ⟨hge, hnone, htop⟩ := hover
    obtain rfl := Option.isNone_iff_eq_none.mp hnone
    obtain ⟨ps, hplan, hadds⟩ :=
      calcVarMtrrHole_over h hfits d (Nat.lt_of_lt_of_le (by decide) hge) htop
    exact ⟨ps, hplan, fun totalMtrrs s _ => hadds totalMtrrs s⟩
  simp only [if_neg hover]
  rw [alignUpMin_eq (by omega)]
  have hup := le_alignUp hi (a := 2 ^ 14) (by decide)
  have huplt := alignUp_lt hi (a := 2 ^ 14) (by decide)
  have hupn : alignUp hi (2 ^ 14) ≤ 2 ^ n :=
    alignUp_le (Nat.pow_dvd_pow 2 hn) (Nat.le_trans hend hfits.below) (by decide)
  generalize alignUp hi (2 ^ 14) = b2 at *
  -- does the next entry have the hole?
  have hcases : (∀ s, next = some s → rangeEntryMtrrType s = d ∧ b2 ≤ rangeEntryEndMtrrAddr s) ∨
      ∃ s, next = some s ∧ ¬ (rangeEntryMtrrType s = d ∧ b2 ≤ rangeEntryEndMtrrAddr s) := by
    by_cases hall : ∀ s, next = some s → rangeEntryMtrrType s = d ∧ b2 ≤ rangeEntryEndMtrrAddr s
    · exact .inl hall
    · obtain ⟨s, hs⟩ := not_forall.mp hall
      exact .inr ⟨s, Classical.not_imp.mp hs⟩
  rcases hcases with hcarve | ⟨s, rfl, hnot⟩
  · refine ⟨_, h.plan_behind next (exact_sub (Nat.le_trans hle hup) _) (exact_sub hup d) hup
      (Nat.le_refl _) hupn fun s hs => ⟨(hcarve s hs).1, (hcarve s hs).2, rfl⟩, ?_⟩
    intro totalMtrrs s hd
    have hfirst := calcVarMtrrRange_sub totalMtrrs s (Nat.le_trans hle hup)
      (by omega) (rangeEntryMtrrType r)
    have hsecond := fun s => calcVarMtrrRange_sub totalMtrrs s hup (by omega) d
    have hdef := hfirst.defMtrrType.trans hd
    cases next with
    | none =>
      simp only [Bool.not_true, Bool.false_eq_true, if_false, hdef]
      exact hfirst.trans (hsecond _)
    | some next =>
      have hnext := hcarve next rfl
      simp only [hd, hnext.1, hnext.2, and_self, decide_true, Bool.not_true,
        Bool.false_eq_true, if_false, hdef]
      exact hfirst.trans (hsecond _)
  · refine ⟨_, h.plan hfits _ (exact_sub hle _), fun totalMtrrs s' hd => ?_⟩
    simp only [hd, ge_iff_le, hnot, decide_false, Bool.not_false, if_true]
    exact calcVarMtrrRange_sub _ s' hle (by omega) _

theorem withHole_plan {r : RangeEntry} (hfits : Fits n r) (hn : 14 ≤ n) (above4gb : Bool) (d : Nat)
    (next : Option RangeEntry) :
    ∃ ps, Plan above4gb n d r next ps ∧
      ∀ totalMtrrs s, s.above4gb = above4gb → s.defMtrrType = d →
        Adds totalMtrrs ps s (calcVarMtrrsWithHole totalMtrrs s r next) := by
  unfold calcVarMtrrsWithHole
  rcases clip_cases above4gb hfits.nonempty with ⟨hskip, hnone⟩ | ⟨lo, hi, hrest, hclip⟩
  · refine ⟨[], plan_nil next hnone, fun _ s hs _ => ?_⟩
    rw [hs, hskip]
    exact .refl s
  · obtain ⟨ps, hplan, hadds⟩ := calcVarMtrrHole_plan hclip hfits hn d next
    refine ⟨ps, hplan, fun totalMtrrs s hs hd => ?_⟩
    rw [hs, hrest]
    exact hadds totalMtrrs s hd

end

end ItxLlama.Coreboot.VarMtrr
