import ItxLlama.Coreboot.VarMtrrRight

/-!
# What the variable MTRRs mean

The registers written for a piece have just its pages, in its type, and those
that are left are not valid. So each page of an entry has the type of the entry,
as long as the pieces fit into the registers.
-/

namespace ItxLlama.Coreboot.VarMtrr

open Lib.Word Lib.Ranges Lib.Dyadic

-- ---------------------------------------------------------------------------
-- The registers of a piece
-- ---------------------------------------------------------------------------

/-- The two's complement of a size that is no more than the address space, in its bits. -/
theorem neg_mod_two_pow (hn : n ≤ m) (hpos : 0 < x) (hle : x ≤ 2 ^ n) :
    (2 ^ m - x) % 2 ^ n = 2 ^ n - x := by
  obtain ⟨c, hc⟩ := Nat.pow_dvd_pow 2 hn
  cases c with
  | zero => exact absurd hc (Nat.ne_of_gt (Nat.pow_pos (by decide)))
  | succ c =>
    rw [hc, Nat.mul_succ, Nat.add_sub_assoc hle, Nat.mul_add_mod]
    exact Nat.mod_eq_of_lt (Nat.sub_lt (Nat.lt_of_lt_of_le hpos hle) hpos)

theorem mul_two_pow_or (hb : b < 2 ^ i) (a : Nat) : a * 2 ^ i ||| b = a * 2 ^ i + b := by
  rw [Nat.mul_comm]
  exact (Nat.two_pow_add_eq_or_of_lt hb a).symm

theorem mul_two_pow_add_div (hb : b < 2 ^ i) (a : Nat) : (a * 2 ^ i + b) / 2 ^ i = a := by
  rw [Nat.mul_comm, Nat.mul_add_div (Nat.pow_pos (by decide)), Nat.div_eq_of_lt hb, Nat.add_zero]

theorem page_fits (hn : n + 12 < 64) (hx : x ≤ 2 ^ n) :
    x * 2 ^ 12 ≤ 2 ^ (n + 12) ∧ x * 2 ^ 12 < 2 ^ 64 := by
  have hle : x * 2 ^ 12 ≤ 2 ^ (n + 12) := by
    rw [Nat.pow_add]
    exact Nat.mul_le_mul_right _ hx
  exact ⟨hle, Nat.lt_of_le_of_lt hle (Nat.pow_lt_pow_right (by decide) hn)⟩

/-- The two registers as numbers, for addresses of `n + 12` bits. -/
theorem registers_eq (hn : n + 12 < 64) {p : Piece} (htop : p.block.top ≤ 2 ^ n)
    (htype : p.type < 2 ^ 8) :
    p.registers (n + 12) = ⟨p.block.base * 2 ^ 12 + p.type,
      mask n p.block.log * 2 ^ 12 + 2 ^ 11⟩ := by
  have hshift : rangeShift = 12 := rfl
  have hpos : 0 < 2 ^ p.block.log * 2 ^ 12 :=
    Nat.mul_pos (Nat.pow_pos (by decide)) (by decide)
  obtain ⟨-, hbase⟩ := page_fits hn (Nat.le_trans (Nat.le_add_right _ _) htop)
  obtain ⟨hle, hsize⟩ := page_fits hn (Nat.le_trans (Nat.le_add_left _ _) htop)
  have hmask : u64 (2 ^ (n + 12) - 1) = 2 ^ (n + 12) - 1 :=
    u64_eq (Nat.lt_of_le_of_lt (Nat.sub_le _ _) (Nat.pow_lt_pow_right (by decide) hn))
  have hrest : u64 (2 ^ 64 - 2 ^ p.block.log * 2 ^ 12) &&& 2 ^ (n + 12) - 1 =
      mask n p.block.log * 2 ^ 12 := by
    rw [Nat.and_two_pow_sub_one_eq_mod, u64_eq (Nat.sub_lt (by decide) hpos),
      neg_mod_two_pow (Nat.le_of_lt hn) hpos hle, mask, Nat.sub_mul, Nat.pow_add]
  have hvalid : mtrrPhysMaskValid < 2 ^ 12 := by decide
  have htype' : p.type < 2 ^ 12 := Nat.lt_trans htype (by decide)
  unfold Piece.registers
  rw [hshift, hmask, u64_eq hbase, u64_eq hsize, hrest, mul_two_pow_or htype',
    mul_two_pow_or hvalid]
  rfl

variable {above4gb : Bool} {n d : Nat} {l : List RangeEntry} {ps : List Piece} {page : Nat}

theorem registers_type (hn : n + 12 < 64) {p : Piece} (htop : p.block.top ≤ 2 ^ n)
    (htype : p.type < 2 ^ 8) : (p.registers (n + 12)).type = p.type := by
  rw [registers_eq hn htop htype]
  unfold PhysMtrr.type
  dsimp only
  omega

theorem registers_has (hn : n + 12 < 64) {p : Piece} (hdvd : 2 ^ p.block.log ∣ p.block.base)
    (htop : p.block.top ≤ 2 ^ n) (htype : p.type < 2 ^ 8) (hpage : page < 2 ^ n) :
    (p.registers (n + 12)).Has page ↔ p.block.Covers page := by
  have hmask : (mask n p.block.log * 2 ^ 12 + 2 ^ 11) / 2 ^ 12 = mask n p.block.log :=
    mul_two_pow_add_div (by decide) _
  have hbase : (p.block.base * 2 ^ 12 + p.type) / 2 ^ 12 = p.block.base :=
    mul_two_pow_add_div (Nat.lt_trans htype (by decide)) _
  have hvalid : (mask n p.block.log * 2 ^ 12 + 2 ^ 11).testBit 11 = true := by
    rw [← mul_two_pow_or (by decide), Nat.testBit_or, Nat.testBit_two_pow_self, Bool.or_true]
  rw [registers_eq hn htop htype]
  unfold PhysMtrr.Has PhysMtrr.valid
  dsimp only
  rw [hvalid, hmask, hbase, Block.covers_iff hdvd htop hpage]
  exact and_iff_right rfl

-- ---------------------------------------------------------------------------
-- All registers
-- ---------------------------------------------------------------------------

theorem clearVarMtrr_valid (i j : Nat) (msrs : Nat → PhysMtrr) :
    (clearVarMtrr i msrs j).valid = ((msrs j).valid && decide (j ≠ i)) := by
  unfold clearVarMtrr PhysMtrr.valid
  by_cases heq : j = i
  · subst heq
    rw [Function.update_self]
    have hbit : mtrrPhysMaskValid.testBit 11 = true := Nat.testBit_two_pow_self
    simp [Nat.testBit_ldiff, hbit]
  · rw [Function.update_of_ne heq]
    simp [heq]

theorem foldl_clear_mem {is : List Nat} {j : Nat} (hj : j ∈ is) (msrs : Nat → PhysMtrr) :
    (is.foldl (fun msrs i => clearVarMtrr i msrs) msrs j).valid = false := by
  have hkept : ∀ (is : List Nat) (msrs : Nat → PhysMtrr), (msrs j).valid = false →
      (is.foldl (fun msrs i => clearVarMtrr i msrs) msrs j).valid = false := by
    intro is
    induction is with
    | nil => exact fun _ h => h
    | cons i is ih => exact fun msrs h => ih _ (by rw [clearVarMtrr_valid, h, Bool.false_and])
  induction is generalizing msrs with
  | nil => exact absurd hj List.not_mem_nil
  | cons i is ih =>
    rcases List.mem_cons.mp hj with rfl | hj
    · exact hkept is _ (by rw [clearVarMtrr_valid]; simp)
    · exact ih hj _

theorem foldl_clear_not_mem {is : List Nat} {j : Nat} (hj : j ∉ is) (msrs : Nat → PhysMtrr) :
    is.foldl (fun msrs i => clearVarMtrr i msrs) msrs j = msrs j := by
  induction is generalizing msrs with
  | nil => rfl
  | cons i is ih =>
    obtain ⟨hne, hj⟩ := not_or.mp (mt List.mem_cons.mpr hj)
    rw [List.foldl_cons, ih hj]
    exact Function.update_of_ne hne _ _

/-- The registers hold the pieces, and those behind are not valid. -/
structure Held (totalMtrrs n : Nat) (ps : List Piece) (msrs : Nat → PhysMtrr) : Prop where
  room : ps.length ≤ totalMtrrs
  held : ∀ i (h : i < ps.length), msrs i = ps[i].registers (n + 12)
  rest : ∀ i, ps.length ≤ i → i < totalMtrrs → (msrs i).valid = false

theorem Held.memoryType {totalMtrrs : Nat} {msrs : Nat → PhysMtrr} (h : Held totalMtrrs n ps msrs)
    (hn : n + 12 < 64) (haligned : ∀ p ∈ ps, 2 ^ p.block.log ∣ p.block.base)
    (hbelow : ∀ p ∈ ps, p.block.top ≤ 2 ^ n) (htype : ∀ p ∈ ps, p.type < 2 ^ 8)
    (hpage : page < 2 ^ n) :
    ((∀ p ∈ ps, ¬ p.block.Covers page) → VarMtrr.memoryType totalMtrrs d msrs page = some d) ∧
      ((∃ p ∈ ps, p.block.Covers page ∧ p.type = uncacheable) →
        VarMtrr.memoryType totalMtrrs d msrs page = some uncacheable) ∧
      ∀ t, (∃ p ∈ ps, p.block.Covers page) →
        (∀ p ∈ ps, p.block.Covers page → p.type = t) →
          VarMtrr.memoryType totalMtrrs d msrs page = some t := by
  have hhas : ∀ i < totalMtrrs, (msrs i).Has page ↔
      ∃ h : i < ps.length, ps[i].block.Covers page := by
    intro i hi
    by_cases hlt : i < ps.length
    · have hmem := List.getElem_mem hlt
      rw [h.held i hlt, registers_has hn (haligned _ hmem) (hbelow _ hmem) (htype _ hmem) hpage]
      exact ⟨fun hcovers => ⟨hlt, hcovers⟩, fun ⟨_, hcovers⟩ => hcovers⟩
    · have hinvalid := h.rest i (Nat.le_of_not_lt hlt) hi
      refine ⟨fun hhas => ?_, fun ⟨hlt', _⟩ => absurd hlt' hlt⟩
      rw [PhysMtrr.Has, hinvalid] at hhas
      exact absurd hhas.1 Bool.false_ne_true
  have hmtype : ∀ i (hi : i < ps.length), (msrs i).type = ps[i].type := by
    intro i hi
    have hmem := List.getElem_mem hi
    rw [h.held i hi, registers_type hn (hbelow _ hmem) (htype _ hmem)]
  -- the indices of the matches
  have hmem : ∀ i, i ∈ (List.range totalMtrrs).filter (fun i => (msrs i).Has page) ↔
      ∃ h : i < ps.length, ps[i].block.Covers page := by
    intro i
    rw [List.mem_filter, List.mem_range, decide_eq_true_iff]
    constructor
    · rintro ⟨hi, hhas'⟩
      exact (hhas i hi).mp hhas'
    · rintro ⟨hi, hcovers⟩
      have hi' := Nat.lt_of_lt_of_le hi h.room
      exact ⟨hi', (hhas i hi').mpr ⟨hi, hcovers⟩⟩
  unfold VarMtrr.memoryType
  generalize (List.range totalMtrrs).filter (fun i => (msrs i).Has page) = is at hmem
  have hpiece : (∃ p ∈ ps, p.block.Covers page) → is ≠ [] := by
    rintro ⟨p, hp, hcovers⟩ rfl
    obtain ⟨i, hi, rfl⟩ := List.mem_iff_getElem.mp hp
    exact absurd ((hmem i).mpr ⟨hi, hcovers⟩) List.not_mem_nil
  refine ⟨fun hnone => ?_, fun huc => ?_, fun t hsome hall => ?_⟩
  · cases is with
    | nil => rfl
    | cons i is =>
      obtain ⟨hi, hcovers⟩ := (hmem i).mp (List.mem_cons_self ..)
      exact absurd hcovers (hnone _ (List.getElem_mem hi))
  · obtain ⟨p, hp, hcovers, hptype⟩ := huc
    cases is with
    | nil => exact absurd rfl (hpiece ⟨p, hp, hcovers⟩)
    | cons i is =>
      obtain ⟨j, hj, rfl⟩ := List.mem_iff_getElem.mp hp
      exact if_pos ⟨j, (hmem j).mpr ⟨hj, hcovers⟩, (hmtype j hj).trans hptype⟩
  · cases is with
    | nil => exact absurd rfl (hpiece hsome)
    | cons i is =>
      have htypes : ∀ j ∈ i :: is, (msrs j).type = t := by
        intro j hj
        obtain ⟨hj', hcovers⟩ := (hmem j).mp hj
        rw [hmtype j hj', hall _ (List.getElem_mem hj') hcovers]
      obtain ⟨hi, his⟩ := List.forall_mem_cons.mp htypes
      dsimp only
      rw [hi]
      by_cases huc : ∃ j ∈ i :: is, (msrs j).type = uncacheable
      · obtain ⟨j, hj, hjtype⟩ := id huc
        rw [if_pos huc, ← htypes j hj, hjtype]
      · rw [if_neg huc, if_pos his]

-- ---------------------------------------------------------------------------
-- The address space
-- ---------------------------------------------------------------------------

/-- An address space: sorted and disjoint entries of whole pages, whose tags are types, within
the address bits and with room for the rounding below the 16 TiB of page numbers in 32 bits. -/
structure Space (addressBits : Nat) (l : List RangeEntry) : Prop where
  sorted : Sorted (entryRanges l)
  pages : ∀ r ∈ l, PageBounds r.begin_ (r.end_ + 1)
  room : ∀ r ∈ l, r.end_ + 1 + 2 ^ 26 ≤ 2 ^ 44
  below : ∀ r ∈ l, r.end_ < 2 ^ addressBits
  tags : ∀ r ∈ l, r.tag < 2 ^ mtrrAlgoShift

theorem Space.addr {addressBits : Nat} (h : Space addressBits l) {r : RangeEntry} (hr : r ∈ l) :
    rangeEntryBaseMtrrAddr r = r.begin_ / 2 ^ 12 ∧
      rangeEntryEndMtrrAddr r = (r.end_ + 1) / 2 ^ 12 := by
  have hroom := h.room r hr
  have hne : r.begin_ < r.end_ + 1 := h.sorted.nonempty r.range (mem_entryRanges.mpr ⟨r, hr, rfl⟩)
  unfold rangeEntryBaseMtrrAddr rangeEntryEndMtrrAddr physToRangeAddr
  have hshift : rangeShift = 12 := rfl
  rw [hshift, u64_eq (by omega), u32_eq (by omega), u32_eq (by omega)]
  exact ⟨rfl, rfl⟩

theorem Space.entries (h : Space (n + 12) l) : Entries n l where
  fits r hr := by
    obtain ⟨hbase, hend⟩ := h.addr hr
    have hroom := h.room r hr
    have hne : r.begin_ < r.end_ + 1 :=
      h.sorted.nonempty r.range (mem_entryRanges.mpr ⟨r, hr, rfl⟩)
    have hlo := (h.pages r hr).loAligned
    have hhi := (h.pages r hr).hiAligned
    refine ⟨by rw [hbase, hend]; omega, by rw [hend]; omega, ?_⟩
    rw [hend]
    refine Nat.div_le_of_le_mul ?_
    rw [Nat.mul_comm, ← Nat.pow_add]
    exact h.below r hr
  ordered := by
    have hordered := h.sorted.ordered
    rw [entryRanges, List.pairwise_map] at hordered
    refine hordered.imp_of_mem fun {r s} hr hs hle => ?_
    rw [(h.addr hr).2, (h.addr hs).1]
    exact Nat.div_le_div_right hle

theorem Space.hasPage (h : Space (n + 12) l) {r : RangeEntry} (hr : r ∈ l) {a : Nat}
    (ha : r.range.Covers a) : HasPage r (a / 2 ^ 12) := by
  obtain ⟨hbase, hend⟩ := h.addr hr
  have hhi := (h.pages r hr).hiAligned
  obtain ⟨hle, hlt⟩ : r.begin_ ≤ a ∧ a < r.end_ + 1 := ha
  exact ⟨hbase ▸ Nat.div_le_div_right hle, by rw [hend]; omega⟩

theorem Counts.defType_cases (c : Counts) :
    c.defType = wrback ∧ c.count = c.wbDeftypeCount ∨
      c.defType = uncacheable ∧ c.count = c.ucDeftypeCount := by
  unfold Counts.defType Counts.count
  split
  · exact .inl ⟨rfl, rfl⟩
  · exact .inr ⟨rfl, rfl⟩

/-- As many MTRRs are written as were counted, and every address of an entry that is asked for
has the entry's type. -/
structure Right (totalMtrrs : Nat) (above4gb : Bool) (l : List RangeEntry)
    (result : Counts × VarMtrrState) : Prop where
  written : result.2.mtrrIndex = result.1.count
  types : ∀ r ∈ l, ∀ a, r.range.Covers a → 2 ^ 20 ≤ a → (above4gb = true ∨ a < 2 ^ 32) →
    memoryType totalMtrrs result.1.defType result.2.msrs (a / 2 ^ 12) = some r.tag

theorem commitVarMtrrs_held (totalMtrrs : Nat) (msrs : Nat → PhysMtrr)
    (hadds : ∀ s, s.above4gb = above4gb → s.defMtrrType = d →
      Adds totalMtrrs ps s (commitEntries totalMtrrs s l)) (hroom : ps.length ≤ totalMtrrs) :
    (commitVarMtrrs totalMtrrs l d above4gb (n + 12) msrs).mtrrIndex = ps.length ∧
      Held totalMtrrs n ps (commitVarMtrrs totalMtrrs l d above4gb (n + 12) msrs).msrs := by
  have hrun := hadds ⟨above4gb, n + 12, true, 0, d, msrs⟩ rfl rfl
  have hindex := hrun.mtrrIndex
  rw [Nat.zero_add] at hindex
  unfold commitVarMtrrs
  dsimp only
  rw [hindex]
  refine ⟨rfl, hroom, fun i hi => ?_, fun i hle hlt => ?_⟩
  · rw [foldl_clear_not_mem (by rw [List.mem_range'_1]; omega)]
    have hadded := hrun.added rfl i hi (by dsimp only; omega)
    rwa [Nat.zero_add] at hadded
  · exact foldl_clear_mem (by rw [List.mem_range'_1]; omega) _

/-- The variable MTRRs give each page of the address space its type, where there are as many as
the dry runs counted for the default type they chose. -/
theorem x86SetupVarMtrrs_right {addressBits : Nat} (h : Space addressBits l)
    (hlow : 26 ≤ addressBits) (hhigh : addressBits < 64) (totalMtrrs : Nat) (above4gb : Bool)
    (msrs : Nat → PhysMtrr)
    (hroom : (x86SetupVarMtrrs totalMtrrs addressBits above4gb l msrs).1.count ≤ totalMtrrs) :
    Right totalMtrrs above4gb l (x86SetupVarMtrrs totalMtrrs addressBits above4gb l msrs) := by
  obtain ⟨n, rfl⟩ := Nat.exists_eq_add_of_le' (Nat.le_trans (by decide : 12 ≤ 26) hlow)
  have hn : 14 ≤ n := by omega
  have hentries := h.entries
  obtain ⟨hsame, hwb, huc⟩ := calcEntries_spec totalMtrrs above4gb (n + 12) msrs
    hentries hn h.tags
  unfold x86SetupVarMtrrs at hroom ⊢
  dsimp only at hroom ⊢
  generalize calcEntries totalMtrrs above4gb (n + 12) msrs l = c at *
  obtain ⟨ps, hmapped, hadds⟩ :=
    commitEntries_mapped (hentries.same hsame) hn above4gb c.defType
  -- the pieces are as many as were counted
  have hcount : ps.length = c.count := by
    have hindex := (hadds totalMtrrs ⟨above4gb, n + 12, true, 0, c.defType, msrs⟩ rfl rfl).mtrrIndex
    rw [Nat.zero_add] at hindex
    rw [← hindex]
    rcases c.defType_cases with ⟨hd, hc⟩ | ⟨hd, hc⟩
    · rw [hwb _ rfl hd, hc, Nat.zero_add]
    · rw [huc _ rfl hd, hc, Nat.zero_add]
  obtain ⟨hindex, hheld⟩ := commitVarMtrrs_held totalMtrrs msrs (n := n) (hadds totalMtrrs)
    (hcount ▸ hroom)
  refine ⟨hindex.trans hcount, fun r hr a ha hmb hgb => ?_⟩
  -- the entry that the walk left of `r`
  obtain ⟨r', hr', hrr⟩ : ∃ r' ∈ c.entries, Same r r' := by
    obtain ⟨i, hi, rfl⟩ := List.mem_iff_getElem.mp hr
    have hlen := hsame.length_eq
    exact ⟨c.entries[i], List.getElem_mem _, hsame.get hi (by omega)⟩
  have htype : rangeEntryMtrrType r' = r.tag := hrr.type.trans (Nat.mod_eq_of_lt (h.tags r hr))
  have hhas : HasPage r' (a / 2 ^ 12) := (hrr.hasPage _).mpr (h.hasPage hr ha)
  have hpage : Asked above4gb (a / 2 ^ 12) := by
    have hmb' : range1mb = 2 ^ 8 := by decide
    have hgb' : range4gb = 2 ^ 20 := rfl
    exact ⟨by omega, hgb.imp_right fun hlt => by omega⟩
  have hbits : a / 2 ^ 12 < 2 ^ n :=
    Nat.lt_of_lt_of_le hhas.2 ((hentries.same hsame).fits r' hr').below
  have hsmall : ∀ p ∈ ps, p.type < 2 ^ 8 := by
    intro p hp
    rcases hmapped.types p hp with heq | ⟨s, -, heq⟩
    · rw [heq]
      rcases c.defType_cases with ⟨hd, -⟩ | ⟨hd, -⟩
      all_goals exact hd ▸ by decide
    · rw [heq]
      exact Nat.mod_lt _ (by decide)
  obtain ⟨hnone, hucs, hall⟩ :=
    hheld.memoryType (d := c.defType) hhigh hmapped.aligned hmapped.below hsmall hbits
  by_cases hd : rangeEntryMtrrType r' = c.defType
  · rw [← htype, hd]
    by_cases hsome : ∃ p ∈ ps, p.block.Covers (a / 2 ^ 12)
    · obtain ⟨p, hp, hcovers⟩ := hsome
      obtain ⟨huc', q, hq, hcovers', hqtype⟩ := hmapped.default _ hpage r' hr' hhas hd p hp hcovers
      rw [hucs ⟨q, hq, hcovers', hqtype.trans huc'⟩, huc']
    · exact hnone fun p hp hcovers => hsome ⟨p, hp, hcovers⟩
  · obtain ⟨hsome, hsame'⟩ := hmapped.own _ hpage r' hr' hhas hd
    rw [hall _ hsome hsame', htype]

/-- RAM with a hole below 4 GiB, and more behind it. -/
def remapped : List RangeEntry :=
  [⟨0, 0x9ffff, 6⟩, ⟨0xa0000, 0xfffff, 0⟩, ⟨0x100000, 0xbfffffff, 6⟩, ⟨0xc0000000, 0xcfffffff, 1⟩,
    ⟨0xd0000000, 0xffffffff, 0⟩, ⟨0x100000000, 0x12fffffff, 6⟩]

theorem remapped_space : Space 36 remapped where
  sorted := ⟨by decide, by decide⟩
  pages := by
    intro r hr
    simp only [remapped, List.mem_cons, List.not_mem_nil, or_false] at hr
    rcases hr with rfl | rfl | rfl | rfl | rfl | rfl <;> exact ⟨by decide, by decide, by decide⟩
  room := by decide
  below := by decide
  tags := by decide

theorem x86SetupVarMtrrs_remapped :
    Right 8 true remapped (x86SetupVarMtrrs 8 36 true remapped fun _ => ⟨0, 0⟩) :=
  x86SetupVarMtrrs_right remapped_space (by decide) (by decide) 8 true _ (by decide +kernel)

end ItxLlama.Coreboot.VarMtrr
