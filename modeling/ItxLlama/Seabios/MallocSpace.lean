import ItxLlama.Seabios.MallocLeak

/-!
# The space that is reported

`malloc_getspace` takes the largest segment of a zone, less what a detail
record needs in a temporary zone, and looks neither at alignment nor at where
the detail record comes from. `_malloc` cuts that record off the first
segment with room for it and the block off what remains, at a multiple of 16.
-/

namespace ItxLlama.Seabios

open Lib.Word Lib.Hlist Lib.Carve

-- ---------------------------------------------------------------------------
-- Free segments
-- ---------------------------------------------------------------------------

def segments (m : Mem) (z : Zone) : List Segment :=
  (listRecords m walkFuel z.head).map (segmentAt m)

def Segment.size (g : Segment) : Nat := g.hi - g.lo

/-- The bytes in front of the first aligned address. -/
def Segment.padding (g : Segment) : Nat := alignUp g.lo mallocMinAlign - g.lo

def Segment.cut (g : Segment) : Nat := newAllocend g.hi detailSize mallocMinAlign

/-- The zone and the segment of the next detail record. -/
def detailFrom (m : Mem) : Option (Zone × Segment) :=
  [.tmpHigh, .tmpLow].findSome? fun z =>
    ((segments m z).find? (Segment.room detailSize mallocMinAlign)).map fun g => (z, g)

/-- What `malloc_getspace` takes off for a detail record. -/
def reserve (z : Zone) : Nat :=
  if z = .tmpHigh ∨ z = .tmpLow then alignUp detailSize mallocMinAlign else 0

/-- When the space reported for a zone can be allocated. -/
inductive SpaceUsable (m : Mem) (z : Zone) : Prop
  | nothing (h : ∀ g ∈ segments m z, g.size ≤ reserve z)
  | permanent (hd : detailFrom m ≠ none) (hz : reserve z = 0) (hg : g ∈ segments m z)
      (hmax : ∀ g' ∈ segments m z, g'.size ≤ g.size) (halign : mallocMinAlign ∣ g.lo)
  | apart (hd : detailFrom m = some (dz, d)) (hz : reserve z ≠ 0) (hne : z ≠ dz)
  | other (hd : detailFrom m = some (z, d)) (hg : g ∈ (segments m z).erase d)
      (hmax : ∀ g' ∈ segments m z, g'.size + g.padding ≤ g.size + reserve z)
  | below (hd : detailFrom m = some (z, d)) (hsmall : d.padding + (d.hi - d.cut) ≤ reserve z)
  | above (hd : detailFrom m = some (z, d)) (hcut : d.cut = d.lo)

-- ---------------------------------------------------------------------------
-- The largest segment
-- ---------------------------------------------------------------------------

section Largest

variable {m m' : Mem} {gs gs' : List Region} {pend tmp : List Nat}

theorem segments_eq (hr : Rep m gs) (hb : Books gs [] []) (z : Zone) :
    segments m z = (zoneInfos z gs).map AllocInfo.segment := by
  rw [segments, listRecords_zone hr hb, addrs, List.map_map]
  exact List.map_congr_left fun n hn => segmentAt_eq ((hr z).infos n hn)

structure Segment.Ok (g : Segment) : Prop where
  pos : 0 < g.lo
  le : g.lo ≤ g.hi
  word : g.hi < 2 ^ 32

theorem segment_ok (hb : Books gs pend tmp) (hn : n ∈ zoneInfos z gs) : n.segment.Ok := by
  obtain ⟨A, B, hAB⟩ := List.append_of_mem hn
  obtain ⟨gs₁, r, gs₂, pre, post, rfl, -, hcs, -, rfl, -⟩ := zoneInfos_split hAB
  have hr : r = r.put (pre ++ post) := by rw [← hcs]; rfl
  obtain ⟨hpos, hword⟩ := topAfter_bounds hb (by rw [← hr])
  have hcarved := (hb.ok r (by simp)).carved
  rw [hcs] at hcarved
  have hle := (carved_append.mp hcarved).2
  refine ⟨by simpa [AllocInfo.segment] using hpos, ?_, by simpa [AllocInfo.segment] using hword⟩
  simp only [AllocInfo.segment, headInfo_dataend, headInfo_allocend]
  cases post with
  | nil => exact hle
  | cons c post => exact hle.2.1

theorem foldl_max_spec (f : α → Nat) (l : List α) (a : Nat) :
    let k := l.foldl (fun k x => if f x > k then f x else k) a
    (∀ x ∈ l, f x ≤ k) ∧ a ≤ k ∧ (k = a ∨ ∃ x ∈ l, f x = k) := by
  induction l generalizing a with
  | nil => simp
  | cons y l ih =>
    rw [List.foldl_cons]
    by_cases hy : f y > a
    · rw [if_pos hy]
      obtain ⟨hall, hle, hmem⟩ := ih (f y)
      refine ⟨List.forall_mem_cons.mpr ⟨hle, hall⟩, by omega, .inr ?_⟩
      rcases hmem with heq | ⟨x, hx, heq⟩
      · exact ⟨y, by simp, heq.symm⟩
      · exact ⟨x, by simp [hx], heq⟩
    · rw [if_neg hy]
      obtain ⟨hall, hle, hmem⟩ := ih a
      refine ⟨List.forall_mem_cons.mpr ⟨by omega, hall⟩, hle, hmem.imp_right ?_⟩
      rintro ⟨x, hx, heq⟩
      exact ⟨x, by simp [hx], heq⟩

theorem mallocGetspace_spec (hr : Rep m gs) (hb : Books gs [] []) (z : Zone) :
    ∃ k, mallocGetspace m z = k - reserve z ∧ (∀ g ∈ segments m z, g.size ≤ k) ∧
      (k = 0 ∨ ∃ g ∈ segments m z, g.size = k) := by
  have hspace : ∀ a ∈ listRecords m walkFuel z.head,
      u32 (m (a + 16) + 2 ^ 32 - m (a + 12)) = (segmentAt m a).size := by
    intro a ha
    rw [listRecords_zone hr hb] at ha
    obtain ⟨n, hn, rfl⟩ := mem_addrs.mp ha
    have hok := segment_ok hb hn
    rw [← segmentAt_eq ((hr z).infos n hn)] at hok
    obtain ⟨-, hle, hword⟩ := hok
    simp only [segmentAt, Segment.size, u32] at *
    omega
  obtain ⟨hall, -, hmem⟩ := foldl_max_spec
    (fun info => u32 (m (info + 16) + 2 ^ 32 - m (info + 12))) (listRecords m walkFuel z.head) 0
  refine ⟨_, ?_, fun g hg => ?_, hmem.imp_right fun hmax => ?_⟩
  · have hcut : ∀ k r : Nat, (if k ≤ r then 0 else k - r) = k - r := by
      intro k r
      split <;> omega
    cases z <;> simp [mallocGetspace, reserve, hcut]
  · obtain ⟨a, ha, rfl⟩ := List.mem_map.mp hg
    exact hspace a ha ▸ hall a ha
  · obtain ⟨a, ha, heq⟩ := hmax
    exact ⟨segmentAt m a, List.mem_map.mpr ⟨a, ha, rfl⟩, (hspace a ha).symm.trans heq⟩

end Largest

-- ---------------------------------------------------------------------------
-- The detail record, and the allocation
-- ---------------------------------------------------------------------------

section Granted

variable {m m' : Mem} {gs gs' : List Region} {pend tmp : List Nat}

/-- What a detail record leaves of its segment, above and below. -/
def Segment.halves (d : Segment) : List Segment := [⟨d.cut + detailSize, d.hi⟩, ⟨d.lo, d.cut⟩]

/-- A detail record reserved in the zone `z`, from the segment `d`. -/
structure DetailCut (gs : List Region) (z : Zone) (d : Segment) (gs' : List Region) : Prop where
  others : ∀ z', z' ≠ z → zoneInfos z' gs' = zoneInfos z' gs
  mem : ∀ g, g ∈ (zoneInfos z gs').map AllocInfo.segment ↔
    g ∈ d.halves ∨ g ∈ ((zoneInfos z gs).map AllocInfo.segment).erase d

theorem allocDetail_first (h : Rep m gs) (hb : Books gs [] []) (z : Zone) :
    (allocSpace m z detailSize mallocMinAlign 0 = some (0, m) ∧
      (segments m z).find? (Segment.room detailSize mallocMinAlign) = none) ∨
    ∃ a gs' m' d, allocSpace m z detailSize mallocMinAlign 0 = some (a, m') ∧
      Reserved gs m [] a gs' m' ∧ DetailCut gs z d gs' ∧
      (segments m z).find? (Segment.room detailSize mallocMinAlign) = some d := by
  rw [segments_eq h hb]
  rcases allocSpace_first h hb z detailSize mallocMinAlign 0 with ⟨h0, hnone⟩ | h1
  · exact .inl ⟨h0, by simpa using hnone⟩
  · obtain ⟨gs₁, r, pre, post, gs₂, hgs, hz, hA, hlo, hhi, -, heq⟩ := h1
    obtain ⟨hpos, hword⟩ := topAfter_bounds hb hgs
    have hle := le_of_newAllocend_le (by decide) (by decide) hhi
    have hsum := newAllocend_add_le mallocMinAlign hle hword (by decide)
    subst hgs hz
    let d : Segment := ⟨botBefore Chunk.dataend r.start post, topAfter Chunk.data r.fin pre⟩
    have hcut : d.cut = newAllocend (topAfter Chunk.data r.fin pre) detailSize mallocMinAlign := rfl
    rw [← hcut] at heq hlo hhi hsum
    rw [if_pos rfl, u32_eq (by omega)] at heq
    have hb' := hb.insert_detail hlo hsum
    have hres := Rep.reserve (c := ⟨d.cut, d.cut, d.cut + detailSize, .detail⟩) h hb'
    simp only [headInfo_allocend] at hres
    have hroom : d.room detailSize mallocMinAlign = true := by
      simp only [Segment.room, Bool.and_eq_true, decide_eq_true_eq]
      exact ⟨hlo, hhi⟩
    have hA' : d ∉ (zoneInfos r.zone gs₁ ++ preInfos r.fin pre).map AllocInfo.segment := by
      intro hd
      obtain ⟨n, hn, hnd⟩ := List.mem_map.mp hd
      have := hA n hn
      rw [hnd, hroom] at this
      exact absurd this (by decide)
    have hsplit : (zoneInfos r.zone (gs₁ ++ r.put (pre ++ post) :: gs₂)).map AllocInfo.segment =
        (zoneInfos r.zone gs₁ ++ preInfos r.fin pre).map AllocInfo.segment ++
          d :: (tailInfos r.addr r.start post ++ zoneInfos r.zone gs₂).map AllocInfo.segment := by
      rw [zoneInfos_put, List.map_append, List.map_cons]
      simp [AllocInfo.segment, d]
    refine .inr ⟨d.cut, _, _, d, heq,
      ⟨by omega, hres.1, hb', bare_edit .., ⟨_, blocks_edit ..⟩, hres.2⟩,
      ⟨fun z' hz' => zoneInfos_put_other _ _ _ _ _ hz', fun g => ?_⟩, ?_⟩
    · rw [hsplit, List.erase_append_right _ hA', List.erase_cons_head, zoneInfos_insert,
        List.map_append, List.map_cons, List.map_cons]
      generalize (zoneInfos r.zone gs₁ ++ preInfos r.fin pre).map AllocInfo.segment = A
      generalize (tailInfos r.addr r.start post ++ zoneInfos r.zone gs₂).map AllocInfo.segment = B
      simp only [List.mem_append, List.mem_cons, Segment.halves, AllocInfo.segment,
        headInfo_dataend, headInfo_allocend, List.not_mem_nil, or_false, d]
      rw [or_left_comm, or_assoc, or_left_comm (a := g ∈ A)]
    · rw [hsplit, List.find?_append, List.find?_eq_none.mpr]
      · simp [hroom]
      · intro g hg
        obtain ⟨n, hn, rfl⟩ := List.mem_map.mp hg
        simp [hA n hn]

theorem reserveDetail_first (h : Rep m gs) (hb : Books gs [] []) :
    (reserveDetail m = some (0, m) ∧ detailFrom m = none) ∨
    ∃ a gs' m' z d, reserveDetail m = some (a, m') ∧ Reserved gs m [] a gs' m' ∧
      DetailCut gs z d gs' ∧ detailFrom m = some (z, d) := by
  rcases allocDetail_first h hb .tmpHigh with ⟨h0, hnone⟩ | ⟨a, gs', m', d, heq, hres, hcut, hd⟩
  · rcases allocDetail_first h hb .tmpLow with ⟨h1, hnone'⟩ | ⟨a, gs', m', d, heq, hres, hcut, hd⟩
    · exact .inl ⟨by simp [reserveDetail, h0, h1], by simp [detailFrom, hnone, hnone']⟩
    · exact .inr ⟨a, gs', m', _, d, by simp [reserveDetail, h0, heq], hres, hcut,
        by simp [detailFrom, hnone, hd]⟩
  · exact .inr ⟨a, gs', m', _, d, by simp [reserveDetail, heq, Nat.ne_of_gt hres.pos], hres, hcut,
      by simp [detailFrom, hd]⟩

/-- The segments that an allocation finds, with its detail record cut off `d`. -/
def remaining (m : Mem) (z dz : Zone) (d : Segment) : List Segment :=
  if z = dz then d.halves ++ (segments m z).erase d else segments m z

theorem malloc_granted (h : Rep m gs) (hb : Books gs [] []) (hsize : 0 < size) :
    (∃ p m', malloc m z size align = some (p, m') ∧ p ≠ 0) ↔
      ∃ dz d, detailFrom m = some (dz, d) ∧ ∃ g ∈ remaining m z dz d, g.room size align = true := by
  have h0 : ¬ size = 0 := Nat.ne_of_gt hsize
  rcases reserveDetail_first h hb with ⟨hres, hnone⟩ | ⟨a, gs', m', dz, d, heq, hres, hcut, hd⟩
  · simp [malloc, h0, hres, hnone]
  have ha0 := Nat.ne_of_gt hres.pos
  have hrep := hres.books.store_handle hres.rep hres.mem_details mallocDefaultHandle
  have hmem : ∀ g, g ∈ (zoneInfos z gs').map AllocInfo.segment ↔ g ∈ remaining m z dz d := by
    intro g
    rw [remaining, segments_eq h hb]
    split
    · subst z
      rw [hcut.mem, List.mem_append]
    · rw [hcut.others z ‹_›]
  have hgoal : (∃ dz' d', detailFrom m = some (dz', d') ∧
      ∃ g ∈ remaining m z dz' d', g.room size align = true) ↔
      ∃ n ∈ zoneInfos z gs', n.segment.room size align = true := by
    simp only [hd, Option.some.injEq, Prod.mk.injEq]
    constructor
    · rintro ⟨_, _, ⟨rfl, rfl⟩, g, hg, hroom⟩
      obtain ⟨n, hn, rfl⟩ := List.mem_map.mp ((hmem g).mpr hg)
      exact ⟨n, hn, hroom⟩
    · rintro ⟨n, hn, hroom⟩
      exact ⟨dz, d, ⟨rfl, rfl⟩, n.segment, (hmem _).mp (List.mem_map.mpr ⟨n, hn, rfl⟩), hroom⟩
  rw [hgoal]
  rcases allocSpace_first hrep hres.books z size align (a + 20) with ⟨hno, hall⟩ |
    ⟨gs₁, r, pre, post, gs₂, hgs, hz, -, hlo, hhi, -, hyes⟩
  · simpa [malloc, h0, heq, ha0, hno] using hall
  · obtain ⟨hpos, -⟩ := topAfter_bounds hres.books hgs
    obtain ⟨p, m'', hyes, hp0⟩ : ∃ p m'', allocSpace (store m' (a + 40) mallocDefaultHandle) z size
        align (a + 20) = some (p, m'') ∧ p ≠ 0 := ⟨_, _, hyes, by omega⟩
    constructor
    · intro _
      refine ⟨headInfo r.addr r.start (topAfter Chunk.data r.fin pre) post, ?_, ?_⟩
      · rw [hgs, ← hz, zoneInfos_put]
        simp
      · simp only [AllocInfo.segment, Segment.room, headInfo_dataend, headInfo_allocend,
          Bool.and_eq_true, decide_eq_true_eq]
        exact ⟨hlo, hhi⟩
    · intro _
      exact ⟨p, m'', by simp [malloc, h0, heq, ha0, hyes, hp0], hp0⟩

end Granted

-- ---------------------------------------------------------------------------
-- Room in a segment
-- ---------------------------------------------------------------------------

theorem dvd_iff_padding {g : Segment} : mallocMinAlign ∣ g.lo ↔ g.padding = 0 := by
  have hle := le_alignUp g.lo (a := mallocMinAlign) (by decide)
  constructor
  · intro hd
    rw [Segment.padding, alignUp_of_dvd (by decide) hd, Nat.sub_self]
  · intro hp
    have heq : alignUp g.lo mallocMinAlign = g.lo := by
      simp only [Segment.padding] at hp
      omega
    exact heq ▸ dvd_alignUp g.lo mallocMinAlign

theorem padding_lt (g : Segment) : g.padding < mallocMinAlign := by
  have hle := le_alignUp g.lo (a := mallocMinAlign) (by decide)
  have hlt := alignUp_lt g.lo (a := mallocMinAlign) (by decide)
  simp only [Segment.padding]
  omega

theorem room_iff {g : Segment} (hg : g.Ok) (h0 : 0 < size)
    (hsum : size + mallocMinAlign ≤ 2 ^ 32) :
    g.room size mallocMinAlign = true ↔ g.lo + g.padding + size ≤ g.hi := by
  obtain ⟨-, hle, hword⟩ := hg
  simp only [Segment.room, Bool.and_eq_true, decide_eq_true_eq, Segment.padding]
  constructor
  · rintro ⟨hlo, hhi⟩
    have hsize := le_of_newAllocend_le (by decide) hsum hhi
    rw [newAllocend_eq hsize hword h0] at hlo
    simp only [alignDown, alignUp, mallocMinAlign] at *
    omega
  · intro hroom
    rw [newAllocend_eq (by omega) hword h0]
    simp only [alignDown, alignUp, mallocMinAlign] at *
    omega

/-- A detail record takes from 44 to 59 bytes of its segment's top. -/
theorem cut_spec {d : Segment} (hd : d.Ok)
    (hroom : d.room detailSize mallocMinAlign = true) :
    d.lo ≤ d.cut ∧ mallocMinAlign ∣ d.cut ∧ d.cut + detailSize ≤ d.hi ∧
      d.hi < d.cut + detailSize + mallocMinAlign := by
  obtain ⟨-, -, hword⟩ := hd
  simp only [Segment.room, Bool.and_eq_true, decide_eq_true_eq] at hroom
  have hsize := le_of_newAllocend_le (by decide) (by decide) hroom.2
  have hsum := newAllocend_add_le mallocMinAlign hsize hword (by decide)
  have hlt := lt_alignDown_add (d.hi - detailSize) (a := mallocMinAlign) (by decide)
  rw [← newAllocend_eq hsize hword (by decide)] at hlt
  refine ⟨hroom.1, dvd_alignDown _ _, hsum, ?_⟩
  simp only [Segment.cut]
  omega

/-- The records of the zones themselves keep a segment from filling the
address space. -/
theorem size_lt (hr : Rep m gs) (hb : Books gs [] []) (hg : g ∈ segments m z) :
    g.size + detailSize < 2 ^ 32 := by
  rw [segments_eq hr hb] at hg
  obtain ⟨n, hn, rfl⟩ := List.mem_map.mp hg
  obtain ⟨-, hle, hword⟩ := segment_ok hb hn
  obtain ⟨A, B, hAB⟩ := List.append_of_mem hn
  obtain ⟨gs₁, r, gs₂, pre, post, hgs, -⟩ := zoneInfos_split hAB
  have howner : r.addr ∈ owners gs ++ [] := by simp [hgs, owners]
  have hdetail := hb.balance.mem_iff.mp howner
  rw [List.append_nil] at hdetail
  obtain ⟨a, ha, -⟩ := List.mem_map.mp hdetail
  have hbounds := hb.detail_bounds ha
  obtain ⟨p, hp, hk, rfl⟩ := mem_details.mp ha
  have hok := hb.block_ok hp
  simp only [Chunk.Ok, hk] at hok
  -- an address in both would be free and in a block
  have hfree : ∀ x, n.segment.lo ≤ x → x < n.segment.hi → x < p.2.data ∨ p.2.dataend ≤ x := by
    intro x hlo hhi
    have hat := (hr z).infos n hn
    have hna : n.addr ∈ listRecords m walkFuel z.head := by
      rw [listRecords_zone hr hb]
      exact mem_addrs.mpr ⟨n, hn, rfl⟩
    have hx : x ∈ freeSet m z := ⟨n.addr, hna, hat.dataend.symm ▸ hlo, hat.allocend.symm ▸ hhi⟩
    obtain ⟨-, -, -, -, -, hoff⟩ := (mem_freeSet hr hb).mp hx
    exact hoff p hp
  have h1 := hfree n.segment.lo
  have h2 := hfree p.2.data
  simp only [Segment.size, detailSize] at *
  omega

theorem detailFrom_some (h : detailFrom m = some (dz, d)) : reserve dz = 48 ∧ d ∈ segments m dz ∧
    d.room detailSize mallocMinAlign = true := by
  obtain ⟨z, hz, hzd⟩ := List.exists_of_findSome?_eq_some h
  obtain ⟨g, hg, hzg⟩ := Option.map_eq_some_iff.mp hzd
  obtain ⟨rfl, rfl⟩ := Prod.mk.inj hzg
  refine ⟨?_, List.mem_of_find?_eq_some hg, List.find?_some hg⟩
  simp only [List.mem_cons, List.not_mem_nil, or_false] at hz
  rcases hz with rfl | rfl <;> rfl

theorem reserve_cases (z : Zone) : reserve z = 0 ∨ reserve z = 48 := by
  cases z <;> decide

/-- The space reported for the zone can be allocated. -/
def SpaceAccurate (m : Mem) (z : Zone) : Prop :=
  0 < mallocGetspace m z →
    ∃ p m', malloc m z (mallocGetspace m z) mallocMinAlign = some (p, m') ∧ p ≠ 0

section Accurate

variable {m : Mem} {gs : List Region}

theorem segments_ok (hr : Rep m gs) (hb : Books gs [] []) (hg : g ∈ segments m z) : g.Ok := by
  rw [segments_eq hr hb] at hg
  obtain ⟨n, hn, rfl⟩ := List.mem_map.mp hg
  exact segment_ok hb hn

theorem halves_ok {d : Segment} (hd : d.Ok) (hroom : d.room detailSize mallocMinAlign = true) :
    (⟨d.cut + detailSize, d.hi⟩ : Segment).Ok ∧ (⟨d.lo, d.cut⟩ : Segment).Ok := by
  obtain ⟨h1, -, h2, -⟩ := cut_spec hd hroom
  have := hd.pos
  have := hd.word
  exact ⟨⟨by simp only; omega, h2, hd.word⟩, ⟨hd.pos, h1, by simp only; omega⟩⟩

theorem padding_behind {d : Segment} (hd : d.Ok) (hroom : d.room detailSize mallocMinAlign = true) :
    (⟨d.cut + detailSize, d.hi⟩ : Segment).padding = 4 := by
  obtain ⟨-, h1, -, -⟩ := cut_spec hd hroom
  have := alignUp_unique (a := mallocMinAlign) (x := d.cut + detailSize) (y := d.cut + 48)
    (by decide) (Nat.dvd_add h1 (by decide)) (by simp [detailSize])
    (by simp [detailSize, mallocMinAlign])
  show alignUp (d.cut + detailSize) mallocMinAlign - (d.cut + detailSize) = 4
  rw [this, detailSize]
  omega

theorem usable_of_accurate (hr : Rep m gs) (hb : Books gs [] []) (h : SpaceAccurate m z) :
    SpaceUsable m z := by
  obtain ⟨k, hn, hall, hk⟩ := mallocGetspace_spec hr hb z
  by_cases hle : k ≤ reserve z
  · exact .nothing fun g hg => Nat.le_trans (hall g hg) hle
  rcases hk with hk0 | ⟨t, ht, hkt⟩
  · omega
  have hlt := size_lt hr hb ht
  have hsum : mallocGetspace m z + mallocMinAlign ≤ 2 ^ 32 := by
    simp only [detailSize, mallocMinAlign] at *
    omega
  have hpos : 0 < mallocGetspace m z := by omega
  obtain ⟨dz, d, hd, g, hg, hroom⟩ := (malloc_granted hr hb hpos).mp (h hpos)
  obtain ⟨hdz, hdm, hdroom⟩ := detailFrom_some hd
  have hdok := segments_ok hr hb hdm
  by_cases hz : z = dz
  · subst hz
    rw [remaining, if_pos rfl] at hg
    -- unless the detail comes from the only largest segment, another is left
    by_cases hother : t ∈ (segments m z).erase d
    · refine .other hd hother fun g' hg' => ?_
      have := hall g' hg'
      have := padding_lt t
      simp only [mallocMinAlign] at *
      omega
    have htd : t = d := by
      by_contra hne
      exact hother ((List.mem_erase_of_ne hne).mpr ht)
    subst htd
    rcases List.mem_append.mp hg with hg | hg
    · simp only [Segment.halves, List.mem_cons, List.not_mem_nil, or_false] at hg
      obtain ⟨hok1, hok2⟩ := halves_ok hdok hdroom
      obtain ⟨hlo, -, hhi, -⟩ := cut_spec hdok hdroom
      rcases hg with rfl | rfl
      · have hpad := padding_behind hdok hdroom
        rw [room_iff hok1 hpos hsum, hpad] at hroom
        refine .above hd ?_
        simp only [Segment.size, detailSize] at *
        omega
      · rw [room_iff hok2 hpos hsum] at hroom
        refine .below hd ?_
        simp only [Segment.size, Segment.padding, detailSize] at *
        omega
    · refine .other hd hg fun g' hg' => ?_
      have := hall g' hg'
      have hgok := segments_ok hr hb (List.mem_of_mem_erase hg)
      rw [room_iff hgok hpos hsum] at hroom
      simp only [Segment.size] at *
      omega
  · rw [remaining, if_neg hz] at hg
    have hgok := segments_ok hr hb hg
    rcases reserve_cases z with h0 | h48
    · rw [room_iff hgok hpos hsum] at hroom
      have := hall g hg
      simp only [Segment.size] at *
      refine .permanent (by simp [hd]) h0 hg (fun g' hg' => ?_) (dvd_iff_padding.mpr (by omega))
      have := hall g' hg'
      simp only [Segment.size] at *
      omega
    · exact .apart hd (by omega) hz

theorem accurate_of_usable (hr : Rep m gs) (hb : Books gs [] []) (h : SpaceUsable m z) :
    SpaceAccurate m z := by
  intro hpos
  obtain ⟨k, hn, hall, hk⟩ := mallocGetspace_spec hr hb z
  rcases hk with hk0 | ⟨t, ht, hkt⟩
  · omega
  have hlt := size_lt hr hb ht
  have hsum : mallocGetspace m z + mallocMinAlign ≤ 2 ^ 32 := by
    simp only [detailSize, mallocMinAlign] at *
    omega
  rw [malloc_granted hr hb hpos]
  have htok := segments_ok hr hb ht
  have htroom : reserve z = 48 → t.room (mallocGetspace m z) mallocMinAlign = true := by
    intro h48
    have := padding_lt t
    rw [room_iff htok hpos hsum]
    simp only [Segment.size, mallocMinAlign] at *
    omega
  -- in a temporary zone the largest segment has room, if it is still whole
  have hwhole : ∀ d, detailFrom m = some (z, d) → (t = d → ∃ g ∈ remaining m z z d,
      g.room (mallocGetspace m z) mallocMinAlign = true) → ∃ dz d, detailFrom m = some (dz, d) ∧
        ∃ g ∈ remaining m z dz d, g.room (mallocGetspace m z) mallocMinAlign = true := by
    intro d hd htd
    by_cases htd' : t = d
    · exact ⟨z, d, hd, htd htd'⟩
    · refine ⟨z, d, hd, t, ?_, htroom (detailFrom_some hd).1⟩
      rw [remaining, if_pos rfl]
      exact List.mem_append_right _ ((List.mem_erase_of_ne htd').mpr ht)
  cases h with
  | nothing h =>
    have := h t ht
    omega
  | permanent hd hz hg hmax halign =>
    obtain ⟨⟨dz, d⟩, hd⟩ := Option.ne_none_iff_exists'.mp hd
    obtain ⟨hdz, -, -⟩ := detailFrom_some hd
    have hne : z ≠ dz := fun h => by
      subst h
      omega
    refine ⟨dz, d, hd, _, by rwa [remaining, if_neg hne], ?_⟩
    rw [room_iff (segments_ok hr hb hg) hpos hsum, dvd_iff_padding.mp halign]
    have := hmax t ht
    simp only [Segment.size] at *
    omega
  | apart hd hz hne =>
    have h48 := (reserve_cases z).resolve_left hz
    exact ⟨_, _, hd, t, by rwa [remaining, if_neg hne], htroom h48⟩
  | @other d g hd hg hmax =>
    refine ⟨z, d, hd, g, ?_, ?_⟩
    · rw [remaining, if_pos rfl]
      exact List.mem_append_right _ hg
    · rw [room_iff (segments_ok hr hb (List.mem_of_mem_erase hg)) hpos hsum]
      have := hmax t ht
      simp only [Segment.size] at *
      omega
  | @below d hd hsmall =>
    obtain ⟨-, hdm, hdroom⟩ := detailFrom_some hd
    have hdok := segments_ok hr hb hdm
    refine hwhole d hd fun htd => ?_
    subst htd
    refine ⟨⟨t.lo, t.cut⟩, by simp [remaining, Segment.halves], ?_⟩
    rw [room_iff (halves_ok hdok hdroom).2 hpos hsum]
    obtain ⟨hlo, -, hhi, -⟩ := cut_spec hdok hdroom
    simp only [Segment.size, Segment.padding, detailSize] at *
    omega
  | @above d hd hcut =>
    obtain ⟨h48, hdm, hdroom⟩ := detailFrom_some hd
    have hdok := segments_ok hr hb hdm
    refine hwhole d hd fun htd => ?_
    subst htd
    refine ⟨⟨t.cut + detailSize, t.hi⟩, by simp [remaining, Segment.halves], ?_⟩
    rw [room_iff (halves_ok hdok hdroom).1 hpos hsum, padding_behind hdok hdroom]
    simp only [Segment.size, detailSize] at *
    omega

end Accurate

/-- In every state of a run without a request that wraps, the space that
`malloc_getspace` reports can be allocated just where `SpaceUsable` says. -/
theorem getspace_accurate_iff (s : AllocState) (z : Zone)
    (h : AllocReach (fun s op => op.Ok s ∧ ¬ op.Wraps s) s) :
    SpaceAccurate s.mem z ↔ SpaceUsable s.mem z := by
  obtain ⟨gs, hgs⟩ := holds_of_reach h
  exact ⟨usable_of_accurate hgs.rep hgs.books, accurate_of_usable hgs.rep hgs.books⟩

theorem getspace_accurate_iff_low : ∃ s : AllocState, mallocGetspace s.mem .low = 0xfc0 ∧
    (SpaceAccurate s.mem .low ↔ SpaceUsable s.mem .low) := by
  have hrun : (runOps roomTest emptyZones
      [.add .tmpHigh 0x100000 0x200000, .add .low 0x8000 0x9000, .malloc .low 64 64]).map
        (fun s => mallocGetspace s.mem .low) = some 0xfc0 := by
    decide +kernel
  obtain ⟨s, hs, hspace⟩ := Option.map_eq_some_iff.mp hrun
  exact ⟨s, hspace, getspace_accurate_iff s .low ⟨_, fun _ => rfl, .of_runOps roomTest_ok hs⟩⟩

/-- The twelve bytes behind a block of 20 are reported, and are not aligned. -/
theorem getspace_inaccurate : ¬ ∀ (s : AllocState) (z : Zone),
    AllocReach (fun s op => op.Ok s ∧ ¬ op.Wraps s) s → SpaceAccurate s.mem z := by
  have hrun : (runOps roomTest emptyZones
      [.add .tmpHigh 0x100000 0x200000, .add .low 0x8000 0x9000, .malloc .low 20 16,
        .malloc .low 0xfe0 16]).map
        (fun s => (mallocGetspace s.mem .low, (malloc s.mem .low 12 16).map Prod.fst)) =
      some (12, some 0) := by
    decide +kernel
  obtain ⟨s, hs, heq⟩ := Option.map_eq_some_iff.mp hrun
  obtain ⟨hspace, hmalloc⟩ := Prod.mk.inj heq
  intro hall
  have hacc := hall s .low ⟨_, fun _ => rfl, .of_runOps roomTest_ok hs⟩
  rw [SpaceAccurate, hspace] at hacc
  obtain ⟨p, m', hp, hp0⟩ := hacc (by decide)
  rw [show mallocMinAlign = 16 from rfl] at hp
  rw [hp] at hmalloc
  exact hp0 (Option.some.inj hmalloc)

end ItxLlama.Seabios
