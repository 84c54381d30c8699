import ItxLlama.Seabios.MallocSpec

/-!
# One call of the allocator

The specification of `_malloc`, `_free` and `addSpace` on memory that holds
balanced zones: what each returns, and which blocks are there afterwards.
-/

namespace ItxLlama.Seabios

open Lib.Word Lib.Hlist Lib.Carve

-- ---------------------------------------------------------------------------
-- The fit test
-- ---------------------------------------------------------------------------

theorem newAllocend_eq (hle : size ≤ allocend) (hlt : allocend < 2 ^ 32) (h0 : 0 < size) :
    newAllocend allocend size align = alignDown (allocend - size) align := by
  have : u32 (allocend + 2 ^ 32 - size) = allocend - size := by
    unfold u32
    omega
  rw [newAllocend, this]

theorem newAllocend_add_le (align : Nat) (hle : size ≤ allocend) (hlt : allocend < 2 ^ 32)
    (h0 : 0 < size) : newAllocend allocend size align + size ≤ allocend := by
  rw [newAllocend_eq hle hlt h0]
  have := alignDown_le (allocend - size) align
  omega

/-- A request that leaves room for its alignment below 4 GiB cannot wrap. -/
theorem le_of_newAllocend_le (ha : 0 < align) (hsum : size + align ≤ 2 ^ 32)
    (hnew : newAllocend allocend size align ≤ allocend) :
    size ≤ allocend := by
  by_contra hgt
  have hu : u32 (allocend + 2 ^ 32 - size) = allocend + 2 ^ 32 - size := u32_eq (by omega)
  have := lt_alignDown_add (u32 (allocend + 2 ^ 32 - size)) ha
  simp only [newAllocend] at hnew
  omega

/-- The free space of a record, from its `dataend` to its `allocend`. -/
structure Segment where
  lo : Nat
  hi : Nat
  deriving DecidableEq, Repr

/-- The test of `allocSpace`. -/
def Segment.room (size align : Nat) (g : Segment) : Bool :=
  g.lo ≤ newAllocend g.hi size align && newAllocend g.hi size align ≤ g.hi

def segmentAt (m : Mem) (info : Nat) : Segment := ⟨m (info + 12), m (info + 16)⟩

def AllocInfo.segment (n : AllocInfo) : Segment := ⟨n.dataend, n.allocend⟩

theorem segmentAt_eq {n : AllocInfo} (h : n.At m) : segmentAt m n.addr = n.segment := by
  rw [segmentAt, h.dataend, h.allocend, AllocInfo.segment]

theorem fits_eq {n : AllocInfo} (h : n.At m) :
    fits m size align n.addr = n.segment.room size align :=
  congrArg (Segment.room size align) (segmentAt_eq h)

/-- The first record of the zone that passes the test starts its slack below
the size of the request: the subtraction in the test has wrapped. -/
def FirstFitWraps (m : Mem) (zone : Zone) (size align : Nat) : Prop :=
  ∃ pprev, hlistFind m (fits m size align) walkFuel zone.head = some pprev ∧
    m pprev ≠ 0 ∧ m (m pprev + 16) < size

/-- The request of `_malloc` wraps, with its detail record reserved. -/
def Wraps (m : Mem) (zone : Zone) (size align : Nat) : Prop :=
  ∃ detail m', reserveDetail m = some (detail, m') ∧ detail ≠ 0 ∧
    FirstFitWraps (store m' (detail + 40) mallocDefaultHandle) zone size align

-- ---------------------------------------------------------------------------
-- allocSpace
-- ---------------------------------------------------------------------------

section Alloc

variable {m : Mem} {gs gs₁ gs₂ : List Region} {r : Region} {pre post : List Chunk}
  {pend tmp : List Nat}

/-- The walk over a zone stops at the end, or at the first record that passes. -/
theorem Rep.find (h : Rep m gs) (hb : Books gs pend tmp) (z : Zone) (p : Nat → Bool) :
    ∃ pprev, hlistFind m p walkFuel z.head = some pprev ∧
      ((m pprev = 0 ∧ ∀ n ∈ zoneInfos z gs, p n.addr = false) ∨
        ∃ A x B, zoneInfos z gs = A ++ x :: B ∧ (∀ n ∈ A, p n.addr = false) ∧ p x.addr = true ∧
          m pprev = x.addr ∧ x.addr ≠ 0) := by
  have hlen := hb.length_lt z
  cases hf : (zoneInfos z gs).find? (fun n => p n.addr) with
  | none =>
    have hA : ∀ n ∈ zoneInfos z gs, p n.addr = false := by simpa using List.find?_eq_none.mp hf
    have hl : ListAt m z.head (zoneInfos z gs ++ []) := by simpa using h z
    have hend : m (lastLoc z.head (addrs (zoneInfos z gs))) = 0 := by
      have hc := hl.chain
      rw [addrs_append] at hc
      simpa using hc.next
    exact ⟨_, hl.find hA (by simp) hlen, .inl ⟨hend, hA⟩⟩
  | some x =>
    obtain ⟨hx, A, B, hAB, hA⟩ := List.find?_eq_some_iff_append.mp hf
    have hA : ∀ n ∈ A, p n.addr = false := by simpa using hA
    have hl := h z
    rw [hAB] at hl hlen
    rw [List.length_append] at hlen
    have hnext : m (lastLoc z.head (addrs A)) = x.addr := by
      have hc := hl.chain
      rw [addrs_append] at hc
      simpa using hc.next
    exact ⟨_, hl.find hA (by simpa using hx) (Nat.lt_of_le_of_lt (Nat.le_add_right _ _) hlen),
      .inr ⟨A, x, B, hAB, hA, hx, hnext, hl.chain.ne_zero (by simp)⟩⟩

theorem allocSpace_first (h : Rep m gs) (hb : Books gs pend tmp) (z : Zone)
    (size align fill : Nat) :
    (allocSpace m z size align fill = some (0, m) ∧
      ∀ n ∈ zoneInfos z gs, n.segment.room size align = false) ∨
    ∃ (gs₁ : List Region) (r : Region) (pre post : List Chunk) (gs₂ : List Region),
      gs = gs₁ ++ r.put (pre ++ post) :: gs₂ ∧ r.zone = z ∧
      (∀ n ∈ zoneInfos z gs₁ ++ preInfos r.fin pre, n.segment.room size align = false) ∧
      botBefore Chunk.dataend r.start post ≤
        newAllocend (topAfter Chunk.data r.fin pre) size align ∧
      newAllocend (topAfter Chunk.data r.fin pre) size align ≤ topAfter Chunk.data r.fin pre ∧
      (¬ FirstFitWraps m z size align → size ≤ topAfter Chunk.data r.fin pre) ∧
      allocSpace m z size align fill =
        some (newAllocend (topAfter Chunk.data r.fin pre) size align,
          reserveAt m (if fill = 0 then newAllocend (topAfter Chunk.data r.fin pre) size align
              else fill)
            (newAllocend (topAfter Chunk.data r.fin pre) size align)
            (u32 (newAllocend (topAfter Chunk.data r.fin pre) size align + size))
            (topAfter Chunk.data r.fin pre)
            (headInfo r.addr r.start (topAfter Chunk.data r.fin pre) post).addr) := by
  have hfits : ∀ n ∈ zoneInfos z gs, fits m size align n.addr = n.segment.room size align :=
    fun n hn => fits_eq ((h z).infos n hn)
  obtain ⟨pprev, hfind, ⟨hend, hA⟩ | ⟨A, x, B, hAB, hA, hx, hnext, hx0⟩⟩ :=
    h.find hb z (fits m size align)
  · exact .inl ⟨by simp [allocSpace, hfind, hend], fun n hn => (hfits n hn).symm.trans (hA n hn)⟩
  · right
    rw [hfits x (by simp [hAB])] at hx
    replace hA : ∀ n ∈ A, n.segment.room size align = false :=
      fun n hn => (hfits n (by simp [hAB, hn])).symm.trans (hA n hn)
    have hl := h z
    rw [hAB] at hl
    have hat := hl.infos x (by simp)
    obtain ⟨gs₁, r, gs₂, pre, post, rfl, hz, hcs, hAeq, rfl, -⟩ := zoneInfos_split hAB
    have hr : r = r.put (pre ++ post) := by rw [← hcs]; rfl
    have hend := hat.allocend
    simp only [Segment.room, AllocInfo.segment, headInfo_dataend, headInfo_allocend,
      Bool.and_eq_true,
      decide_eq_true_eq] at hx hend
    refine ⟨gs₁, r, pre, post, gs₂, by rw [← hr], hz, hAeq ▸ hA, hx.1, hx.2, fun hw => ?_, ?_⟩
    · by_contra hlt
      exact hw ⟨_, hfind, by rw [hnext]; exact hx0, by rw [hnext, hend]; omega⟩
    · simp only [allocSpace, hfind, Option.bind_eq_bind, Option.bind_some, hnext, if_neg hx0, hend]
      rfl

theorem allocSpace_cases (h : Rep m gs) (hb : Books gs pend tmp) (z : Zone)
    (size align fill : Nat) :
    allocSpace m z size align fill = some (0, m) ∨
    ∃ (gs₁ : List Region) (r : Region) (pre post : List Chunk) (gs₂ : List Region),
      gs = gs₁ ++ r.put (pre ++ post) :: gs₂ ∧ r.zone = z ∧
      botBefore Chunk.dataend r.start post ≤
        newAllocend (topAfter Chunk.data r.fin pre) size align ∧
      newAllocend (topAfter Chunk.data r.fin pre) size align ≤ topAfter Chunk.data r.fin pre ∧
      (¬ FirstFitWraps m z size align → size ≤ topAfter Chunk.data r.fin pre) ∧
      allocSpace m z size align fill =
        some (newAllocend (topAfter Chunk.data r.fin pre) size align,
          reserveAt m (if fill = 0 then newAllocend (topAfter Chunk.data r.fin pre) size align
              else fill)
            (newAllocend (topAfter Chunk.data r.fin pre) size align)
            (u32 (newAllocend (topAfter Chunk.data r.fin pre) size align + size))
            (topAfter Chunk.data r.fin pre)
            (headInfo r.addr r.start (topAfter Chunk.data r.fin pre) post).addr) := by
  rcases allocSpace_first h hb z size align fill with ⟨hno, -⟩ |
    ⟨gs₁, r, pre, post, gs₂, hgs, hz, -, hyes⟩
  · exact .inl hno
  · exact .inr ⟨gs₁, r, pre, post, gs₂, hgs, hz, hyes⟩

theorem topAfter_bounds (hb : Books gs pend tmp) (hgs : gs = gs₁ ++ r.put (pre ++ post) :: gs₂) :
    0 < botBefore Chunk.dataend r.start post ∧ topAfter Chunk.data r.fin pre < 2 ^ 32 := by
  have hr := hb.ok (r.put (pre ++ post)) (by simp [hgs])
  obtain ⟨hpre, hpost⟩ := carved_append.mp hr.carved
  have h1 := hr.pos
  have h2 := hr.word
  have h3 := hpre.le
  simp only [put_start, put_fin] at h1 h2 h3
  refine ⟨?_, by omega⟩
  cases post with
  | nil => exact h1
  | cons c post =>
    obtain ⟨h4, -, h5⟩ := hpost
    have := h5.le
    simp only [put_start, botBefore_cons] at this ⊢
    omega

/-- A detail record reserved in a zone. -/
structure Reserved (gs : List Region) (m : Mem) (tmp : List Nat) (d : Nat) (gs' : List Region)
    (m' : Mem) : Prop where
  pos : 0 < d
  rep : Rep m' gs'
  books : Books gs' [datainfo d] tmp
  bare : gs'.map Region.bare = gs.map Region.bare
  cut : ∃ z, (blocks gs').Perm ((z, ⟨d, d, d + detailSize, .detail⟩) :: blocks gs)
  handles : KeepsHandles gs' m m'

theorem allocDetail_spec (h : Rep m gs) (hb : Books gs [] tmp) (z : Zone) :
    allocSpace m z detailSize mallocMinAlign 0 = some (0, m) ∨
    ∃ d gs' m', allocSpace m z detailSize mallocMinAlign 0 = some (d, m') ∧
      Reserved gs m tmp d gs' m' := by
  rcases allocSpace_cases h hb z detailSize mallocMinAlign 0 with h0 | h1
  · exact .inl h0
  · obtain ⟨gs₁, r, pre, post, gs₂, hgs, hz, hlo, hhi, -, heq⟩ := h1
    obtain ⟨hpos, hword⟩ := topAfter_bounds hb hgs
    have hle := le_of_newAllocend_le (by decide) (by decide) hhi
    have hsum := newAllocend_add_le mallocMinAlign hle hword (by decide)
    generalize newAllocend (topAfter Chunk.data r.fin pre) detailSize mallocMinAlign = d at *
    rw [if_pos rfl, u32_eq (by omega)] at heq
    subst hgs
    have hb' := hb.insert_detail hlo hsum
    have hres := Rep.reserve (c := ⟨d, d, d + detailSize, .detail⟩) h hb'
    simp only [headInfo_allocend] at hres
    exact .inr ⟨d, _, _, heq, by omega, hres.1, hb', bare_edit .., ⟨_, blocks_edit ..⟩, hres.2⟩

theorem reserveDetail_spec (h : Rep m gs) (hb : Books gs [] tmp) :
    reserveDetail m = some (0, m) ∨
    ∃ d gs' m', reserveDetail m = some (d, m') ∧ Reserved gs m tmp d gs' m' := by
  rcases allocDetail_spec h hb .tmpHigh with h0 | ⟨d, gs', m', heq, hres⟩
  · rcases allocDetail_spec h hb .tmpLow with h1 | ⟨d, gs', m', heq, hres⟩
    · exact .inl (by simp [reserveDetail, h0, h1])
    · exact .inr ⟨d, gs', m', by simp [reserveDetail, h0, heq], hres⟩
  · exact .inr ⟨d, gs', m', by simp [reserveDetail, heq, Nat.ne_of_gt hres.pos], hres⟩

-- ---------------------------------------------------------------------------
-- _malloc
-- ---------------------------------------------------------------------------

theorem KeepsHandles.mono {gs gs' : List Region} (h : KeepsHandles gs' m m')
    (hs : ∀ d ∈ details gs, d ∈ details gs') : KeepsHandles gs m m' :=
  fun d hd => h d (hs d hd)

theorem KeepsHandles.trans {gs : List Region} (h : KeepsHandles gs m m')
    (h' : KeepsHandles gs m' m'') : KeepsHandles gs m m'' :=
  fun d hd => (h' d hd).trans (h d hd)

theorem Books.store_handle (hb : Books gs pend tmp) (h : Rep m gs) (hd : d ∈ details gs) (v : Nat) :
    Rep (store m (d + 40) v) gs := by
  have hbound := hb.detail_bounds hd
  simp only [detailSize] at hbound
  refine h.frame (fun z => ?_) fun z a ha i hi => ?_
  · have := head_ge z
    simp only [headBase] at this
    exact store_ne _ _ (by omega)
  · refine store_ne _ _ ?_
    simp only [infoSize] at hi
    rcases hb.mem_record ha with hat | ⟨d', hd', rfl | rfl⟩
    · have : a = tempDatainfo := by rcases hb.tmp with rfl | rfl <;> simp_all
      simp only [tempDatainfo] at this
      omega
    · have := apart_or_eq hb.details_apart hd hd'
      simp only [Apart, detailSize] at this
      omega
    · have := apart_or_eq hb.details_apart hd hd'
      simp only [Apart, detailSize, datainfo, infoSize] at this ⊢
      omega

theorem mem_details_of_perm {gs' : List Region} (hp : (blocks gs').Perm (p :: l))
    (hk : p.2.kind = .detail) :
    p.2.data ∈ details gs' :=
  mem_details.mpr ⟨p, hp.mem_iff.mpr (by simp), hk, rfl⟩

theorem details_sub {gs' : List Region} {l : List (Zone × Chunk)}
    (hp : (blocks gs').Perm (l ++ blocks gs)) : ∀ d ∈ details gs, d ∈ details gs' := by
  intro d hd
  obtain ⟨p, hpm, hk, rfl⟩ := mem_details.mp hd
  exact mem_details.mpr ⟨p, hp.mem_iff.mpr (by simp [hpm]), hk, rfl⟩

theorem blocks_split {p : Zone × Chunk} (hp : p ∈ blocks gs) :
    ∃ (gs₁ : List Region) (r : Region) (pre post : List Chunk) (gs₂ : List Region),
      gs = gs₁ ++ r.put (pre ++ p.2 :: post) :: gs₂ ∧ r.zone = p.1 := by
  obtain ⟨r, hr, hz, hc⟩ := mem_blocks.mp hp
  obtain ⟨gs₁, gs₂, rfl⟩ := List.append_of_mem hr
  obtain ⟨pre, post, hcs⟩ := List.append_of_mem hc
  refine ⟨gs₁, r, pre, post, gs₂, ?_, hz.symm⟩
  rw [← hcs]
  rfl

/-- The detail record of an allocation at `d`. -/
def detailChunk (d : Nat) : Chunk := ⟨d, d, d + detailSize, .detail⟩

theorem Reserved.mem_details (h : Reserved gs m tmp d gs' m') : d ∈ details gs' := by
  obtain ⟨z, hz⟩ := h.cut
  exact mem_details_of_perm hz rfl

theorem Rep.release (h : Rep m gs) (hb : Books gs [datainfo d] tmp)
    (hd : (z, detailChunk d) ∈ blocks gs) :
    ∃ gs', Rep (freeSpace m d) gs' ∧ Books gs' [] tmp ∧
      gs'.map Region.bare = gs.map Region.bare ∧
      (blocks gs).Perm ((z, detailChunk d) :: blocks gs') ∧ KeepsHandles gs m (freeSpace m d) := by
  obtain ⟨gs₁, r, pre, post, gs₂, rfl, hrz⟩ := blocks_split hd
  simp only at hrz
  obtain ⟨hrep, hk⟩ := Rep.free h hb
  refine ⟨_, hrep, hb.delete_detail rfl, bare_edit .., ?_, hk⟩
  rw [← hrz]
  exact blocks_edit ..

theorem malloc_spec (h : Rep m gs) (hb : Books gs [] []) (hw : ¬ Wraps m z size align) :
    ∃ p m' gs', malloc m z size align = some (p, m') ∧ Rep m' gs' ∧ Books gs' [] [] ∧
      gs'.map Region.bare = gs.map Region.bare ∧ KeepsHandles gs m m' ∧
      ((p = 0 ∧ (blocks gs').Perm (blocks gs)) ∨
        0 < p ∧ ∃ z' d, (blocks gs').Perm
            ((z, ⟨datainfo d, p, p + size, .user size align⟩) :: (z', detailChunk d) :: blocks gs) ∧
          m' (d + 40) = mallocDefaultHandle) := by
  by_cases h0 : size = 0
  · exact ⟨0, m, gs, by simp [malloc, h0], h, hb, rfl, fun _ _ => rfl, .inl ⟨rfl, .refl _⟩⟩
  rcases reserveDetail_spec h hb with hres | ⟨d, gs', m', heq, hres⟩
  · exact ⟨0, m, gs, by simp [malloc, h0, hres], h, hb, rfl, fun _ _ => rfl, .inl ⟨rfl, .refl _⟩⟩
  have hd0 := Nat.ne_of_gt hres.pos
  have hdm := hres.mem_details
  have hrep := hres.books.store_handle hres.rep hdm mallocDefaultHandle
  obtain ⟨zd, hperm⟩ := hres.cut
  have hsub : ∀ d' ∈ details gs, d' ∈ details gs' := details_sub (l := [_]) hperm
  have hne : ∀ d' ∈ details gs, d' ≠ d := by
    intro d' hd' heq'
    have hp := (hperm.filterMap asDetail).pairwise_iff (R := Apart detailSize)
      (fun h => h.symm) |>.mp hres.books.details_apart
    exact absurd heq' (((List.pairwise_cons.mp hp).1 d' hd').ne (by decide)).symm
  have hkeep : KeepsHandles gs m (store m' (d + 40) mallocDefaultHandle) := fun d' hd' =>
    (store_ne _ _ (by have := hne d' hd'; omega)).trans (hres.handles d' (hsub d' hd'))
  have hfw : ¬ FirstFitWraps (store m' (d + 40) mallocDefaultHandle) z size align :=
    fun hf => hw ⟨d, m', heq, hd0, hf⟩
  rcases allocSpace_cases hrep hres.books z size align (d + 20) with hno |
    ⟨gs₁, r, pre, post, gs₂, rfl, hz, hlo, hhi, hle, hyes⟩
  · obtain ⟨gs'', hrep', hb', hbare, hblocks, hk⟩ :=
      hrep.release hres.books (hperm.mem_iff.mpr (List.mem_cons_self (a := (zd, detailChunk d))))
    refine ⟨0, _, gs'', ?_, hrep', hb', hbare.trans hres.bare, hkeep.trans (hk.mono hsub),
      .inl ⟨rfl, (hblocks.symm.trans hperm).cons_inv⟩⟩
    simp [malloc, h0, heq, hd0, hno]
  · obtain ⟨hpos, hword⟩ := topAfter_bounds hres.books rfl
    have hsum := newAllocend_add_le align (hle hfw) hword (Nat.pos_of_ne_zero h0)
    have hdvd : align ∣ newAllocend (topAfter Chunk.data r.fin pre) size align := dvd_alignDown _ _
    generalize newAllocend (topAfter Chunk.data r.fin pre) size align = p at *
    rw [if_neg (by omega), u32_eq (by omega)] at hyes
    have hb' := hres.books.insert_user (Nat.pos_of_ne_zero h0) hlo hsum hdvd
    obtain ⟨hrep', hk⟩ := Rep.reserve (c := ⟨datainfo d, p, p + size, .user size align⟩) hrep hb'
    simp only [headInfo_allocend] at hrep' hk
    have hedit := blocks_edit gs₁ gs₂ r pre post ⟨datainfo d, p, p + size, .user size align⟩
    rw [hz] at hedit
    have hmono := hk.mono (details_sub (l := [_]) hedit)
    refine ⟨p, _, _, ?_, hrep', hb', (bare_edit ..).trans hres.bare,
      hkeep.trans (hmono.mono hsub), .inr ⟨by omega, zd, d, hedit.trans (hperm.cons _), ?_⟩⟩
    · have hp0 : p ≠ 0 := by omega
      simp only [malloc, if_neg h0, heq, Option.bind_eq_bind, Option.bind_some, if_neg hd0]
      rw [hyes, Option.bind_some, if_neg hp0]
      rfl
    · exact (hmono d hdm).trans (store_same ..)

-- ---------------------------------------------------------------------------
-- _free
-- ---------------------------------------------------------------------------

theorem findAllocIn_spec (h : Rep m gs) (hb : Books gs pend tmp) (data : Nat) (zs : List Zone) :
    (findAllocIn m data zs = some 0 ∧ ∀ z ∈ zs, ∀ n ∈ zoneInfos z gs, n.data ≠ data) ∨
    ∃ z ∈ zs, ∃ A x B, zoneInfos z gs = A ++ x :: B ∧ (∀ n ∈ A, n.data ≠ data) ∧ x.data = data ∧
      findAllocIn m data zs = some x.addr := by
  induction zs with
  | nil => exact .inl ⟨rfl, by simp⟩
  | cons z zs ih =>
    have key : ∀ n ∈ zoneInfos z gs, decide (m (n.addr + 8) = data) = decide (n.data = data) :=
      fun n hn => by rw [((h z).infos n hn).data]
    obtain ⟨pprev, hfind, ⟨hend, hA⟩ | ⟨A, x, B, hAB, hA, hx, hnext, hx0⟩⟩ :=
      h.find hb z (fun info => m (info + 8) = data)
    · replace hA : ∀ n ∈ zoneInfos z gs, n.data ≠ data := fun n hn =>
        of_decide_eq_false ((key n hn).symm.trans (hA n hn))
      have hstep : findAllocIn m data (z :: zs) = findAllocIn m data zs := by
        simp [findAllocIn, hfind, hend]
      rw [hstep]
      rcases ih with ⟨h1, h2⟩ | ⟨z', hz', h1⟩
      · exact .inl ⟨h1, List.forall_mem_cons.mpr ⟨hA, h2⟩⟩
      · exact .inr ⟨z', by simp [hz'], h1⟩
    · refine .inr ⟨z, by simp, A, x, B, hAB, fun n hn => ?_, ?_, ?_⟩
      · exact of_decide_eq_false ((key n (by simp [hAB, hn])).symm.trans (hA n hn))
      · exact of_decide_eq_true ((key x (by simp [hAB])).symm.trans hx)
      · simp [findAllocIn, hfind, hnext, hx0]

theorem Books.block_eq (hb : Books gs pend tmp) {p q : Zone × Chunk} (hp : p ∈ blocks gs)
    (hq : q ∈ blocks gs) (hlo : q.2.data ≤ x) (hhi : x < q.2.dataend) (hlo' : p.2.data ≤ x)
    (hhi' : x < p.2.dataend) : p = q := by
  have : Std.Symm BlocksOff := ⟨fun _ _ h => h.symm⟩
  by_contra hne
  have := hb.blocks_off.forall hp hq hne
  simp only [BlocksOff] at this
  omega

theorem Books.user_record (hb : Books gs [] []) {p : Zone × Chunk} (hp : p ∈ blocks gs)
    (hk : p.2.kind = .user size align) :
    ∃ z d, (z, detailChunk d) ∈ blocks gs ∧ p.2.addr = datainfo d := by
  have hown : p.2.addr ∈ owners gs := by
    refine List.mem_append_right _ (List.mem_filterMap.mpr ⟨p, hp, ?_⟩)
    obtain ⟨z, c⟩ := p
    simp only at hk
    simp [asOwner, hk]
  have hbal := hb.balance
  rw [List.append_nil, List.append_nil] at hbal
  obtain ⟨d, hd, heq⟩ := List.mem_map.mp (hbal.mem_iff.mp hown)
  obtain ⟨⟨z, c⟩, hq, hkq, rfl⟩ := mem_details.mp hd
  have hok := hb.block_ok hq
  obtain ⟨addr, data, dataend, kind⟩ := c
  simp only at hkq
  subst hkq
  obtain ⟨h1, h2⟩ := hok
  simp only at h1 h2
  subst h1 h2
  exact ⟨z, _, hq, heq.symm⟩

theorem mem_preInfos {c : Chunk} (h : c ∈ cs) (top : Nat) :
    ∃ n ∈ preInfos top cs, n.data = c.data := by
  induction cs generalizing top with
  | nil => simp at h
  | cons d cs ih =>
    rcases List.mem_cons.mp h with rfl | h
    · exact ⟨_, List.mem_cons_self, rfl⟩
    · obtain ⟨n, hn, hd⟩ := ih h d.data
      exact ⟨n, List.mem_cons_of_mem _ hn, hd⟩

/-- The record that `findAlloc` returns is one that its callers turn down, or
that of the allocation at the pointer. -/
theorem findAlloc_spec (h : Rep m gs) (hb : Books gs [] []) (data : Nat) :
    ∃ info, findAlloc m data = some info ∧
      ((info = 0 ∨ data = info ∨ data = m (info + 12)) ∧
          (∀ p ∈ blocks gs, ∀ size align, p.2.kind = .user size align → p.2.data = data →
            ∃ r ∈ gs, r.start = r.fin ∧ r.start = data) ∨
        ¬ (info = 0 ∨ data = info ∨ data = m (info + 12)) ∧
          ∃ p ∈ blocks gs, ∃ size align, p.2.kind = .user size align ∧ p.2.data = data ∧
            p.2.addr = info) := by
  rcases findAllocIn_spec h hb data zones with ⟨hnone, hall⟩ | ⟨z, -, A, x, B, hAB, hA, hx, hfind⟩
  · refine ⟨0, hnone, .inl ⟨.inl rfl, fun p hp size align hk hd => absurd hd ?_⟩⟩
    obtain ⟨gs₁, r, pre, post, gs₂, rfl, hz⟩ := blocks_split hp
    have hin : (⟨p.2.addr, p.2.data, p.2.dataend, topAfter Chunk.data r.fin pre⟩ : AllocInfo) ∈
        zoneInfos r.zone (gs₁ ++ r.put (pre ++ p.2 :: post) :: gs₂) := by
      rw [zoneInfos_insert]
      simp
    exact hall r.zone (by cases r.zone <;> simp [zones]) _ hin
  refine ⟨x.addr, hfind, ?_⟩
  have hl := h z
  rw [hAB] at hl
  have hx0 : x.addr ≠ 0 := hl.chain.ne_zero (by simp)
  have hat := hl.infos x (by simp)
  obtain ⟨gs₁, r, gs₂, pre, post, rfl, hz, hcs, hAeq, hxeq, -⟩ := zoneInfos_split hAB
  cases post with
  | nil =>
    -- the base record of a region
    have hstart : r.start = data := by rw [← hx, hxeq]; rfl
    have hend : data = m (x.addr + 12) := by
      rw [hat.dataend, ← hx, hxeq]
      rfl
    refine .inl ⟨.inr (.inr hend), fun p hp size align hk hd => ?_⟩
    obtain ⟨s, hs, -, hc⟩ := mem_blocks.mp hp
    have hbounds := (hb.ok s hs).carved.bounds hc
    have hr0 := (hb.ok r (by simp)).carved.le
    by_cases hrs : s = r
    · -- a block of the same region comes before the base in the list
      subst hrs
      rw [hcs, List.append_nil] at hc
      obtain ⟨n, hn, hnd⟩ := mem_preInfos hc s.fin
      exact absurd (hnd.trans hd) (hA n (by rw [hAeq]; simp [hn]))
    · have : Std.Symm Region.Off := ⟨fun _ _ h => h.symm⟩
      have := hb.off.forall hs (by simp) hrs
      simp only [Region.Off] at this
      exact ⟨r, by simp, by omega, hstart⟩
  | cons c post =>
    have hxa : x.addr = c.addr := by rw [hxeq]; rfl
    have hxd : c.data = data := by rw [← hx, hxeq]; rfl
    have hend : m (x.addr + 12) = c.dataend := by
      rw [hat.dataend, hxeq]
      rfl
    have hcm : (r.zone, c) ∈ blocks (gs₁ ++ r :: gs₂) :=
      mem_blocks.mpr ⟨r, by simp, rfl, by simp [hcs]⟩
    have hok := hb.block_ok hcm
    obtain ⟨-, -, -, -, hlt, -⟩ := hb.block_bounds hcm
    simp only at hlt
    cases hk : c.kind with
    | detail =>
      simp only [Chunk.Ok, hk] at hok
      refine .inl ⟨.inr (.inl (by rw [hxa, hok.1, hxd])), fun p hp size align hkp hd => ?_⟩
      obtain ⟨-, -, -, -, hltp, -⟩ := hb.block_bounds hp
      have := hb.block_eq hp hcm (x := data) (by simp only; omega) (by simp only; omega) (by omega)
        (by omega)
      rw [this] at hkp
      simp [hk] at hkp
    | user size align =>
      refine .inr ⟨?_, (r.zone, c), hcm, size, align, hk, hxd, hxa.symm⟩
      rintro (h0 | hself | hempty)
      · exact hx0 h0
      · -- an allocation's record is in a detail, which no other block overlaps
        obtain ⟨z', d, hdm, had⟩ := hb.user_record hcm hk
        simp only at had
        have := hb.block_eq hcm hdm (x := data)
          (by simp only [detailChunk, datainfo] at had ⊢; omega)
          (by simp only [detailChunk, datainfo, detailSize, infoSize] at had ⊢; omega)
          (by simp only; omega) (by simp only; omega)
        rw [(Prod.mk.inj this).2] at hk
        simp [detailChunk] at hk
      · omega

theorem free_spec (h : Rep m gs) (hb : Books gs [] []) (data : Nat) :
    free m data = some (-1, m) ∧
      (∀ p ∈ blocks gs, ∀ size align, p.2.kind = .user size align → p.2.data = data →
        ∃ r ∈ gs, r.start = r.fin ∧ r.start = data) ∨
    ∃ z c size align z' d gs' m', free m data = some (0, m') ∧ c.kind = .user size align ∧
      c.data = data ∧ c.addr = datainfo d ∧
      (blocks gs).Perm ((z, c) :: (z', detailChunk d) :: blocks gs') ∧ Rep m' gs' ∧
      Books gs' [] [] ∧ gs'.map Region.bare = gs.map Region.bare ∧ KeepsHandles gs m m' := by
  obtain ⟨info, hfind, ⟨hno, hall⟩ | ⟨hyes, ⟨z, c⟩, hcm, size, align, hk, hd, rfl⟩⟩ :=
    findAlloc_spec h hb data
  · exact .inl ⟨by simp [free, hfind, hno], hall⟩
  right
  obtain ⟨z', d, hdm, had⟩ := hb.user_record hcm hk
  obtain ⟨gs₁, r, pre, post, gs₂, rfl, rfl⟩ := blocks_split hcm
  simp only at hk hd had hyes hfind h hb hdm
  obtain ⟨hrep, hkeep⟩ := Rep.free h hb
  have hedit := blocks_edit gs₁ gs₂ r pre post c
  have hdm' : (z', detailChunk d) ∈ blocks (gs₁ ++ r.put (pre ++ post) :: gs₂) := by
    rcases List.mem_cons.mp (hedit.mem_iff.mp hdm) with heq | hdm
    · rw [← (Prod.mk.inj heq).2] at hk
      simp [detailChunk] at hk
    · exact hdm
  have hb' := hb.delete_user hk
  rw [had] at hb'
  obtain ⟨gs', hrep', hb'', hbare, hblocks, hkeep'⟩ := hrep.release hb' hdm'
  refine ⟨r.zone, c, size, align, z', d, gs', _, ?_, hk, hd, had, hedit.trans (hblocks.cons _),
    hrep', hb'', hbare.trans (bare_edit ..), ?_⟩
  · have hsub : c.addr - 20 = d := by simp [had, datainfo, infoSize]
    simp only [free, hfind, Option.bind_eq_bind, Option.bind_some, if_neg hyes, hsub]
    rfl
  · have hdet := hedit.filterMap asDetail
    simp only [List.filterMap_cons, asDetail, hk] at hdet
    exact hkeep.trans (hkeep'.mono fun d' hd' => hdet.mem_iff.mp hd')

end Alloc

end ItxLlama.Seabios
