import ItxLlama.Seabios.MallocAdd

/-!
# Every run of the allocator is safe

Runs add regions, allocate, free any pointer, and let clients write to their
blocks. As long as no request wraps, the memory holds balanced zones whose
allocations are the live blocks.
-/

namespace ItxLlama.Seabios

open Lib.Word Lib.Hlist Lib.Carve

/-- `regions` and `live` are kept by the callers. -/
structure AllocState where
  mem : Mem
  regions : List (Zone × Nat × Nat)
  live : List Block

/-- A call, or a client's write to its memory. -/
inductive AllocOp where
  | add (zone : Zone) (start end_ : Nat)
  | malloc (zone : Zone) (size align : Nat)
  | free (data : Nat)
  | write (mem : Mem)

def AllocOp.run (s : AllocState) : AllocOp → Option AllocState
  | .add zone start end_ => do
    let (added, m) ← addSpace s.mem zone start end_
    return { s with
      mem := m
      regions := if added then (zone, start, end_) :: s.regions else s.regions }
  | .malloc zone size align => do
    let (data, m) ← Seabios.malloc s.mem zone size align
    return { s with
      mem := m
      live := if data = 0 then s.live else ⟨zone, data, size, align⟩ :: s.live }
  | .free data => do
    let (ret, m) ← Seabios.free s.mem data
    return { s with
      mem := m
      live := if ret = 0 then s.live.filter fun b => ¬ b.ptr = data else s.live }
  | .write m => some { s with mem := m }

/-- What the callers keep to: regions of real memory that do not overlap,
word sizes, powers of two as alignments, writes to live blocks only. -/
def AllocOp.Ok (s : AllocState) : AllocOp → Prop
  | .add _ start end_ =>
    0 < start ∧ start ≤ end_ ∧ end_ < 2 ^ 32 ∧ ∀ r ∈ s.regions, r.2.2 ≤ start ∨ end_ ≤ r.2.1
  | .malloc _ size align => size < 2 ^ 32 ∧ ∃ k < 32, align = 2 ^ k
  | .free _ => True
  | .write m => ∀ a, (∀ b ∈ s.live, a + 4 ≤ b.ptr ∨ b.ptr + b.size ≤ a) → m a = s.mem a

/-- A request for more bytes than lie below the segment that accepts it. -/
def AllocOp.Wraps (s : AllocState) : AllocOp → Prop
  | .malloc zone size align => Seabios.Wraps s.mem zone size align
  | _ => False

/-- The runs from `s₀` whose steps all satisfy `P`. -/
inductive AllocRun (P : AllocState → AllocOp → Prop) (s₀ : AllocState) : AllocState → Prop
  | refl : AllocRun P s₀ s₀
  | step (h : AllocRun P s₀ s) (hp : P s op) (hrun : op.run s = some s') : AllocRun P s₀ s'

/-- The states of runs from memory in which the zones are empty. -/
def AllocReach (P : AllocState → AllocOp → Prop) (s : AllocState) : Prop :=
  ∃ m : Mem, (∀ z : Zone, m z.head = 0) ∧ AllocRun P ⟨m, [], []⟩ s

theorem AllocRun.trans (h : AllocRun P s₀ s₁) (h' : AllocRun P s₁ s₂) : AllocRun P s₀ s₂ := by
  induction h' with
  | refl => exact h
  | step _ hp hrun ih => exact ih.step hp hrun

/-- Runs of given calls, each of which passes the test `t`. -/
def runOps (t : AllocState → AllocOp → Bool) (s : AllocState) : List AllocOp → Option AllocState
  | [] => some s
  | op :: ops => if t s op then (op.run s).bind fun s' => runOps t s' ops else none

theorem AllocRun.of_runOps (ht : ∀ s op, t s op = true → P s op)
    (h : runOps t s ops = some s') : AllocRun P s s' := by
  induction ops generalizing s with
  | nil =>
    cases h
    exact .refl
  | cons op ops ih =>
    simp only [runOps] at h
    split at h
    · rename_i hop
      obtain ⟨s₁, hrun, h⟩ := Option.bind_eq_some_iff.mp h
      exact (AllocRun.refl.step (ht s op hop) hrun).trans (ih h)
    · exact absurd h (by simp)

/-- `Ok`, for calls. -/
def AllocOp.okTest (s : AllocState) : AllocOp → Bool
  | .add _ start end_ =>
    0 < start && start ≤ end_ && end_ < 2 ^ 32 &&
      s.regions.all fun r => r.2.2 ≤ start || end_ ≤ r.2.1
  | .malloc _ size align => size < 2 ^ 32 && (List.range 32).any fun k => align = 2 ^ k
  | .free _ => true
  | .write _ => false

theorem okTest_ok {op : AllocOp} (h : op.okTest s = true) : op.Ok s := by
  cases op with
  | add z a e =>
    simp only [AllocOp.okTest, Bool.and_eq_true, decide_eq_true_eq, List.all_eq_true,
      Bool.or_eq_true] at h
    exact ⟨h.1.1.1, h.1.1.2, h.1.2, h.2⟩
  | malloc z size align =>
    simp only [AllocOp.okTest, Bool.and_eq_true, decide_eq_true_eq, List.any_eq_true,
      List.mem_range] at h
    exact h
  | free data => trivial
  | write m => simp [AllocOp.okTest] at h

-- ---------------------------------------------------------------------------
-- The property
-- ---------------------------------------------------------------------------

def zoneRecords (m : Mem) : List Nat := zones.flatMap fun z => listRecords m walkFuel z.head

/-- A record whose `data` is its own address is an `allocdetail_s`. -/
def recordSize (m : Mem) (info : Nat) : Nat := if m (info + 8) = info then detailSize else infoSize

structure AllocSafe (s : AllocState) : Prop where
  disjoint : s.live.Pairwise fun b c => b.ptr + b.size ≤ c.ptr ∨ c.ptr + c.size ≤ b.ptr
  inside : ∀ b ∈ s.live, ∃ r ∈ s.regions,
    r.1 = b.zone ∧ r.2.1 ≤ b.ptr ∧ b.ptr + b.size ≤ r.2.2
  aligned : ∀ b ∈ s.live, b.align ∣ b.ptr
  offRecords : ∀ b ∈ s.live, ∀ a ∈ zoneRecords s.mem,
    a + recordSize s.mem a ≤ b.ptr ∨ b.ptr + b.size ≤ a
  freeOther : ∀ p, (∀ b ∈ s.live, b.ptr ≠ p) → Seabios.free s.mem p = some (-1, s.mem)

-- ---------------------------------------------------------------------------
-- The invariant
-- ---------------------------------------------------------------------------

/-- The memory holds the regions, with the live blocks as their allocations. -/
structure Holds (s : AllocState) (gs : List Region) : Prop where
  rep : Rep s.mem gs
  books : Books gs [] []
  regions : (gs.map Region.span).Perm s.regions
  live : (users gs).Perm s.live

theorem holds_start (m : Mem) (h : ∀ z : Zone, m z.head = 0) : Holds ⟨m, [], []⟩ [] :=
  ⟨fun z => ⟨h z, by simp⟩, ⟨by simp, .nil, .nil, .inl rfl⟩, .nil, .nil⟩

/-- The allocation at `p` has its record in the detail `d`. -/
def Owns (gs : List Region) (d p : Nat) : Prop :=
  ∃ q ∈ blocks gs, (∃ size align, q.2.kind = .user size align) ∧ q.2.addr = datainfo d ∧
    q.2.data = p

/-- Blocks were added, and the new details have no handle yet. -/
structure Grows (gs : List Region) (m : Mem) (gs' : List Region) (m' : Mem) : Prop where
  blocks : ∀ q ∈ blocks gs, q ∈ blocks gs'
  keeps : KeepsHandles gs m m'
  fresh : ∀ d ∈ details gs', d ∈ details gs ∨ m' (d + 40) = mallocDefaultHandle

theorem Grows.of_perm {gs gs' : List Region} (hp : (Seabios.blocks gs').Perm (Seabios.blocks gs))
    (hk : KeepsHandles gs m m') : Grows gs m gs' m' :=
  ⟨fun _ hq => hp.mem_iff.mpr hq, hk, fun _ hd => .inl ((hp.filterMap asDetail).mem_iff.mp hd)⟩

theorem Grows.of_detail {gs gs' : List Region}
    (hp : (Seabios.blocks gs').Perm ((z, detailChunk d) :: Seabios.blocks gs))
    (hk : KeepsHandles gs m m') (hd : m' (d + 40) = mallocDefaultHandle) : Grows gs m gs' m' := by
  refine ⟨fun q hq => hp.mem_iff.mpr (List.mem_cons_of_mem _ hq), hk, fun d' hd' => ?_⟩
  rcases List.mem_cons.mp ((hp.filterMap asDetail).mem_iff.mp hd') with rfl | hd'
  · exact .inr hd
  · exact .inl hd'

theorem Grows.of_user {gs gs' : List Region} (hk : KeepsHandles gs m m')
    (hp : (Seabios.blocks gs').Perm ((z, ⟨datainfo d, p, p + size, .user size align⟩) ::
      (z', detailChunk d) :: Seabios.blocks gs))
    (hd : m' (d + 40) = mallocDefaultHandle) : Grows gs m gs' m' := by
  refine ⟨fun q hq => hp.mem_iff.mpr (by simp [hq]), hk, fun d' hd' => ?_⟩
  rcases List.mem_cons.mp ((hp.filterMap asDetail).mem_iff.mp hd') with rfl | hd'
  · exact .inr hd
  · exact .inl hd'

section Step

variable {s s' : AllocState} {gs : List Region} {op : AllocOp}

theorem users_of_blocks {gs gs' : List Region} {l : List (Zone × Chunk)}
    (h : (blocks gs').Perm (l ++ blocks gs)) :
    (users gs').Perm (l.filterMap asUser ++ users gs) := by
  have := h.filterMap asUser
  rwa [List.filterMap_append] at this

theorem Holds.off (h : Holds s gs) (hok : (AllocOp.add z a e).Ok s) :
    ∀ r ∈ gs, r.fin ≤ a ∨ e ≤ r.start := fun r hr =>
  hok.2.2.2 r.span (h.regions.mem_iff.mp (List.mem_map.mpr ⟨r, hr, rfl⟩))

theorem Holds.add (h : Holds s gs) (hok : (AllocOp.add z a e).Ok s) :
    ∃ added m' gs', addSpace s.mem z a e = some (added, m') ∧
      Holds ⟨m', if added then (z, a, e) :: s.regions else s.regions, s.live⟩ gs' ∧
      Grows gs s.mem gs' m' := by
  obtain ⟨added, m', gs', heq, hrep, hbooks, hk, hcase⟩ :=
    addSpace_spec (z := z) h.rep h.books hok.1 hok.2.1 hok.2.2.1 (h.off hok)
  rcases hcase with ⟨rfl, rfl⟩ | ⟨rfl, ⟨b, hp⟩, z', d, hd, hdef⟩
  · exact ⟨_, m', gs', heq, ⟨hrep, hbooks, h.regions, h.live⟩, .of_perm (.refl _) hk⟩
  · have hspan := hp.map Region.span
    rw [List.map_cons, map_bare_span, map_bare_span] at hspan
    refine ⟨_, m', gs', heq, ⟨hrep, hbooks, hspan.trans (h.regions.cons _), ?_⟩,
      .of_detail hd hk hdef⟩
    exact (users_of_blocks (l := [_]) hd).trans h.live

theorem Holds.malloc (h : Holds s gs) (hw : ¬ Seabios.Wraps s.mem z size align) :
    ∃ p m' gs', Seabios.malloc s.mem z size align = some (p, m') ∧
      Holds ⟨m', s.regions, if p = 0 then s.live else ⟨z, p, size, align⟩ :: s.live⟩ gs' ∧
      gs'.map Region.bare = gs.map Region.bare ∧ Grows gs s.mem gs' m' ∧
      (p ≠ 0 → ∃ d, Owns gs' d p ∧ m' (d + 40) = mallocDefaultHandle) := by
  obtain ⟨p, m', gs', heq, hrep, hbooks, hbare, hk, hcase⟩ := malloc_spec h.rep h.books hw
  have hregions : (gs'.map Region.span).Perm s.regions := by
    rw [span_of_bare hbare]
    exact h.regions
  rcases hcase with ⟨rfl, hp⟩ | ⟨hpos, z', d, hp, hd⟩
  · refine ⟨0, m', gs', heq, ⟨hrep, hbooks, hregions, ?_⟩, hbare, .of_perm hp hk, absurd rfl⟩
    exact (users_of_blocks (l := []) hp).trans h.live
  · refine ⟨p, m', gs', heq, ⟨hrep, hbooks, hregions, ?_⟩, hbare, .of_user hk hp hd, fun _ =>
      ⟨d, ⟨_, hp.mem_iff.mpr List.mem_cons_self, ⟨size, align, rfl⟩, rfl, rfl⟩, hd⟩⟩
    simp only [if_neg (Nat.ne_of_gt hpos)]
    exact (users_of_blocks (l := [_, _]) hp).trans (h.live.cons _)

theorem Books.user_block (hb : Books gs [] []) (hu : b ∈ users gs) : ∃ c, (b.zone, c) ∈ blocks gs ∧
    c.kind = .user b.size b.align ∧ c.data = b.ptr ∧ c.dataend = b.ptr + b.size ∧ b.align ∣ b.ptr ∧
    b.ptr < c.dataend := by
  obtain ⟨⟨z, c⟩, hp, hk, hd, hz⟩ := mem_users.mp hu
  simp only at hk hd hz
  have hok := hb.block_ok hp
  obtain ⟨-, -, -, -, hlt, -⟩ := hb.block_bounds hp
  simp only [Chunk.Ok, hk] at hok hlt
  refine ⟨c, hz ▸ hp, hk, hd, ?_, hd ▸ hok.2, by omega⟩
  rw [← hd]
  exact hok.1

theorem Books.users_disjoint (hb : Books gs [] []) :
    (users gs).Pairwise fun b c => b.ptr + b.size ≤ c.ptr ∨ c.ptr + c.size ≤ b.ptr := by
  refine (hb.blocks_off.imp_of_mem fun {p q} hp hq hpq => ?_).filterMap asUser
    (R := fun p q => BlocksOff p q ∧ p.2.Ok ∧ q.2.Ok) ?_
  · exact ⟨hpq, hb.block_ok hp, hb.block_ok hq⟩
  · rintro ⟨z, c⟩ ⟨z', d⟩ ⟨hpq, hp, hq⟩ b hb c' hc'
    cases hc : c.kind with
    | detail => simp [asUser, hc] at hb
    | user size align =>
      cases hd : d.kind with
      | detail => simp [asUser, hd] at hc'
      | user size' align' =>
        simp only [asUser, hc, hd, Option.some.injEq] at hb hc'
        simp only [Chunk.Ok, hc, hd] at hp hq
        subst hb hc'
        simp only [BlocksOff] at hpq
        simp only
        omega

theorem Holds.free (h : Holds s gs) (data : Nat) :
    (Seabios.free s.mem data = some (-1, s.mem) ∧
      ∀ b ∈ s.live, b.ptr = data → ∃ r ∈ s.regions, r.2.1 = r.2.2) ∨
    ∃ m' gs', Seabios.free s.mem data = some (0, m') ∧ (∃ b ∈ s.live, b.ptr = data) ∧
      Holds ⟨m', s.regions, s.live.filter fun b => ¬ b.ptr = data⟩ gs' ∧
      gs'.map Region.bare = gs.map Region.bare ∧ KeepsHandles gs s.mem m' ∧
      ∃ d z z' c, Owns gs d data ∧ c.data = data ∧ c.addr = datainfo d ∧
        (blocks gs).Perm ((z, c) :: (z', detailChunk d) :: blocks gs') := by
  rcases free_spec h.rep h.books data with ⟨heq, hall⟩ |
    ⟨z, c, size, align, z', d, gs', m', heq, hk, hd, had, hp, hrep, hbooks, hbare, hkeep⟩
  · refine .inl ⟨heq, fun b hb hptr => ?_⟩
    obtain ⟨p, hpm, hk, hpd, -⟩ := mem_users.mp (h.live.mem_iff.mpr hb)
    obtain ⟨r, hr, hrr, -⟩ := hall p hpm b.size b.align hk (hpd.trans hptr)
    exact ⟨r.span, h.regions.mem_iff.mp (List.mem_map.mpr ⟨r, hr, rfl⟩), hrr⟩
  · have hcm : (z, c) ∈ blocks gs := hp.mem_iff.mpr (by simp)
    have hu := users_of_blocks (l := [_, _]) hp
    simp only [List.filterMap_cons, asUser, hk, detailChunk, List.filterMap_nil] at hu
    have hul : (⟨z, c.data, size, align⟩ : Block) ∈ users gs := hu.mem_iff.mpr (by simp)
    refine .inr ⟨m', gs', heq, ⟨_, h.live.mem_iff.mp hul, hd⟩, ⟨hrep, hbooks, ?_, ?_⟩, hbare, hkeep,
      d, z, z', c, ⟨(z, c), hcm, ⟨size, align, hk⟩, had, hd⟩, hd, had, hp⟩
    · rw [span_of_bare hbare]
      exact h.regions
    · -- the other allocations start elsewhere
      have hpw := (hu.pairwise_iff fun h => h.symm).mp h.books.users_disjoint
      obtain ⟨hne, -⟩ := List.pairwise_cons.mp hpw
      have hkeep : ∀ b ∈ users gs', b.ptr ≠ data := by
        intro b hb
        have := hne b hb
        obtain ⟨_, -, -, -, h1, -, h2⟩ := hbooks.user_block hb
        have hc : c.data < c.data + size := by
          obtain ⟨_, -, -, -, h3, -, h4⟩ := h.books.user_block hul
          simp only at h3 h4
          omega
        simp only at this
        omega
      have hf := (hu.symm.trans h.live).filter fun b => b.ptr ≠ data
      simp only [List.cons_append, List.nil_append, List.filter_cons, hd, ne_eq, not_true_eq_false,
        decide_false, Bool.false_eq_true, if_false] at hf
      refine .trans ?_ hf
      rw [List.filter_eq_self.mpr fun b hb => by simpa using hkeep b hb]

/-- A live block overlaps no detail, so no record either. -/
theorem Books.user_off_detail (hb : Books gs [] []) (hu : b ∈ users gs) (hd : d ∈ details gs) :
    d + detailSize ≤ b.ptr ∨ b.ptr + b.size ≤ d := by
  have : Std.Symm BlocksOff := ⟨fun _ _ h => h.symm⟩
  obtain ⟨c, hc, hk, h1, h2, -, -⟩ := hb.user_block hu
  obtain ⟨p, hp, hkp, rfl⟩ := mem_details.mp hd
  have hne : p ≠ (b.zone, c) := fun h => by
    rw [h, hk] at hkp
    exact absurd hkp (by simp)
  have hok := hb.block_ok hp
  simp only [Chunk.Ok, hkp] at hok
  have := hb.blocks_off.forall hp hc hne
  simp only [BlocksOff] at this
  omega

theorem Holds.write (h : Holds s gs) (hok : (AllocOp.write m).Ok s) :
    Holds { s with mem := m } gs := by
  refine ⟨h.rep.frame (fun z => hok _ fun b hb => .inr ?_) fun z a ha i hi => hok _ fun b hb => ?_,
    h.books, h.regions, h.live⟩
  · obtain ⟨c, hc, -, -, h2, -, -⟩ := h.books.user_block (h.live.mem_iff.mpr hb)
    obtain ⟨r, hr, -, -, -, hfin⟩ := h.books.block_bounds hc
    have := (h.books.ok r hr).word
    have := head_ge z
    simp only [headBase] at this
    simp only at hfin
    omega
  · have hu := h.live.mem_iff.mpr hb
    rcases h.books.mem_record ha with ht | ⟨d, hd, rfl | rfl⟩
    · simp at ht
    · have := h.books.user_off_detail hu hd
      simp only [detailSize, infoSize] at *
      omega
    · have := h.books.user_off_detail hu hd
      simp only [detailSize, infoSize, datainfo] at *
      omega

theorem Holds.write_keeps (h : Holds s gs) (hok : (AllocOp.write m).Ok s) :
    KeepsHandles gs s.mem m := by
  intro d hd
  refine hok _ fun b hb => ?_
  have := h.books.user_off_detail (h.live.mem_iff.mpr hb) hd
  simp only [detailSize] at this
  omega

theorem Holds.step (h : Holds s gs) (hok : op.Ok s) (hw : ¬ op.Wraps s) :
    ∃ s' gs', op.run s = some s' ∧ Holds s' gs' := by
  cases op with
  | add z a e =>
    obtain ⟨added, m', gs', heq, h', -⟩ := h.add hok
    exact ⟨_, gs', by simp only [AllocOp.run, heq]; rfl, h'⟩
  | malloc z size align =>
    obtain ⟨p, m', gs', heq, h', -⟩ := h.malloc hw
    exact ⟨_, gs', by simp only [AllocOp.run, heq]; rfl, h'⟩
  | free data =>
    rcases h.free data with ⟨heq, -⟩ | ⟨m', gs', heq, -, h', -⟩
    · exact ⟨s, gs, by simp [AllocOp.run, heq], h⟩
    · exact ⟨_, gs', by simp only [AllocOp.run, heq]; rfl, h'⟩
  | write m => exact ⟨_, gs, rfl, h.write hok⟩

theorem holds_of_reach (h : AllocReach (fun s op => op.Ok s ∧ ¬ op.Wraps s) s) :
    ∃ gs, Holds s gs := by
  obtain ⟨m, hm, h⟩ := h
  induction h with
  | refl => exact ⟨[], holds_start m hm⟩
  | step _ hp hrun ih =>
    obtain ⟨gs, hgs⟩ := ih
    obtain ⟨s', gs', heq, h'⟩ := hgs.step hp.1 hp.2
    rw [hrun] at heq
    exact ⟨gs', Option.some.inj heq ▸ h'⟩

end Step

-- ---------------------------------------------------------------------------
-- Safety
-- ---------------------------------------------------------------------------

theorem listRecords_zone (hr : Rep m gs) (hb : Books gs [] []) (z : Zone) :
    listRecords m walkFuel z.head = addrs (zoneInfos z gs) :=
  listRecords_chain (hr z).chain (by simpa [addrs] using hb.length_lt z)

theorem mem_zoneRecords (hr : Rep m gs) (hb : Books gs [] []) (ha : a ∈ zoneRecords m) :
    ∃ d ∈ details gs, a = d ∨ a = datainfo d := by
  simp only [zoneRecords, List.mem_flatMap] at ha
  obtain ⟨z, -, ha⟩ := ha
  rw [listRecords_zone hr hb] at ha
  rcases hb.mem_record (mem_records_zone.mpr ha) with h | h
  · simp at h
  · exact h

theorem recordSize_le (m : Mem) (a : Nat) : recordSize m a ≤ detailSize := by
  unfold recordSize
  split
  · exact Nat.le_refl _
  · decide

theorem recordSize_datainfo (hr : Rep m gs) (hb : Books gs [] []) (ha : datainfo d ∈ zoneRecords m)
    (hd : d ∈ details gs) : recordSize m (datainfo d) = infoSize := by
  simp only [zoneRecords, List.mem_flatMap] at ha
  obtain ⟨z, -, ha⟩ := ha
  rw [listRecords_zone hr hb] at ha
  obtain ⟨n, hn, hna⟩ := mem_addrs.mp ha
  obtain ⟨p, hp, hkp, rfl⟩ := mem_details.mp hd
  have hokp := hb.block_ok hp
  simp only [Chunk.Ok, hkp] at hokp
  obtain ⟨r', hr', -, hlo', hlt', hhi'⟩ := hb.block_bounds hp
  refine if_neg fun heq => ?_
  rw [← hna, ((hr z).infos n hn).data, hna] at heq
  obtain ⟨A, B, hAB⟩ := List.append_of_mem hn
  obtain ⟨gs₁, r, gs₂, pre, post, rfl, -, hcs, -, hneq, -⟩ := zoneInfos_split hAB
  cases post with
  | nil =>
    -- a region does not start within another's block
    have hstart : r.start = datainfo p.2.data := by rw [← heq, hneq]; rfl
    by_cases hrr : r = r'
    · subst hrr
      simp only [datainfo, infoSize] at hstart
      omega
    · have : Std.Symm Region.Off := ⟨fun _ _ h => h.symm⟩
      have := hb.off.forall (by simp) hr' hrr
      have := (hb.ok r (by simp)).carved.le
      simp only [Region.Off, datainfo, infoSize, detailSize] at *
      omega
  | cons c post =>
    have hcm : (r.zone, c) ∈ blocks (gs₁ ++ r :: gs₂) :=
      mem_blocks.mpr ⟨r, by simp, rfl, by simp [hcs]⟩
    obtain ⟨-, -, -, -, hltc, -⟩ := hb.block_bounds hcm
    have hcd : c.data = datainfo p.2.data := by rw [← heq, hneq]; rfl
    have hca : c.addr = datainfo p.2.data := by rw [← hna, hneq]; rfl
    simp only [datainfo, infoSize, detailSize] at hcd hca hokp
    have := hb.block_eq hp hcm (x := c.data) (Nat.le_refl _) hltc (by omega) (by omega)
    rw [this] at hcd
    simp only at hcd
    omega

theorem Holds.safe {s : AllocState} {gs : List Region} (h : Holds s gs) : AllocSafe s := by
  have hu : ∀ b ∈ s.live, b ∈ users gs := fun b hb => h.live.mem_iff.mpr hb
  refine ⟨?_, fun b hb => ?_, fun b hb => ?_, fun b hb a ha => ?_, fun p hp => ?_⟩
  · exact (h.live.pairwise_iff fun h => h.symm).mp h.books.users_disjoint
  · obtain ⟨c, hc, -, h1, h2, -, -⟩ := h.books.user_block (hu b hb)
    obtain ⟨r, hr, hz, hlo, -, hhi⟩ := h.books.block_bounds hc
    refine ⟨r.span, h.regions.mem_iff.mp (List.mem_map.mpr ⟨r, hr, rfl⟩), hz, ?_, ?_⟩
    · exact h1 ▸ hlo
    · exact h2 ▸ hhi
  · obtain ⟨c, -, -, -, -, hal, -⟩ := h.books.user_block (hu b hb)
    exact hal
  · obtain ⟨d, hd, had⟩ := mem_zoneRecords h.rep h.books ha
    have hoff := h.books.user_off_detail (hu b hb) hd
    rcases had with rfl | rfl
    · have := recordSize_le s.mem a
      omega
    · rw [recordSize_datainfo h.rep h.books ha hd]
      simp only [datainfo, detailSize, infoSize] at *
      omega
  · rcases free_spec h.rep h.books p with ⟨heq, -⟩ |
      ⟨z, c, size, align, z', d, gs', m', -, hk, hd, -, hperm, -⟩
    · exact heq
    · have hcm : (⟨z, c.data, size, align⟩ : Block) ∈ users gs :=
        mem_users.mpr ⟨(z, c), hperm.mem_iff.mpr (by simp), hk, rfl, rfl⟩
      exact absurd hd (hp _ (h.live.mem_iff.mp hcm))

/-- In every run without a request that wraps, no call hangs, and every state
reached is safe. -/
theorem alloc_safe (s : AllocState) (h : AllocReach (fun s op => op.Ok s ∧ ¬ op.Wraps s) s) :
    AllocSafe s ∧ ∀ op : AllocOp, op.Ok s → ¬ op.Wraps s → op.run s ≠ none := by
  obtain ⟨gs, hgs⟩ := holds_of_reach h
  refine ⟨hgs.safe, fun op hok hw hn => ?_⟩
  obtain ⟨s', -, heq, -⟩ := hgs.step hok hw
  simp [hn] at heq

/-- A request that leaves room for its alignment below 4 GiB does not wrap. -/
theorem not_wraps_of_le (ha : 0 < align) (hsum : size + align ≤ 2 ^ 32) :
    ¬ Wraps m zone size align := by
  rintro ⟨detail, m', -, -, pprev, hfind, h0, hlt⟩
  have hfit := hlistFind_sat hfind h0
  simp only [fits, Bool.and_eq_true, decide_eq_true_eq] at hfit
  have := le_of_newAllocend_le ha hsum hfit.2
  omega

def emptyZones : AllocState := ⟨fun _ => 0, [], []⟩

/-- `okTest`, with room for the alignment. -/
def roomTest (s : AllocState) (op : AllocOp) : Bool :=
  op.okTest s && match op with
    | .malloc _ size align => size + align ≤ 2 ^ 32
    | _ => true

theorem roomTest_ok (s : AllocState) (op : AllocOp) (h : roomTest s op = true) :
    op.Ok s ∧ ¬ op.Wraps s := by
  simp only [roomTest, Bool.and_eq_true] at h
  refine ⟨okTest_ok h.1, ?_⟩
  cases op with
  | malloc z size align =>
    obtain ⟨-, k, -, rfl⟩ := okTest_ok h.1
    exact not_wraps_of_le (Nat.two_pow_pos k) (by simpa using h.2)
  | _ => exact id

theorem alloc_safe_tmpHigh : ∃ s : AllocState,
    s.live = [⟨.low, 0x8f80, 64, 64⟩, ⟨.tmpHigh, 0x1ffd80, 512, 128⟩] ∧ AllocSafe s := by
  have hrun : (runOps roomTest emptyZones
      [.add .tmpHigh 0x100000 0x200000, .malloc .tmpHigh 512 128, .add .low 0x8000 0x9000,
        .malloc .low 16 16, .malloc .low 64 64, .free 0x8ff0]).map AllocState.live =
      some [⟨.low, 0x8f80, 64, 64⟩, ⟨.tmpHigh, 0x1ffd80, 512, 128⟩] := by
    decide +kernel
  obtain ⟨s, hs, hlive⟩ := Option.map_eq_some_iff.mp hrun
  exact ⟨s, hlive, (alloc_safe s ⟨_, fun _ => rfl, .of_runOps roomTest_ok hs⟩).1⟩

/-- A request just short of 4 GiB is granted at the end of the region. -/
theorem malloc_wraps_unsafe :
    ¬ ∀ s : AllocState, AllocReach (fun s op => op.Ok s) s → AllocSafe s := by
  have hrun : (runOps (fun s op => op.okTest s) emptyZones
      [.add .tmpHigh 0x100000 0x200000, .malloc .tmpHigh 0xffffffff 16]).map
        (fun s => (s.live, s.regions)) =
      some ([⟨.tmpHigh, 0x200000, 0xffffffff, 16⟩], [(.tmpHigh, 0x100000, 0x200000)]) := by
    decide +kernel
  obtain ⟨s, hs, heq⟩ := Option.map_eq_some_iff.mp hrun
  obtain ⟨hlive, hregions⟩ := Prod.mk.inj heq
  intro hall
  have hsafe := hall s ⟨_, fun _ => rfl, .of_runOps (fun _ _ h => okTest_ok h) hs⟩
  obtain ⟨r, hr, -, -, hle⟩ := hsafe.inside ⟨.tmpHigh, 0x200000, 0xffffffff, 16⟩ (by simp [hlive])
  rw [hregions, List.mem_singleton] at hr
  subst hr
  exact absurd hle (by decide)

end ItxLlama.Seabios
