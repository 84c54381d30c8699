import ItxLlama.Seabios.Pmm

/-!
# Every run of PMM calls

The handles in memory stay those of the live blocks through every call, and
each call does what PMM promises unless its length in bytes is lost in the
shift of `handle_pmm00`.
-/

namespace ItxLlama.Seabios

open Lib.Word Lib.Hlist Lib.Carve

-- ---------------------------------------------------------------------------
-- One step
-- ---------------------------------------------------------------------------

section Step

variable {s s' : PmmState} {gs : List Region} {op : PmmOp}

theorem pmmAlign_room (flags : Nat) (h0 : size ≠ 0) (hlt : size < 2 ^ 31) :
    0 < pmmAlign flags size ∧ size + pmmAlign flags size ≤ 2 ^ 32 := by
  have hffs := two_pow_ffs_le h0 (Nat.lt_trans hlt (by decide))
  have hpos := Nat.two_pow_pos (ffs size)
  unfold pmmAlign mallocMinAlign
  split <;> omega

/-- The request of `handle_pmm00` is the allocator's, in the zones of the flags. -/
theorem pmmMalloc_spec {a : AllocState} (h : Holds a gs) (flags : Nat) (h0 : size ≠ 0)
    (hlt : size < 2 ^ 31) :
    ∃ z p m' gs', pmmMalloc a.mem flags size = some (z, p, m') ∧
      Holds ⟨m', a.regions, if p = 0 then a.live
        else ⟨z, p, size, pmmAlign flags size⟩ :: a.live⟩ gs' ∧
      Grows gs a.mem gs' m' ∧ (p ≠ 0 → ∃ d, Owns gs' d p ∧ m' (d + 40) = mallocDefaultHandle) := by
  obtain ⟨hpos, hroom⟩ := pmmAlign_room flags h0 hlt
  have hone : ∀ (a : AllocState) (gs : List Region) (z : Zone), Holds a gs →
      ∃ p m' gs', malloc a.mem z size (pmmAlign flags size) = some (p, m') ∧
        Holds ⟨m', a.regions, if p = 0 then a.live
          else ⟨z, p, size, pmmAlign flags size⟩ :: a.live⟩ gs' ∧
        Grows gs a.mem gs' m' ∧
        (p ≠ 0 → ∃ d, Owns gs' d p ∧ m' (d + 40) = mallocDefaultHandle) := by
    intro a gs z h
    obtain ⟨p, m', gs', heq, h', -, hg, hown⟩ := h.malloc (not_wraps_of_le hpos hroom)
    exact ⟨p, m', gs', heq, h', hg, hown⟩
  unfold pmmMalloc
  split
  · obtain ⟨p, m', gs', heq, hrest⟩ := hone a gs (lowzone flags) h
    exact ⟨_, p, m', gs', by simp [heq], hrest⟩
  · obtain ⟨p, m', gs', heq, hrest⟩ := hone a gs (highzone flags) h
    exact ⟨_, p, m', gs', by simp [heq], hrest⟩
  · obtain ⟨p, m', gs', heq, h', hg, hown⟩ := hone a gs (lowzone flags) h
    by_cases hp : p = 0
    · subst hp
      obtain ⟨p, m'', gs'', heq', h'', hg', hown'⟩ := hone _ gs' (highzone flags) h'
      exact ⟨_, p, m'', gs'', by simp [heq, heq'], h'', hg.trans hg', hown'⟩
    · exact ⟨_, p, m', gs', by simp [heq, hp], h', hg, hown⟩
  · exact ⟨_, 0, a.mem, gs, rfl, h, .of_perm (.refl _) fun _ _ => rfl, absurd rfl⟩

theorem PmmHolds.start (m : Mem) (h : ∀ z : Zone, m z.head = 0) : PmmHolds ⟨⟨m, [], []⟩, []⟩ [] :=
  ⟨holds_start m h, ⟨by simp, fun d hd => absurd hd (by simp [details, blocks])⟩, by simp⟩

theorem PmmHolds.pmm00 (h : PmmHolds s gs) (length handle flags : Nat) :
    ∃ p s' gs', (PmmOp.pmm00 length handle flags).run s = some (p, s') ∧ PmmHolds s' gs' ∧
      (length = 0 ∨ (u32 (length * 16) = 0 ∨ 2 ^ 31 ≤ u32 (length * 16)) ∧ p = 0 ∨
        u32 (length * 16) ≠ 0 ∧ u32 (length * 16) < 2 ^ 31 ∧
          ∃ z m, pmmMalloc s.mem flags (u32 (length * 16)) = some (z, p, m) ∧
            (p ≠ 0 →
              s'.live = ⟨z, p, u32 (length * 16),
                pmmAlign flags (u32 (length * 16))⟩ :: s.live)) := by
  by_cases hl : length = 0
  · exact ⟨pmmSpace s.mem flags, s, gs, by simp [PmmOp.run, handlePmm00, hl], h, .inl hl⟩
  by_cases hs : u32 (length * 16) = 0 ∨ 2 ^ 31 ≤ u32 (length * 16)
  · refine ⟨0, s, gs, ?_, h, .inr (.inl ⟨hs, rfl⟩)⟩
    simp only [PmmOp.run, handlePmm00, if_neg hl, if_pos hs, Option.bind_eq_bind]
    simp
  obtain ⟨h0, hlt⟩ := not_or.mp hs
  rw [Nat.not_le] at hlt
  obtain ⟨z, p, m', gs', heq, hholds, hg, hown⟩ := pmmMalloc_spec h.alloc flags h0 hlt
  have hnamed := h.named.grow hg h.alloc.books
  by_cases hp : p = 0
  · subst hp
    refine ⟨0, { s with mem := m' }, gs', ?_, ⟨hholds, hnamed, h.proper⟩,
      .inr (.inr ⟨h0, hlt, z, m', heq, absurd rfl⟩)⟩
    simp only [PmmOp.run, handlePmm00, if_neg hl, if_neg hs, heq, Option.bind_eq_bind,
      Option.bind_some]
    simp
  obtain ⟨d, ho, hd⟩ := hown hp
  simp only [if_neg hp] at hholds
  have hne : ∀ r ∈ gs', r.start ≠ r.fin := fun r hr =>
    Nat.ne_of_lt (h.proper r.span (hholds.regions.mem_iff.mp (List.mem_map.mpr ⟨r, hr, rfl⟩)))
  by_cases hh : handle = mallocDefaultHandle
  · refine ⟨p, ⟨⟨m', s.regions, _ :: s.live⟩, s.named⟩, gs', ?_, ⟨hholds, hnamed, h.proper⟩,
      .inr (.inr ⟨h0, hlt, z, m', heq, fun _ => rfl⟩)⟩
    simp only [PmmOp.run, handlePmm00, if_neg hl, if_neg hs, heq, Option.bind_eq_bind,
      Option.bind_some, hh]
    simp [hl, hp]
  · have hset := mallocSethandle_spec hholds.rep hholds.books hne ho handle
    have hrep := hholds.books.store_handle hholds.rep (ho.mem_details hholds.books) handle
    refine ⟨p, ⟨⟨store m' (d + 40) handle, s.regions, _ :: s.live⟩, (handle, p) :: s.named⟩, gs',
      ?_,
      ⟨⟨hrep, hholds.books, hholds.regions, hholds.live⟩, hnamed.set ho hd hh, h.proper⟩,
      .inr (.inr ⟨h0, hlt, z, m', heq, fun _ => rfl⟩)⟩
    simp only [PmmOp.run, handlePmm00, if_neg hl, if_neg hs, heq, Option.bind_eq_bind,
      Option.bind_some]
    simp [hl, hp, hh, hset]

theorem PmmHolds.free (h : PmmHolds s gs) (data : Nat) :
    (Seabios.free s.mem data = some (-1, s.mem) ∧ ∀ b ∈ s.live, b.ptr ≠ data) ∨
    ∃ m' gs', Seabios.free s.mem data = some (0, m') ∧ (∃ b ∈ s.live, b.ptr = data) ∧
      PmmHolds ⟨⟨m', s.regions, s.live.filter fun b => ¬ b.ptr = data⟩, dropName data s.named⟩ gs' ∧
      ∀ b ∈ s.live, b.ptr = data → ∀ q ∈ blocks gs', b.ptr + b.size ≤ q.2.data ∨
        q.2.dataend ≤ b.ptr := by
  rcases h.alloc.free data with ⟨heq, hall⟩ |
    ⟨m', gs', heq, hlive, hholds, -, hk, d, z, z', c, -, hd, had, hp⟩
  · refine .inl ⟨heq, fun b hb hptr => ?_⟩
    obtain ⟨r, hr, hempty⟩ := hall b hb hptr
    exact absurd hempty (Nat.ne_of_lt (h.proper r hr))
  · have hb := h.alloc.books
    refine .inr ⟨m', gs', heq, hlive, ⟨hholds, h.named.drop hb hd had hk hp, h.proper⟩, ?_⟩
    intro b hbl hptr q hq
    obtain ⟨c', hc', -, hd', he', -, -⟩ := hb.user_block (h.alloc.live.mem_iff.mpr hbl)
    cases hb.user_eq hc' (hp.mem_iff.mpr List.mem_cons_self) ((hd'.trans hptr).trans hd.symm)
    have hpw := (hp.pairwise_iff fun h => h.symm).mp hb.blocks_off
    have := (List.pairwise_cons.mp hpw).1 q (List.mem_cons_of_mem _ hq)
    simp only [BlocksOff] at this
    omega

theorem PmmHolds.dropName_eq (h : PmmHolds s gs) (hno : ∀ b ∈ s.live, b.ptr ≠ data) :
    dropName data s.named = s.named := by
  refine List.filter_eq_self.mpr fun n hn => ?_
  obtain ⟨-, d, ⟨⟨z, c⟩, hq, ⟨size, align, hk⟩, -, hp⟩, -⟩ := h.named.held n hn
  have := hno ⟨z, c.data, size, align⟩
    (h.alloc.live.mem_iff.mp (mem_users.mpr ⟨(z, c), hq, hk, rfl, rfl⟩))
  simp only at hp this
  simpa [← hp] using this

theorem PmmHolds.step (h : PmmHolds s gs) (hok : op.Ok s) :
    ∃ ret s' gs', op.run s = some (ret, s') ∧ PmmHolds s' gs' := by
  cases op with
  | bios op =>
    obtain ⟨hok, hw, hproper⟩ := hok
    cases op with
    | add z a e =>
      obtain ⟨added, m', gs', heq, h', hg⟩ := h.alloc.add hok
      refine ⟨0, ⟨⟨m', if added then (z, a, e) :: s.regions else s.regions, s.live⟩, s.named⟩, gs',
        by simp only [PmmOp.run, AllocOp.run, heq]; rfl, h', h.named.grow hg h.alloc.books,
        fun r hr => ?_⟩
      cases added with
      | false => exact h.proper r hr
      | true =>
        rcases List.mem_cons.mp hr with rfl | hr
        · exact hproper z a e rfl
        · exact h.proper r hr
    | malloc z size align =>
      obtain ⟨p, m', gs', heq, h', -, hg, -⟩ := h.alloc.malloc hw
      exact ⟨0, ⟨⟨m', s.regions, _⟩, s.named⟩, gs', by simp only [PmmOp.run, AllocOp.run, heq]; rfl,
        h', h.named.grow hg h.alloc.books, h.proper⟩
    | free data =>
      rcases h.free data with ⟨heq, hno⟩ | ⟨m', gs', heq, -, h', -⟩
      · refine ⟨0, s, gs, ?_, h⟩
        simp only [PmmOp.run, AllocOp.run, heq, h.dropName_eq hno]
        rfl
      · exact ⟨0, _, gs', by simp only [PmmOp.run, AllocOp.run, heq]; rfl, h'⟩
    | write m =>
      refine ⟨0, ⟨⟨m, s.regions, s.live⟩, s.named⟩, gs, rfl, h.alloc.write hok, ?_, h.proper⟩
      exact h.named.grow (.of_perm (.refl _) (h.alloc.write_keeps hok)) h.alloc.books
  | pmm00 length handle flags =>
    obtain ⟨p, s', gs', heq, h', -⟩ := h.pmm00 length handle flags
    exact ⟨p, s', gs', heq, h'⟩
  | pmm01 handle =>
    by_cases hh : handle = mallocDefaultHandle
    · exact ⟨0, s, gs, by simp [PmmOp.run, handlePmm01, hh], h⟩
    · obtain ⟨p, heq, -⟩ := mallocFindhandle_spec h.alloc.rep h.alloc.books h.named hh
      exact ⟨p, s, gs, by simp [PmmOp.run, handlePmm01, hh, heq], h⟩
  | pmm02 buffer =>
    rcases h.free buffer with ⟨heq, -⟩ | ⟨m', gs', heq, -, h', -⟩
    · exact ⟨1, s, gs, by simp [PmmOp.run, handlePmm02, heq], h⟩
    · exact ⟨0, _, gs', by simp only [PmmOp.run, handlePmm02, heq]; rfl, h'⟩

theorem pmmHolds_of_reach (h : PmmReach PmmOp.Ok s) : ∃ gs, PmmHolds s gs := by
  induction h with
  | start m hm => exact ⟨[], .start m hm⟩
  | step _ hok hrun ih =>
    obtain ⟨gs, hgs⟩ := ih
    obtain ⟨ret, s', gs', heq, h'⟩ := hgs.step hok
    rw [hrun] at heq
    exact ⟨gs', (Prod.mk.inj (Option.some.inj heq)).2 ▸ h'⟩

end Step

-- ---------------------------------------------------------------------------
-- What the callers get
-- ---------------------------------------------------------------------------

/-- What PMM promises of a call made in `s`: `ret` is its result. -/
def PmmOp.Kept (s : PmmState) (ret : Nat) (s' : PmmState) : PmmOp → Prop
  | .bios _ => True
  | .pmm00 length _ flags => length ≠ 0 → ret ≠ 0 →
      ∃ b, s'.live = b :: s.live ∧ b.ptr = ret ∧ Granted s.live length flags b
  | .pmm01 handle => s' = s ∧ (ret ≠ 0 ↔ ∃ p, (handle, p) ∈ s.named) ∧
      (ret ≠ 0 → (handle, ret) ∈ s.named ∧ ∃ b ∈ s.live, b.ptr = ret)
  | .pmm02 buffer => (ret = 0 ↔ ∃ b ∈ s.live, b.ptr = buffer) ∧ (ret ≠ 0 → s' = s) ∧
      (∀ c, c ∈ s'.live ↔ c ∈ s.live ∧ c.ptr ≠ buffer) ∧
      ∀ b ∈ s.live, b.ptr = buffer → ∀ x, b.ptr ≤ x → x < b.ptr + b.size →
        x ∈ freeSet s'.mem b.zone

/-- A request whose length in bytes is beyond a word, and that the allocator
has room for without the bits that are lost. -/
def PmmOp.Overflows (s : PmmState) : PmmOp → Prop
  | .pmm00 length _ flags => 2 ^ 28 ≤ length ∧ u32 (length * 16) ≠ 0 ∧
      u32 (length * 16) < 2 ^ 31 ∧
      ∃ z p m, pmmMalloc s.mem flags (u32 (length * 16)) = some (z, p, m) ∧ p ≠ 0
  | _ => False

section Kept

variable {s s' : PmmState} {gs : List Region} {op : PmmOp}

theorem two_pow_dvd_pmmAlign (hf : flags &&& 4 ≠ 0) (h0 : u32 (length * 16) ≠ 0)
    (hk : 2 ^ k ∣ length) : 2 ^ k ∣ pmmAlign flags (u32 (length * 16)) := by
  have hk16 : 2 ^ (k + 4) ∣ length * 16 := by
    rw [Nat.pow_add]
    exact Nat.mul_dvd_mul hk (by decide)
  rcases Nat.lt_or_ge (k + 4) 32 with hlt | hge
  · have hdvd : 2 ^ (k + 4) ∣ u32 (length * 16) :=
      (Nat.dvd_mod_iff (Nat.pow_dvd_pow 2 (Nat.le_of_lt hlt))).mpr hk16
    have hle := le_ffs h0 (Nat.mod_lt _ (by decide)) hdvd
    have hpow : mallocMinAlign ≤ 2 ^ ffs (u32 (length * 16)) :=
      Nat.le_trans (m := 2 ^ 4) (by decide) (Nat.pow_le_pow_right (by decide) (by omega))
    rw [pmmAlign, if_pos hf, Nat.max_eq_left hpow]
    exact Nat.pow_dvd_pow 2 (by omega)
  · -- the shifted length has no bit below 2^32
    exact absurd (Nat.mod_eq_zero_of_dvd (Nat.dvd_trans (Nat.pow_dvd_pow 2 hge) hk16)) h0

theorem PmmHolds.kept_pmm00 (h : PmmHolds s gs) (length handle flags : Nat) :
    ∃ ret s', (PmmOp.pmm00 length handle flags).run s = some (ret, s') ∧
      ((PmmOp.pmm00 length handle flags).Kept s ret s' ↔
        ¬ (PmmOp.pmm00 length handle flags).Overflows s) := by
  obtain ⟨p, s', gs', heq, h', hgrant⟩ := h.pmm00 length handle flags
  refine ⟨p, s', heq, ?_⟩
  rcases hgrant with hl | ⟨hbad, rfl⟩ | ⟨h0, hlt, z, m, hm, hlive⟩
  · refine iff_of_true (fun hne => absurd hl hne) ?_
    rintro ⟨hbig, -⟩
    omega
  · refine iff_of_true (fun _ hp => absurd rfl hp) ?_
    rintro ⟨-, h0, hlt, -⟩
    omega
  constructor
  · rintro hkept ⟨hbig, -, -, z', p', m', hm', hp⟩
    rw [hm] at hm'
    cases hm'
    obtain ⟨b, hb, -, hg⟩ := hkept (by omega) hp
    rw [hlive hp] at hb
    obtain ⟨rfl, -⟩ := List.cons.inj hb
    have := hg.long
    simp only at this
    omega
  · intro hfit hl hp
    have hsmall : length < 2 ^ 28 := by
      by_contra hbig
      exact hfit ⟨Nat.le_of_not_lt hbig, h0, hlt, z, p, m, hm, hp⟩
    have hlive := hlive hp
    have hsafe := h'.alloc.safe
    refine ⟨_, hlive, rfl, ?_, fun hf k hk => ?_, ?_⟩
    · rw [u32_eq (by omega)]
      simp only
      omega
    · have := hsafe.aligned _ (hlive ▸ List.mem_cons_self)
      exact Nat.dvd_trans (two_pow_dvd_pmmAlign hf h0 hk) this
    · have := hsafe.disjoint
      rw [hlive] at this
      exact (List.pairwise_cons.mp this).1

theorem PmmHolds.mem_live (h : PmmHolds s gs) (hq : (handle, p) ∈ s.named) :
    ∃ b ∈ s.live, b.ptr = p := by
  obtain ⟨-, d, ⟨⟨z, c⟩, hc, ⟨size, align, hk⟩, -, hp⟩, -⟩ := h.named.held _ hq
  exact ⟨⟨z, c.data, size, align⟩,
    h.alloc.live.mem_iff.mp (mem_users.mpr ⟨(z, c), hc, hk, rfl, rfl⟩), hp⟩

theorem PmmHolds.kept_pmm01 (h : PmmHolds s gs) (handle : Nat) :
    ∃ ret s', (PmmOp.pmm01 handle).run s = some (ret, s') ∧ (PmmOp.pmm01 handle).Kept s ret s' := by
  by_cases hh : handle = mallocDefaultHandle
  · refine ⟨0, s, by simp [PmmOp.run, handlePmm01, hh], rfl, ⟨fun hne => absurd rfl hne, ?_⟩,
      fun hne => absurd rfl hne⟩
    rintro ⟨p, hp⟩
    exact absurd hh (h.named.held _ hp).1
  · obtain ⟨p, heq, hnone, hsome⟩ := mallocFindhandle_spec h.alloc.rep h.alloc.books h.named hh
    refine ⟨p, s, by simp [PmmOp.run, handlePmm01, hh, heq], rfl, ⟨fun hp => ⟨p, hsome hp⟩, ?_⟩,
      fun hp => ⟨hsome hp, h.mem_live (hsome hp)⟩⟩
    rintro ⟨q, hq⟩ hp
    exact hnone hp q hq

theorem PmmHolds.kept_pmm02 (h : PmmHolds s gs) (buffer : Nat) :
    ∃ ret s', (PmmOp.pmm02 buffer).run s = some (ret, s') ∧ (PmmOp.pmm02 buffer).Kept s ret s' := by
  rcases h.free buffer with ⟨heq, hno⟩ | ⟨m', gs', heq, hlive, h', hoff⟩
  · refine ⟨1, s, by simp [PmmOp.run, handlePmm02, heq], ⟨fun h0 => absurd h0 (by decide), ?_⟩,
      fun _ => rfl, fun c => ⟨fun hc => ⟨hc, hno c hc⟩, fun hc => hc.1⟩,
      fun b hb hp => absurd hp (hno b hb)⟩
    rintro ⟨b, hb, hp⟩
    exact absurd hp (hno b hb)
  · refine ⟨0, ⟨⟨m', s.regions, s.live.filter fun b => ¬ b.ptr = buffer⟩, dropName buffer s.named⟩,
      by simp only [PmmOp.run, handlePmm02, heq]; rfl, ⟨fun _ => hlive, fun _ => rfl⟩,
      fun hne => absurd rfl hne, fun c => by simp, fun b hb hp x hlo hhi => ?_⟩
    obtain ⟨r, hr, hz, hlo', hhi'⟩ := h.alloc.safe.inside b hb
    obtain ⟨g, hg, rfl⟩ := List.mem_map.mp (h'.alloc.regions.mem_iff.mpr hr)
    simp only [Region.span] at hz hlo' hhi'
    refine (mem_freeSet h'.alloc.rep h'.alloc.books).mpr ⟨g, hg, hz, by omega, by omega,
      fun q hq => ?_⟩
    have := hoff b hb hp q hq
    omega

/-- In every run, PMM keeps its promises in every call but those that overflow. -/
theorem pmm_kept_iff (s : PmmState) (h : PmmReach PmmOp.Ok s) :
    AllocSafe s.toAllocState ∧ ∀ op : PmmOp, op.Ok s →
      ∃ ret s', op.run s = some (ret, s') ∧ (op.Kept s ret s' ↔ ¬ op.Overflows s) := by
  obtain ⟨gs, hgs⟩ := pmmHolds_of_reach h
  refine ⟨hgs.alloc.safe, fun op hok => ?_⟩
  cases op with
  | bios op =>
    obtain ⟨ret, s', -, heq, -⟩ := hgs.step hok
    exact ⟨ret, s', heq, iff_of_true trivial id⟩
  | pmm00 length handle flags => exact hgs.kept_pmm00 length handle flags
  | pmm01 handle =>
    obtain ⟨ret, s', heq, hkept⟩ := hgs.kept_pmm01 handle
    exact ⟨ret, s', heq, iff_of_true hkept id⟩
  | pmm02 buffer =>
    obtain ⟨ret, s', heq, hkept⟩ := hgs.kept_pmm02 buffer
    exact ⟨ret, s', heq, iff_of_true hkept id⟩

end Kept

/-- `Ok`, for calls. -/
def PmmOp.okTest (s : PmmState) : PmmOp → Bool
  | .bios op => roomTest s.toAllocState op && match op with
      | .add _ start end_ => start < end_
      | _ => true
  | _ => true

theorem PmmOp.okTest_ok {op : PmmOp} (h : op.okTest s = true) : op.Ok s := by
  cases op with
  | bios op =>
    simp only [PmmOp.okTest, Bool.and_eq_true] at h
    obtain ⟨hok, hw⟩ := roomTest_ok _ op h.1
    refine ⟨hok, hw, ?_⟩
    rintro z a e rfl
    exact of_decide_eq_true h.2
  | _ => trivial

def runPmm (s : PmmState) : List PmmOp → Option PmmState
  | [] => some s
  | op :: ops => if op.okTest s then (op.run s).bind fun r => runPmm r.2 ops else none

theorem PmmReach.of_runPmm (h : PmmReach PmmOp.Ok s) (hrun : runPmm s ops = some s') :
    PmmReach PmmOp.Ok s' := by
  induction ops generalizing s with
  | nil =>
    cases hrun
    exact h
  | cons op ops ih =>
    simp only [runPmm] at hrun
    split at hrun
    · rename_i hok
      obtain ⟨⟨ret, s₁⟩, heq, hrun⟩ := Option.bind_eq_some_iff.mp hrun
      exact ih (h.step (PmmOp.okTest_ok hok) heq) hrun
    · exact absurd hrun (by simp)

/-- A temporary high and a temporary low region. -/
def pmmSetup : List PmmOp :=
  [.bios (.add .tmpHigh 0x100000 0x200000), .bios (.add .tmpLow 0x7000 0x90000)]

def pmmEmpty : PmmState := ⟨emptyZones, []⟩

theorem pmm_kept_1k : ∃ s : PmmState, s.named = [(0x1234, 0x8fc00)] ∧ AllocSafe s.toAllocState ∧
    (PmmOp.pmm01 0x1234).run s ≠ none := by
  have hrun : (runPmm pmmEmpty (pmmSetup ++ [.pmm00 0x40 0x1234 5])).map PmmState.named =
      some [(0x1234, 0x8fc00)] := by
    decide +kernel
  obtain ⟨s, hs, hnamed⟩ := Option.map_eq_some_iff.mp hrun
  obtain ⟨hsafe, hkept⟩ := pmm_kept_iff s (.of_runPmm (.start _ fun _ => rfl) hs)
  obtain ⟨ret, s', heq, -⟩ := hkept (.pmm01 0x1234) trivial
  exact ⟨s, hnamed, hsafe, by simp [heq]⟩

/-- A request for 4 GiB and a paragraph is granted a paragraph. -/
theorem pmm00_4g : ¬ ∀ s : PmmState, PmmReach PmmOp.Ok s → ∀ (op : PmmOp) ret s', op.Ok s →
    op.run s = some (ret, s') → op.Kept s ret s' := by
  have hrun : ((runPmm pmmEmpty pmmSetup).bind
      (PmmOp.pmm00 0x10000001 mallocDefaultHandle 1).run).map (fun r => (r.1, r.2.live)) =
      some (0x8fff0, [⟨.tmpLow, 0x8fff0, 16, 16⟩]) := by
    decide +kernel
  obtain ⟨⟨ret, s'⟩, hs, heq⟩ := Option.map_eq_some_iff.mp hrun
  obtain ⟨s, hsetup, hcall⟩ := Option.bind_eq_some_iff.mp hs
  intro hall
  obtain ⟨rfl, hblock⟩ := Prod.mk.inj heq
  obtain ⟨b, hlive, -, hg⟩ := hall s (.of_runPmm (.start _ fun _ => rfl) hsetup)
    (.pmm00 0x10000001 mallocDefaultHandle 1) _ s' trivial hcall (by decide) (by decide)
  rw [hblock] at hlive
  obtain ⟨rfl, -⟩ := List.cons.inj hlive
  exact absurd hg.long (by decide)

end ItxLlama.Seabios
