import Mathlib.Data.Nat.Basic

/-!
# Reads from an emulated CD drive

`cdemu_read` of `cdrom.c` between two layers of `process_op`. The drive's
blocks are four sectors long; places in the caller's buffer are sectors
behind its start.
-/

namespace ItxLlama.Seabios

/-- How a read of blocks ends in the drive's driver: `left` of the blocks are
taken off the count of an op that fails. -/
inductive BlockRead where
  | ok
  | error (ret : {n : Nat // n ≠ 0}) (left : Nat)
  deriving DecidableEq, Repr

/-- The end of `process_op`. -/
def opCount (origcount ret count : Nat) : Nat :=
  -- if the count hasn't changed on error, assume no data transferred
  if ret ≠ 0 ∧ count = origcount then 0 else count

/-- The return code, and the count of blocks that `process_op` leaves of `n`. -/
def BlockRead.process (n : Nat) : BlockRead → Nat × Nat
  | .ok => (0, opCount n 0 n)
  | .error ret left => (ret, opCount n ret (n - left))

variable {α : Type}

/-- `n` sectors of a buffer replaced from `pos` on. -/
def place (buf : Nat → α) (pos n : Nat) (src : Nat → α) : Nat → α := fun k =>
  if pos ≤ k ∧ k < pos + n then src (k - pos) else buf k

/-- `dop.lba`, `count`, how far `op->buf_fl` has come, `op->count`, and what
the buffer holds. -/
structure CdState (α : Type) where
  blk : Nat
  count : Nat
  pos : Nat
  done : Nat
  buf : Nat → α

/-- The ends of the three reads. -/
structure CdReads where
  head : BlockRead
  middle : BlockRead
  tail : BlockRead
  deriving DecidableEq, Repr

/-- A disc, and what a failed read leaves where it has not put a block. -/
structure CdDrive (α : Type) extends CdReads where
  quarter : Nat → Nat → α
  junk : Nat → α

/-- Partial read of first block. -/
def cdemuHead (d : CdDrive α) (lba : Nat) (s : CdState α) : Nat × CdState α :=
  if lba % 4 = 0 then (0, s)
  else
    let ret := (d.head.process 1).1
    if ret ≠ 0 then (ret, s)
    else
      let thiscount := min (4 - lba % 4) s.count
      (0,
        { blk := s.blk + 1
          count := s.count - thiscount
          pos := s.pos + thiscount
          done := s.done + thiscount
          buf := place s.buf s.pos thiscount fun i => d.quarter s.blk (lba % 4 + i) })

/-- Read n number of regular blocks. -/
def cdemuMiddle (d : CdDrive α) (s : CdState α) : Nat × CdState α :=
  if s.count ≤ 3 then (0, s)
  else
    let n := s.count / 4
    let read := d.middle.process n
    let buf := place (place s.buf s.pos (n * 4) d.junk) s.pos (read.2 * 4) fun i =>
      d.quarter (s.blk + i / 4) (i % 4)
    let s := { s with done := s.done + read.2 * 4, buf }
    if read.1 ≠ 0 then (read.1, s)
    else
      -- an `u8`
      let thiscount := (s.count - s.count % 4) % 256
      (0, { s with
        count := s.count % 4
        pos := s.pos + thiscount
        blk := s.blk + thiscount / 4 })

/-- Partial read on last block. -/
def cdemuTail (d : CdDrive α) (s : CdState α) : Nat × CdState α :=
  if s.count = 0 then (0, s)
  else
    let ret := (d.tail.process 1).1
    if ret ≠ 0 then (ret, s)
    else
      (0,
        { s with
          done := s.done + s.count
          buf := place s.buf s.pos s.count fun i => d.quarter s.blk i })

def cdemuRead (d : CdDrive α) (ilba lba count : Nat) (buf : Nat → α) : Nat × CdState α :=
  let s : CdState α := { blk := ilba + lba / 4, count, pos := 0, done := 0, buf }
  let head := cdemuHead d lba s
  if head.1 ≠ 0 then head
  else
    let middle := cdemuMiddle d head.2
    if middle.1 ≠ 0 then middle
    else cdemuTail d middle.2

/-- The op as the caller sees it: the return code, `op->count` and the buffer. -/
structure CdResult (α : Type) where
  ret : Nat
  count : Nat
  buf : Nat → α

def processCdemuRead (d : CdDrive α) (ilba lba count : Nat) (buf : Nat → α) : CdResult α :=
  let r := cdemuRead d ilba lba count buf
  { ret := r.1, count := opCount count r.1 r.2.done, buf := r.2.buf }

-- ---------------------------------------------------------------------------
-- What a read should do
-- ---------------------------------------------------------------------------

/-- The sectors that come from the first block, where it is a partial one. -/
def headSectors (lba count : Nat) : Nat := if lba % 4 = 0 then 0 else min (4 - lba % 4) count

/-- How many of `n` blocks a read brings. -/
def BlockRead.blocks (n : Nat) : BlockRead → Nat
  | .ok => n
  -- with nothing taken off the count, nothing is known of them
  | .error _ left => if left = 0 then 0 else n - left

def BlockRead.fails (r : BlockRead) : Bool := r ≠ .ok

def CdReads.FailsIn (d : CdReads) (lba count : Nat) : Prop :=
  let rest := count - headSectors lba count
  (lba % 4 ≠ 0 ∧ d.head.fails) ∨ (3 < rest ∧ d.middle.fails) ∨ (rest % 4 ≠ 0 ∧ d.tail.fails)

/-- The sectors that come before the first failure. -/
def CdReads.delivered (d : CdReads) (lba count : Nat) : Nat :=
  let head := headSectors lba count
  let rest := count - head
  if lba % 4 ≠ 0 ∧ d.head.fails then 0
  else if 3 < rest ∧ d.middle.fails then head + d.middle.blocks (rest / 4) * 4
  else if rest % 4 ≠ 0 ∧ d.tail.fails then head + rest / 4 * 4
  else count

/-- Sector `lba + k` of the emulated drive. -/
def CdDrive.sector (d : CdDrive α) (ilba lba k : Nat) : α :=
  d.quarter (ilba + (lba + k) / 4) ((lba + k) % 4)

structure CdRight (d : CdDrive α) (ilba lba count : Nat) (r : CdResult α) : Prop where
  data : ∀ k < r.count, r.buf k = d.sector ilba lba k
  success : r.ret = 0 → r.count = count
  error : r.ret ≠ 0 → r.count = d.delivered lba count
  failure : r.ret ≠ 0 ↔ d.FailsIn lba count

/-- Whatever is on the disc and in the buffer. -/
def CdemuRight (reads : CdReads) (ilba lba count : Nat) : Prop :=
  ∀ (α : Type) (quarter : Nat → Nat → α) (junk buf : Nat → α),
    let d : CdDrive α := { reads with quarter, junk }
    CdRight d ilba lba count (processCdemuRead d ilba lba count buf)

-- ---------------------------------------------------------------------------
-- The phases
-- ---------------------------------------------------------------------------

theorem BlockRead.process_ret (r : BlockRead) (n : Nat) : (r.process n).1 ≠ 0 ↔ r.fails = true := by
  cases r with
  | ok => simp [BlockRead.process, BlockRead.fails]
  | error ret left => simp [BlockRead.process, BlockRead.fails, ret.2]

theorem BlockRead.process_blocks (r : BlockRead) (hn : 0 < n) : (r.process n).2 = r.blocks n := by
  cases r with
  | ok => rfl
  | error ret left =>
    simp only [BlockRead.process, BlockRead.blocks, opCount]
    by_cases hleft : left = 0
    · rw [if_pos ⟨ret.2, by omega⟩, if_pos hleft]
    · rw [if_neg (fun h => by omega), if_neg hleft]

theorem BlockRead.blocks_lt {r : BlockRead} (hn : 0 < n) (h : r.fails = true) : r.blocks n < n := by
  cases r with
  | ok => cases h
  | error ret left =>
    simp only [BlockRead.blocks]
    split <;> omega

/-- Sectors put behind those that are right, and right themselves. -/
theorem place_data {f buf src : Nat → α} (hbuf : ∀ k < pos, buf k = f k)
    (hsrc : ∀ i < n, src i = f (pos + i)) : ∀ k < pos + n, place buf pos n src k = f k := by
  intro k hk
  simp only [place]
  split
  · rw [hsrc _ (by omega), Nat.add_sub_cancel' (by omega)]
  · exact hbuf k (by omega)

theorem place_other {buf src : Nat → α} (h : pos + n ≤ k) : place buf pos n src k = buf k :=
  if_neg (by omega)

/-- What holds after each phase that has ended well: `done` sectors are right
and the rest of the buffer is as it was. -/
structure CdGood (d : CdDrive α) (ilba lba total : Nat) (buf : Nat → α) (s : CdState α) : Prop where
  total : s.done + s.count = total
  data : ∀ k < s.done, s.buf k = d.sector ilba lba k
  rest : ∀ k, s.done ≤ k → s.buf k = buf k

/-- The next sector starts a block, and the driver knows which. -/
structure CdAligned (ilba lba : Nat) (s : CdState α) : Prop where
  pos : s.pos = s.done
  start : (lba + s.done) % 4 = 0
  blk : s.blk = ilba + (lba + s.done) / 4

theorem cdemuHead_spec (d : CdDrive α) (ilba lba count : Nat) (buf : Nat → α) :
    let s : CdState α := { blk := ilba + lba / 4, count, pos := 0, done := 0, buf }
    let r := cdemuHead d lba s
    (r.1 ≠ 0 ∧ (lba % 4 ≠ 0 ∧ d.head.fails) ∧ r.2 = s) ∨
      (r.1 = 0 ∧ ¬ (lba % 4 ≠ 0 ∧ d.head.fails) ∧ CdGood d ilba lba count buf r.2 ∧
        r.2.done = headSectors lba count ∧ (r.2.count ≠ 0 → CdAligned ilba lba r.2)) := by
  simp only [cdemuHead]
  split
  · rename_i h
    exact .inr ⟨rfl, fun hf => hf.1 h, ⟨Nat.zero_add _, by simp, fun _ _ => rfl⟩,
      (if_pos h).symm, fun _ => ⟨rfl, h, rfl⟩⟩
  rename_i hoff
  split
  · rename_i hfail
    exact .inl ⟨hfail, ⟨hoff, (d.head.process_ret 1).mp hfail⟩, rfl⟩
  · rename_i hok
    refine .inr ⟨rfl, fun hf => hok ((d.head.process_ret 1).mpr hf.2), ⟨?_, ?_, ?_⟩, ?_, ?_⟩
    · simp only
      omega
    · dsimp only
      refine place_data (fun k hk => absurd hk (Nat.not_lt_zero k)) fun i hi => ?_
      rw [CdDrive.sector]
      congr 1 <;> omega
    · dsimp only
      exact fun k hk => place_other hk
    · simp [headSectors, hoff]
    · intro hmore
      simp only at hmore
      refine ⟨rfl, ?_, ?_⟩ <;> simp only <;> omega

theorem cdemuMiddle_spec (hs : CdGood d ilba lba total buf s)
    (ha : s.count ≠ 0 → CdAligned ilba lba s) :
    let r := cdemuMiddle d s
    (r.1 ≠ 0 ∧ (3 < s.count ∧ d.middle.fails) ∧
        r.2.done = s.done + d.middle.blocks (s.count / 4) * 4 ∧
        ∀ k < r.2.done, r.2.buf k = d.sector ilba lba k) ∨
      (r.1 = 0 ∧ ¬ (3 < s.count ∧ d.middle.fails) ∧ CdGood d ilba lba total buf r.2 ∧
        r.2.count = s.count % 4 ∧ r.2.pos = s.pos + s.count / 4 * 4 % 256 ∧
        (s.count < 256 → r.2.count ≠ 0 → CdAligned ilba lba r.2)) := by
  simp only [cdemuMiddle]
  split
  · rename_i h
    refine .inr ⟨rfl, fun hf => by omega, hs,
      (Nat.mod_eq_of_lt (Nat.lt_succ_of_le h)).symm, ?_, fun _ => ha⟩
    rw [Nat.div_eq_of_lt (by omega), Nat.zero_mul, Nat.zero_mod, Nat.add_zero]
  rename_i hcount
  obtain ⟨hpos, hstart, hblk⟩ := ha (by omega)
  have hn : 0 < s.count / 4 := by omega
  rw [d.middle.process_blocks hn]
  have hdata : ∀ m ≤ s.count / 4, ∀ k < s.done + m * 4,
      place (place s.buf s.pos (s.count / 4 * 4) d.junk) s.pos (m * 4)
        (fun i => d.quarter (s.blk + i / 4) (i % 4)) k = d.sector ilba lba k := by
    intro m _
    rw [hpos]
    refine place_data (fun k hk => ?_) fun i hi => ?_
    · rw [← hs.data k hk]
      exact if_neg (by omega)
    · rw [CdDrive.sector, hblk]
      congr 1 <;> omega
  split
  · rename_i hfail
    have hfails := (d.middle.process_ret _).mp hfail
    exact .inl ⟨hfail, ⟨by omega, hfails⟩, rfl,
      hdata _ (Nat.le_of_lt (d.middle.blocks_lt hn hfails))⟩
  · rename_i hok
    have hfails : ¬ d.middle.fails = true := fun hf => hok ((d.middle.process_ret _).mpr hf)
    have hblocks : d.middle.blocks (s.count / 4) = s.count / 4 := by
      cases hm : d.middle with
      | ok => rfl
      | error ret left =>
        rw [hm] at hfails
        exact absurd rfl hfails
    rw [hblocks]
    have htotal := hs.total
    refine .inr ⟨rfl, fun hf => hfails hf.2, ⟨?_, hdata _ (Nat.le_refl _), ?_⟩, rfl, ?_, ?_⟩
    · dsimp only
      omega
    · intro k hk
      dsimp only at hk ⊢
      rw [place_other (by omega), place_other (by omega)]
      exact hs.rest k (by omega)
    · dsimp only
      omega
    · intro hsmall _
      refine ⟨?_, ?_, ?_⟩ <;> dsimp only <;> omega

/-- The last phase is right where the driver still knows its place. -/
theorem cdemuTail_spec (hs : CdGood d ilba lba total buf s) (hcount : s.count < 4) :
    let r := cdemuTail d s
    (r.1 ≠ 0 ∧ (s.count ≠ 0 ∧ d.tail.fails) ∧ r.2 = s) ∨
      (r.1 = 0 ∧ ¬ (s.count ≠ 0 ∧ d.tail.fails) ∧ r.2.done = total ∧
        ((s.count ≠ 0 → CdAligned ilba lba s) → ∀ k < total, r.2.buf k = d.sector ilba lba k) ∧
        (s.pos + s.count ≤ s.done → ∀ k, s.done ≤ k → r.2.buf k = buf k)) := by
  have htotal := hs.total
  simp only [cdemuTail]
  split
  · rename_i h
    have hdone : s.done = total := by omega
    exact .inr ⟨rfl, fun hf => hf.1 h, hdone, fun _ => hdone ▸ hs.data, fun _ => hs.rest⟩
  rename_i hmore
  split
  · rename_i hfail
    exact .inl ⟨hfail, ⟨hmore, (d.tail.process_ret 1).mp hfail⟩, rfl⟩
  · rename_i hok
    refine .inr ⟨rfl, fun hf => hok ((d.tail.process_ret 1).mpr hf.2), htotal, fun ha => ?_, ?_⟩
    · obtain ⟨hpos, hstart, hblk⟩ := ha hmore
      dsimp only
      rw [hpos, ← htotal]
      refine place_data hs.data fun i hi => ?_
      rw [CdDrive.sector, hblk]
      congr 1 <;> omega
    · intro hbehind k hk
      exact (place_other (Nat.le_trans hbehind hk)).trans (hs.rest k hk)

-- ---------------------------------------------------------------------------
-- A whole read
-- ---------------------------------------------------------------------------

/-- The ways a read ends. `middle` is the state that the last phase starts in. -/
inductive CdEnd (d : CdDrive α) (ilba lba count : Nat) (buf : Nat → α) : Nat × CdState α → Prop
  | failed (hret : ret ≠ 0) (hfails : d.FailsIn lba count) (hdone : s.done = d.delivered lba count)
      (hless : s.done < count) (hdata : ∀ k < s.done, s.buf k = d.sector ilba lba k) :
      CdEnd d ilba lba count buf (ret, s)
  | whole (hfails : ¬ d.FailsIn lba count) (hdone : s.done = count)
      (hdata : count - headSectors lba count < 256 ∨ (count - headSectors lba count) % 4 = 0 →
        ∀ k < count, s.buf k = d.sector ilba lba k)
      (hlost : 256 ≤ count - headSectors lba count →
        ∀ k, headSectors lba count + (count - headSectors lba count) / 4 * 4 ≤ k →
          s.buf k = buf k) :
      CdEnd d ilba lba count buf (0, s)

theorem cdemuRead_end (d : CdDrive α) (ilba lba : Nat) (hpos : 0 < count) (buf : Nat → α) :
    CdEnd d ilba lba count buf (cdemuRead d ilba lba count buf) := by
  simp only [cdemuRead]
  rcases cdemuHead_spec d ilba lba count buf with ⟨hret, hfail, hs⟩ |
    ⟨hret, hhead, hgood, hdone, ha⟩
  · rw [if_pos hret]
    generalize cdemuHead d lba _ = r at hret hs
    obtain ⟨ret, s⟩ := r
    obtain rfl : s = _ := hs
    exact .failed hret (.inl hfail) (if_pos hfail).symm hpos
      (fun k hk => absurd hk (Nat.not_lt_zero k))
  rw [if_neg (fun h => h hret)]
  generalize (cdemuHead d lba _).2 = s at hgood hdone ha
  have hrest : s.count = count - headSectors lba count := by
    have := hgood.total
    omega
  rcases cdemuMiddle_spec hgood ha with ⟨hret, hfail, hdone', hdata⟩ |
    ⟨hret, hmiddle, hgood', hcount, hplace, ha'⟩
  · rw [if_pos hret]
    generalize cdemuMiddle d s = r at hret hdone' hdata
    obtain ⟨ret, s'⟩ := r
    rw [hrest] at hfail
    have hblocks := d.middle.blocks_lt (show 0 < (count - headSectors lba count) / 4 by omega)
      hfail.2
    dsimp only at hdone'
    rw [hdone, hrest] at hdone'
    refine .failed hret (.inr (.inl hfail)) ?_ (by omega) hdata
    rw [hdone', CdReads.delivered, if_neg hhead, if_pos hfail]
  rw [if_neg (fun h => h hret)]
  generalize (cdemuMiddle d s).2 = s' at hgood' hcount hplace ha'
  rw [hrest] at hmiddle hcount hplace ha'
  have htotal := hgood.total
  have htotal' := hgood'.total
  have hdone' : s'.done = headSectors lba count + (count - headSectors lba count) / 4 * 4 := by
    omega
  rcases cdemuTail_spec hgood' (by omega) with ⟨hret, hfail, hs⟩ | ⟨hret, htail, hend, hdata, hlost⟩
  · generalize cdemuTail d s' = r at hret hs
    obtain ⟨ret, s''⟩ := r
    obtain rfl : s'' = s' := hs
    rw [hcount] at hfail
    refine .failed hret (.inr (.inr hfail)) ?_ (by omega) hgood'.data
    rw [CdReads.delivered, if_neg hhead, if_neg hmiddle, if_pos hfail, hdone']
  · generalize cdemuTail d s' = r at hret hend hdata hlost
    obtain ⟨ret, s''⟩ := r
    obtain rfl : ret = 0 := hret
    rw [hcount] at htail
    refine .whole ?_ hend ?_ ?_
    · rintro (h | h | h)
      · exact hhead h
      · exact hmiddle h
      · exact htail h
    · rintro (hsmall | hwhole)
      · exact hdata (ha' hsmall)
      · exact hdata fun hmore => absurd (hcount.trans hwhole) hmore
    · intro hlarge k hk
      have hpos' := (ha (by omega)).pos
      exact hlost (by omega) k (by omega)

theorem CdEnd.right {r : Nat × CdState α} (h : CdEnd d ilba lba count buf r)
    (hplace : count - headSectors lba count < 256 ∨ (count - headSectors lba count) % 4 = 0 ∨
      d.FailsIn lba count) :
    CdRight d ilba lba count
      { ret := r.1, count := opCount count r.1 r.2.done, buf := r.2.buf } := by
  cases h with
  | @failed ret s hret hfails hdone hless hdata =>
    have hcount : opCount count ret s.done = s.done := if_neg fun h => Nat.ne_of_lt hless h.2
    refine ⟨?_, fun h => absurd h hret, fun _ => ?_, iff_of_true hret hfails⟩
    · dsimp only
      rwa [hcount]
    · exact hcount.trans hdone
  | @whole s hfails hdone hdata hlost =>
    have hcount : opCount count 0 s.done = count := (if_neg fun h => h.1 rfl).trans hdone
    refine ⟨?_, fun _ => hcount, fun h => absurd rfl h, iff_of_false (fun h => h rfl) hfails⟩
    · dsimp only
      rw [hcount]
      exact hdata (hplace.imp_right fun h => h.resolve_right hfails)

/-- A disc whose sectors are all different, read into an empty buffer. -/
theorem CdemuRight.place (h : CdemuRight reads ilba lba count) (hpos : 0 < count)
    (hlarge : 256 ≤ count - headSectors lba count)
    (hpart : (count - headSectors lba count) % 4 ≠ 0) : reads.FailsIn lba count := by
  let d : CdDrive (Option (Nat × Nat)) :=
    { reads with quarter := fun b q => some (b, q), junk := fun _ => none }
  have hright := h (Option (Nat × Nat)) d.quarter d.junk (fun _ => none)
  have hend := cdemuRead_end d ilba lba hpos (fun _ => none)
  simp only [processCdemuRead] at hright
  generalize cdemuRead d ilba lba count (fun _ => none) = r at hend hright
  cases hend with
  | failed _ hfails => exact hfails
  | @whole s hfails hdone hdata hlost =>
    have hcount : opCount count 0 s.done = count := (if_neg fun h => h.1 rfl).trans hdone
    have hlast := hright.data (count - 1) (by dsimp only; omega)
    have hnone : none = some _ := (hlost hlarge (count - 1) (by omega)).symm.trans hlast
    cases hnone

def allRead : CdReads := ⟨.ok, .ok, .ok⟩

end ItxLlama.Seabios
