import ItxLlama.Lib.Tiling
import Mathlib.Data.List.Chain

/-!
# First fit over blocks with headers

A range is cut into blocks that follow each other, each a header and a size.
A block is taken from the first free one that is large enough, and free
neighbours are joined after a release.
-/

namespace ItxLlama.Lib.FirstFit

open Tiling

/-- `addr` is where the header starts. -/
structure Block where
  addr : Nat
  size : Nat
  free : Bool
  deriving DecidableEq, Repr

/-- Where a block with a header of `hdr` bytes ends. -/
def Block.fin (hdr : Nat) (b : Block) : Nat := b.addr + hdr + b.size

abbrev Cut (hdr : Nat) : Nat → List Block → Nat → Prop := Tiles Block.addr (Block.fin hdr)

/-- No two neighbours are free. -/
def Settled (bs : List Block) : Prop := bs.IsChain fun b c => b.free = true → c.free = false

/-- A list of blocks cuts up `[bot, top)`. -/
structure WellFormed (hdr bot top : Nat) (bs : List Block) : Prop where
  cut : Cut hdr bot bs top
  pos : ∀ b ∈ bs, 0 < b.size
  settled : Settled bs

def used (bs : List Block) : List Block := bs.filter fun b => !b.free

-- ---------------------------------------------------------------------------
-- The operations
-- ---------------------------------------------------------------------------

/-- A block cut down to `len`, and what is left where that is more than a header. -/
def split (hdr len : Nat) (b : Block) : List Block :=
  if hdr + len < b.size then
    [⟨b.addr, len, false⟩, ⟨b.addr + (hdr + len), b.size - (hdr + len), true⟩]
  else [⟨b.addr, b.size, false⟩]

/-- The first free block of at least `len`, and the blocks when it is taken. -/
def firstFit (hdr len : Nat) : List Block → Option (Block × List Block)
  | [] => none
  | b :: bs =>
    if b.free ∧ len ≤ b.size then some (b, split hdr len b ++ bs)
    else (firstFit hdr len bs).map fun (c, cs) => (c, b :: cs)

def release (a : Nat) (bs : List Block) : List Block :=
  bs.map fun b => if b.addr = a then { b with free := true } else b

/-- Free neighbours are joined; the first argument is a free block before the list. -/
def coalesce (hdr : Nat) : Option Block → List Block → List Block
  | none, [] => []
  | some c, [] => [c]
  | none, b :: bs => if b.free then coalesce hdr (some b) bs else b :: coalesce hdr none bs
  | some c, b :: bs =>
    if b.free then coalesce hdr (some { c with size := c.size + hdr + b.size }) bs
    else c :: b :: coalesce hdr none bs

-- ---------------------------------------------------------------------------
-- Taking a block
-- ---------------------------------------------------------------------------

section Laws

variable {hdr bot top len a : Nat} {b c : Block} {bs bs' pre post : List Block}

theorem firstFit_some (h : firstFit hdr len bs = some (b, bs')) : ∃ pre post,
    bs = pre ++ b :: post ∧ bs' = pre ++ split hdr len b ++ post ∧ b.free = true ∧ len ≤ b.size ∧
      ∀ c ∈ pre, c.free = true → c.size < len := by
  induction bs generalizing bs' with
  | nil => cases h
  | cons d bs ih =>
    unfold firstFit at h
    split at h
    · rename_i hfit
      cases h
      exact ⟨[], bs, rfl, rfl, hfit.1, hfit.2, List.forall_mem_nil _⟩
    · rename_i hfit
      obtain ⟨⟨c, cs⟩, hc, heq⟩ := Option.map_eq_some_iff.mp h
      cases heq
      obtain ⟨pre, post, rfl, rfl, hfree, hle, hpre⟩ := ih hc
      refine ⟨d :: pre, post, rfl, rfl, hfree, hle, List.forall_mem_cons.mpr ⟨fun hd => ?_, hpre⟩⟩
      exact Nat.lt_of_not_le fun hle' => hfit ⟨hd, hle'⟩

theorem split_cut (hle : len ≤ b.size) : Cut hdr b.addr (split hdr len b) (b.fin hdr) := by
  unfold split
  split
  · refine ⟨rfl, ?_, ?_, ?_, tiles_nil.mpr ?_⟩ <;> simp only [Block.fin] <;> omega
  · exact ⟨rfl, by simp only [Block.fin]; omega, rfl⟩

theorem cut_cons : Cut hdr bot (b :: bs) top ↔
    b.addr = bot ∧ b.addr ≤ b.fin hdr ∧ Cut hdr (b.fin hdr) bs top := .rfl

theorem cut_append : Cut hdr bot (pre ++ post) top ↔
    ∃ mid, Cut hdr bot pre mid ∧ Cut hdr mid post top := tiles_append

theorem cut_middle : Cut hdr bot (pre ++ b :: post) top ↔
    Cut hdr bot pre b.addr ∧ b.addr ≤ b.fin hdr ∧ Cut hdr (b.fin hdr) post top := by
  rw [cut_append]
  constructor
  · rintro ⟨_, hpre, rfl, hle, hpost⟩
    exact ⟨hpre, hle, hpost⟩
  · rintro ⟨hpre, hle, hpost⟩
    exact ⟨b.addr, hpre, rfl, hle, hpost⟩

theorem cut_apart (h : Cut hdr bot bs top) (hb : b ∈ bs) (hc : c ∈ bs) (hne : b ≠ c) :
    b.fin hdr ≤ c.addr ∨ c.fin hdr ≤ b.addr := by
  induction bs generalizing bot with
  | nil => cases hb
  | cons d bs ih =>
    obtain ⟨-, -, hrest⟩ := h
    rcases List.mem_cons.mp hb with rfl | hbs
    · rcases List.mem_cons.mp hc with rfl | hcs
      · exact absurd rfl hne
      · exact .inl (hrest.bounds hcs).1
    · rcases List.mem_cons.mp hc with rfl | hcs
      · exact .inr (hrest.bounds hbs).1
      · exact ih hrest hbs hcs

theorem length_le (h : Cut hdr bot bs top) (hhdr : 0 < hdr) (hpos : ∀ b ∈ bs, 0 < b.size) :
    bot + 2 * bs.length ≤ top := by
  induction bs generalizing bot with
  | nil => exact Nat.le_of_eq h
  | cons b bs ih =>
    obtain ⟨rfl, -, hrest⟩ := h
    obtain ⟨hb, hpos⟩ := List.forall_mem_cons.mp hpos
    have := ih hrest hpos
    simp only [Block.fin, List.length_cons] at this ⊢
    omega

theorem split_settled (hhi : ∀ c ∈ post.head?, c.free = false) (hpre : Settled pre)
    (hpost : Settled post) :
    Settled (pre ++ split hdr len b ++ post) := by
  unfold Settled at *
  unfold split
  split
  · simp only [List.append_assoc, List.cons_append, List.nil_append]
    refine List.isChain_append.mpr ⟨hpre, ?_, ?_⟩
    · refine List.isChain_cons_cons.mpr ⟨(fun h => nomatch h), List.isChain_cons.mpr ⟨?_, hpost⟩⟩
      intro c hc _
      exact hhi c hc
    · intro c hc d hd _
      cases hd
      rfl
  · simp only [List.append_assoc, List.cons_append, List.nil_append]
    refine List.isChain_append.mpr ⟨hpre, List.isChain_cons.mpr ⟨(fun c hc h => nomatch h), hpost⟩, ?_⟩
    intro c hc d hd _
    cases hd
    rfl

theorem Settled.around (h : Settled (pre ++ b :: post)) (hb : b.free = true) :
    (∀ c ∈ post.head?, c.free = false) ∧ Settled pre ∧ Settled post := by
  obtain ⟨hpre, htail, -⟩ := List.isChain_append.mp h
  obtain ⟨hhead, hpost⟩ := List.isChain_cons.mp htail
  exact ⟨fun c hc => hhead c hc hb, hpre, hpost⟩

theorem WellFormed.firstFit (hw : WellFormed hdr bot top bs) (hlen : 0 < len)
    (h : firstFit hdr len bs = some (b, bs')) : WellFormed hdr bot top bs' := by
  obtain ⟨pre, post, rfl, rfl, hfree, hle, -⟩ := firstFit_some h
  obtain ⟨hpre, -, hpost⟩ := cut_middle.mp hw.cut
  obtain ⟨hhi, hspre, hspost⟩ := hw.settled.around hfree
  constructor
  case cut =>
    rw [List.append_assoc]
    exact cut_append.mpr ⟨_, hpre, cut_append.mpr ⟨_, split_cut hle, hpost⟩⟩
  case pos =>
    intro c hc
    rw [List.append_assoc, List.mem_append, List.mem_append] at hc
    rcases hc with hc | hc | hc
    · exact hw.pos c (List.mem_append_left _ hc)
    · unfold split at hc
      have hb := hw.pos b (List.mem_append_right _ List.mem_cons_self)
      split at hc
      · rcases List.mem_pair.mp hc with rfl | rfl
        · exact hlen
        · simp only
          omega
      · cases List.mem_singleton.mp hc
        exact hb
    · exact hw.pos c (List.mem_append_right _ (List.mem_cons_of_mem _ hc))
  case settled => exact split_settled hhi hspre hspost

/-- The block that is taken, as it is in use. -/
def taken (hdr len : Nat) (b : Block) : Block :=
  ⟨b.addr, if hdr + len < b.size then len else b.size, false⟩

theorem used_split : used (split hdr len b) = [taken hdr len b] := by
  unfold split taken
  split <;> rfl

theorem used_append : used (bs ++ bs') = used bs ++ used bs' := List.filter_append ..

theorem used_firstFit (h : firstFit hdr len bs = some (b, bs')) :
    (used bs').Perm (taken hdr len b :: used bs) := by
  obtain ⟨pre, post, rfl, rfl, hfree, -, -⟩ := firstFit_some h
  have hb : used (b :: post) = used post := List.filter_cons_of_neg (by simp [hfree])
  rw [used_append, used_append, used_split, used_append, hb, List.append_assoc]
  exact List.perm_middle

-- ---------------------------------------------------------------------------
-- Giving one back
-- ---------------------------------------------------------------------------

theorem used_release : used (release a bs) = (used bs).filter fun b => b.addr ≠ a := by
  induction bs with
  | nil => rfl
  | cons b bs ih =>
    unfold used release at *
    rw [List.map_cons]
    by_cases ha : b.addr = a <;> cases hb : b.free <;> simp [ha, hb, ih]

theorem release_cut : Cut hdr bot (release a bs) top ↔ Cut hdr bot bs top := by
  induction bs generalizing bot with
  | nil => rfl
  | cons b bs ih =>
    unfold release at *
    rw [List.map_cons, cut_cons, cut_cons]
    split
    · exact and_congr_right fun _ => and_congr_right fun _ => ih
    · exact and_congr_right fun _ => and_congr_right fun _ => ih

theorem mem_release (h : b ∈ release a bs) :
    ∃ c ∈ bs, b.addr = c.addr ∧ b.size = c.size ∧ (c.addr ≠ a → b = c) := by
  obtain ⟨c, hc, rfl⟩ := List.mem_map.mp h
  refine ⟨c, hc, ?_⟩
  split
  · exact ⟨rfl, rfl, fun hne => absurd ‹_› hne⟩
  · exact ⟨rfl, rfl, fun _ => rfl⟩

theorem release_mem (h : b ∈ bs) (hb : b.addr = a) : { b with free := true } ∈ release a bs :=
  List.mem_map.mpr ⟨b, h, if_pos hb⟩

section Coalesce

theorem coalesce_cut {o : Option Block} (h : Cut hdr bot (o.toList ++ bs) top) :
    Cut hdr bot (coalesce hdr o bs) top := by
  induction bs generalizing o bot with
  | nil => cases o <;> simpa [coalesce] using h
  | cons b bs ih =>
    cases o with
    | none =>
      unfold coalesce
      split
      · exact ih h
      · exact ⟨h.1, h.2.1, ih h.2.2⟩
    | some c =>
      obtain ⟨hc, hcle, hb, hble, hbs⟩ := h
      unfold coalesce
      split
      · refine ih ⟨hc, ?_, ?_⟩
        · simp only [Block.fin]
          omega
        · rwa [show Block.fin hdr { c with size := c.size + hdr + b.size } = b.fin hdr by
            simp only [Block.fin] at hb ⊢; omega]
      · exact ⟨hc, hcle, hb, hble, ih hbs⟩

theorem coalesce_pos {o : Option Block} (h : ∀ b ∈ o.toList ++ bs, 0 < b.size) :
    ∀ b ∈ coalesce hdr o bs, 0 < b.size := by
  induction bs generalizing o with
  | nil =>
    cases o with
    | none => exact List.forall_mem_nil _
    | some c => exact h
  | cons b bs ih =>
    cases o with
    | none =>
      obtain ⟨hb, hbs⟩ := List.forall_mem_cons.mp h
      unfold coalesce
      split
      · exact ih (List.forall_mem_cons.mpr ⟨hb, hbs⟩)
      · exact List.forall_mem_cons.mpr ⟨hb, ih hbs⟩
    | some c =>
      obtain ⟨hc, h⟩ := List.forall_mem_cons.mp h
      obtain ⟨hb, hbs⟩ := List.forall_mem_cons.mp h
      unfold coalesce
      split
      · exact ih (List.forall_mem_cons.mpr ⟨by simp only; omega, hbs⟩)
      · exact List.forall_mem_cons.mpr ⟨hc, List.forall_mem_cons.mpr ⟨hb, ih hbs⟩⟩

theorem coalesce_settled {o : Option Block} : Settled (coalesce hdr o bs) := by
  induction bs generalizing o with
  | nil => cases o <;> simp [coalesce, Settled]
  | cons b bs ih =>
    cases o with
    | none =>
      unfold coalesce
      split
      · exact ih
      · rename_i hb
        exact List.isChain_cons.mpr ⟨fun c _ h => absurd h hb, ih⟩
    | some c =>
      unfold coalesce
      split
      · exact ih
      · rename_i hb
        refine List.isChain_cons_cons.mpr ⟨fun _ => by simpa using hb, ?_⟩
        exact List.isChain_cons.mpr ⟨fun c _ h => absurd h hb, ih⟩

theorem used_coalesce {o : Option Block} (ho : ∀ c ∈ o, c.free = true) :
    used (coalesce hdr o bs) = used bs := by
  unfold used
  induction bs generalizing o with
  | nil =>
    cases o with
    | none => rfl
    | some c => simp [coalesce, ho c rfl]
  | cons b bs ih =>
    cases o with
    | none =>
      unfold coalesce
      split
      · rename_i hb
        rw [ih (by simpa using hb), List.filter_cons_of_neg (by simp [hb])]
      · rename_i hb
        rw [List.filter_cons_of_pos (by simpa using hb), List.filter_cons_of_pos (by simpa using hb),
          ih (by simp)]
    | some c =>
      have hc := ho c rfl
      unfold coalesce
      split
      · rename_i hb
        rw [ih (by simpa using hc), List.filter_cons_of_neg (by simp [hb])]
      · rename_i hb
        rw [List.filter_cons_of_neg (by simp [hc]), List.filter_cons_of_pos (by simpa using hb),
          List.filter_cons_of_pos (by simpa using hb), ih (by simp)]

/-- Each block lies in one of the joined blocks, which starts at a block and is
free if it is more than that block. -/
theorem coalesce_covers {o : Option Block} (ho : ∀ c ∈ o, c.free = true)
    (h : Cut hdr bot (o.toList ++ bs) top) (hb : b ∈ o.toList ++ bs) :
    ∃ c ∈ coalesce hdr o bs, c.addr ≤ b.addr ∧ b.fin hdr ≤ c.fin hdr ∧ c.free = b.free := by
  induction bs generalizing o bot b with
  | nil =>
    cases o with
    | none => simp at hb
    | some c =>
      obtain rfl : b = c := by simpa using hb
      exact ⟨b, List.mem_singleton_self b, Nat.le_refl _, Nat.le_refl _, rfl⟩
  | cons d bs ih =>
    cases o with
    | none =>
      unfold coalesce
      split
      · rename_i hd
        exact ih (by simpa using hd) h hb
      · rcases List.mem_cons.mp hb with rfl | hb
        · exact ⟨b, List.mem_cons_self, Nat.le_refl _, Nat.le_refl _, rfl⟩
        · obtain ⟨c, hc, hin⟩ := @ih _ b none (by simp) h.2.2 hb
          exact ⟨c, List.mem_cons_of_mem _ hc, hin⟩
    | some c =>
      have hfree := ho c rfl
      obtain ⟨hc, hcle, hd, hdle, hbs⟩ := h
      unfold coalesce
      split
      · rename_i hdfree
        -- a block that is absorbed lies in the joined one
        let j : Block := { c with size := c.size + hdr + d.size }
        have hfin : j.fin hdr = d.fin hdr := by
          simp only [j, Block.fin] at hd ⊢
          omega
        have hcut : Cut hdr bot ((some j).toList ++ bs) top :=
          ⟨hc, by simp only [j, Block.fin]; omega, hfin.symm ▸ hbs⟩
        have hj : ∃ e ∈ (some j).toList ++ bs, e.addr ≤ b.addr ∧ b.fin hdr ≤ e.fin hdr ∧
            e.free = b.free := by
          rcases List.mem_cons.mp hb with rfl | hb
          · exact ⟨j, List.mem_cons_self, Nat.le_refl _, by omega, rfl⟩
          rcases List.mem_cons.mp hb with rfl | hb
          · exact ⟨j, List.mem_cons_self, by simp only [j]; omega, by omega,
              hfree.trans hdfree.symm⟩
          · exact ⟨b, List.mem_cons_of_mem _ hb, Nat.le_refl _, Nat.le_refl _, rfl⟩
        obtain ⟨e, he, hlo, hhi, heq⟩ := hj
        obtain ⟨k, hk, hlo', hhi', heq'⟩ := ih (by simpa [j] using hfree) hcut he
        exact ⟨k, hk, hlo'.trans hlo, hhi.trans hhi', heq'.trans heq⟩
      · rcases List.mem_cons.mp hb with rfl | hb
        · exact ⟨b, List.mem_cons_self, Nat.le_refl _, Nat.le_refl _, rfl⟩
        rcases List.mem_cons.mp hb with rfl | hb
        · exact ⟨b, List.mem_cons_of_mem _ List.mem_cons_self, Nat.le_refl _, Nat.le_refl _, rfl⟩
        · obtain ⟨k, hk, hin⟩ := @ih _ b none (by simp) hbs hb
          exact ⟨k, List.mem_cons_of_mem _ (List.mem_cons_of_mem _ hk), hin⟩

theorem WellFormed.give_back (hw : WellFormed hdr bot top bs) :
    WellFormed hdr bot top (coalesce hdr none (release a bs)) where
  cut := coalesce_cut (release_cut.mpr hw.cut)
  pos := coalesce_pos fun b hb => by
    obtain ⟨c, hc, -, hsize, -⟩ := mem_release hb
    rw [hsize]
    exact hw.pos c hc
  settled := coalesce_settled

theorem used_give_back : used (coalesce hdr none (release a bs)) =
    (used bs).filter fun b => b.addr ≠ a := by
  rw [used_coalesce (by simp), used_release]

end Coalesce

end Laws

end ItxLlama.Lib.FirstFit
