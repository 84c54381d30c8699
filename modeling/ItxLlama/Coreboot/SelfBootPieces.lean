import ItxLlama.Coreboot.SelfBoot
import ItxLlama.Lib.Overlay
import Mathlib.Order.MinMax
import Mathlib.Tactic.Tauto

/-!
# A segment goes to memory in pieces

What overlaps coreboot is split off and goes into the bounce buffer. Each
piece with file bytes is a patch: its file bytes and then zeros. The load
writes the patches of all pieces, in the order of the list.
-/

namespace ItxLlama.Coreboot.SelfBoot

open Lib.Word
open Lib.Overlay

-- ---------------------------------------------------------------------------
-- One segment as a patch
-- ---------------------------------------------------------------------------

def Segment.Has (seg : Segment) (t : Nat) : Prop := seg.dst ≤ t ∧ t < seg.dst + seg.memsz

/-- The byte that belongs at `t`. -/
def Segment.byte (rom : Nat → Byte) (seg : Segment) (t : Nat) : Byte :=
  if t - seg.dst < seg.filesz then rom (u32 (seg.src + (t - seg.dst))) else 0

/-- What loading the segment stores; without file bytes, nothing. -/
def Segment.patch (rom : Nat → Byte) (seg : Segment) : Nat → Option Byte := fun x =>
  if 0 < seg.filesz ∧ sub32 x seg.dst < seg.memsz then
    some (if sub32 x seg.dst < seg.filesz then rom (u32 (seg.src + sub32 x seg.dst)) else 0)
  else none

theorem overlay_patch_empty {seg : Segment} (h : seg.filesz = 0) (m : Ram) :
    overlay m (seg.patch rom) = m := by
  funext x
  exact overlay_none (if_neg (by omega))

section Image

variable (img : Image)

def Segment.Overlaps (seg : Segment) : Prop := overlapsCoreboot img seg = true

/-- Where in memory the load puts the byte that belongs at `t`. -/
def loc (buffer t : Nat) : Nat :=
  if img.lbStart ≤ t ∧ t < img.lbEnd then buffer + (t - img.lbStart) else t

/-- Where the piece starts that has the byte at `t`. -/
def pieceStart (seg : Segment) (t : Nat) : Nat :=
  if t < img.lbStart then seg.dst
  else if t < img.lbEnd then max seg.dst img.lbStart
  else max seg.dst img.lbEnd

/-- The piece that has the byte at `t` has file bytes. -/
def Segment.Written (seg : Segment) (t : Nat) : Prop :=
  pieceStart img seg t - seg.dst < seg.filesz

def pieces (buffer : Nat) (seg : Segment) : List Segment :=
  let r := relocateSegment img buffer seg
  r.early.toList ++ r.seg :: r.late

/-- Beside the bounce buffer's shadow of coreboot. -/
structure Segment.Quiet (buffer : Nat) (seg : Segment) : Prop where
  file : seg.filesz ≤ seg.memsz
  plain : seg.filesz = 0 ∨ seg.compression = cbfsCompressNone
  small : seg.dst + seg.memsz < 2 ^ 32
  beside : seg.dst + seg.memsz ≤ buffer ∨ buffer ≤ seg.dst ∧
    seg.dst + seg.memsz ≤ buffer + (img.lbEnd - img.lbStart) ∧
    buffer + (img.lbEnd - img.lbStart) < 2 ^ 32

/-- A segment the loader handles well: below the buffer, and the buffer above
coreboot where it is needed. -/
structure Segment.Fits (buffer : Nat) (seg : Segment) : Prop where
  file : seg.filesz ≤ seg.memsz
  plain : seg.filesz = 0 ∨ seg.compression = cbfsCompressNone
  small : seg.dst + seg.memsz < 2 ^ 32
  below : seg.dst + seg.memsz < buffer
  shadow : seg.Overlaps img → img.lbEnd ≤ buffer ∧ buffer + (img.lbEnd - img.lbStart) < 2 ^ 32

variable {img} {buffer : Nat} {seg p : Segment} {mach : Machine}

theorem Segment.Fits.quiet (h : seg.Fits img buffer) : seg.Quiet img buffer :=
  ⟨h.file, h.plain, h.small, .inl (Nat.le_of_lt h.below)⟩

theorem overlaps_iff (hsmall : seg.dst + seg.memsz < 2 ^ 32) :
    seg.Overlaps img ↔ img.lbStart < seg.dst + seg.memsz ∧ seg.dst < img.lbEnd := by
  unfold Segment.Overlaps overlapsCoreboot
  simp only [u32_eq hsmall, decide_eq_true_eq]
  omega

theorem finishSegment_quiet (h : seg.Quiet img buffer) (hlen : len ≤ seg.memsz) (m : Ram) :
    finishSegment img buffer seg len m =
      if len < seg.memsz then memset m (seg.dst + len) 0 (seg.memsz - len) else m := by
  have hsmall := h.small
  have hend : u32 (seg.dst + seg.memsz) = seg.dst + seg.memsz := u32_eq hsmall
  have hmiddle : u32 (seg.dst + len) = seg.dst + len := u32_eq (by omega)
  unfold finishSegment
  simp only [hend, hmiddle, Nat.add_lt_add_iff_left, Nat.add_sub_add_left]
  rcases h.beside with hbelow | ⟨hlo, hhi, hfits⟩
  · rw [if_neg (by omega)]
  · rw [if_neg (by omega : ¬ seg.dst < buffer), u32_eq hfits,
      if_neg (by omega : ¬ seg.dst + seg.memsz > buffer + (img.lbEnd - img.lbStart)), ite_self]

theorem memset_fill_apply (hfile : f ≤ n) (hsmall : d + n < 2 ^ 32) (m : Ram) (g : Nat → Byte)
    (x : Nat) :
    (if f < n then memset (fill m d f g) (d + f) 0 (n - f) else fill m d f g) x =
      if sub32 x d < f then g (sub32 x d) else if sub32 x d < n then 0 else m x := by
  have hzero : sub32 x (d + f) < n - f ↔ f ≤ sub32 x d ∧ sub32 x d < n := by
    unfold sub32 u32
    omega
  split
  · show (if sub32 x (d + f) < n - f then 0 else if sub32 x d < f then g (sub32 x d) else m x) = _
    split
    · rw [if_neg (by omega), if_pos (by omega)]
    · split
      · rfl
      · rw [if_neg (by omega)]
  · show (if sub32 x d < f then g (sub32 x d) else m x) = _
    split
    · rfl
    · rw [if_neg (by omega)]

theorem loadSegment_quiet (h : seg.Quiet img buffer) (m : Ram) :
    loadSegment img mach buffer seg m = .ok (overlay m (seg.patch mach.rom)) := by
  have hfile := h.file
  unfold loadSegment
  by_cases hz : seg.filesz = 0
  · rw [if_pos hz, overlay_patch_empty hz]
  have hcomp := h.plain.resolve_left hz
  rw [if_neg hz, if_neg (by rw [hcomp]; decide), if_pos hcomp]
  simp only [finishSegment_quiet h hfile]
  congr 1
  funext x
  rw [memset_fill_apply hfile h.small]
  unfold overlay Segment.patch
  split
  · rw [if_pos (by omega), Option.getD_some]
  · split
    · rw [if_pos (by omega), Option.getD_some]
    · rw [if_neg (by omega), Option.getD_none]

-- ---------------------------------------------------------------------------
-- Pieces
-- ---------------------------------------------------------------------------

/-- `p` has what `seg` has at `[lo, hi)`, wherever it is put. -/
structure Piece (seg : Segment) (lo hi : Nat) (p : Segment) : Prop where
  memsz : p.memsz = hi - lo
  filesz : p.filesz = min (seg.filesz - (lo - seg.dst)) (hi - lo)
  src : u32 p.src = u32 (seg.src + (lo - seg.dst))
  compression : p.compression = seg.compression

theorem Piece.self (hfile : seg.filesz ≤ seg.memsz) :
    Piece seg seg.dst (seg.dst + seg.memsz) seg := by
  refine ⟨by omega, by omega, ?_, rfl⟩
  rw [Nat.sub_self, Nat.add_zero]

theorem Piece.trans (h : Piece seg lo hi p) (hdst : p.dst = lo) (h' : Piece p lo' hi' q)
    (hseg : seg.dst ≤ lo) (hlo : lo ≤ lo') (hhi : hi' ≤ hi) : Piece seg lo' hi' q := by
  refine ⟨h'.memsz, ?_, ?_, h'.compression.trans h.compression⟩
  · rw [h'.filesz, h.filesz, hdst]
    omega
  · have hsrc := h.src
    rw [h'.src, hdst]
    unfold u32 at *
    omega

theorem Piece.moved (h : Piece seg lo hi p) (dst : Nat) : Piece seg lo hi { p with dst := dst } :=
  ⟨h.memsz, h.filesz, h.src, h.compression⟩

theorem sliceFront_piece (hfile : seg.filesz ≤ seg.memsz) (hsmall : seg.dst + seg.memsz < 2 ^ 32)
    (hlen : len ≤ seg.memsz) :
    (Piece seg seg.dst (seg.dst + len) (sliceFront seg len).1 ∧
      (sliceFront seg len).1.dst = seg.dst) ∧
    Piece seg (seg.dst + len) (seg.dst + seg.memsz) (sliceFront seg len).2 ∧
      (sliceFront seg len).2.dst = seg.dst + len := by
  unfold sliceFront
  refine ⟨⟨⟨by simp, ?_, by simp, rfl⟩, rfl⟩, ⟨?_, ?_, ?_, rfl⟩, u32_eq (by omega)⟩
  · show (if seg.filesz > len then len else seg.filesz) = _
    split <;> omega
  · show sub32 seg.memsz len = _
    unfold sub32 u32
    omega
  · show (if seg.filesz > len then sub32 seg.filesz len else 0) = _
    unfold sub32 u32
    split <;> omega
  · show u32 (u32 (seg.src + len)) = _
    unfold u32
    omega

/-- The pieces of an uncompressed segment that overlaps coreboot. -/
structure Split (img : Image) (buffer : Nat) (seg : Segment) (r : Relocated) : Prop where
  early : r.early = none ∧ img.lbStart ≤ seg.dst ∨ ∃ p, r.early = some p ∧ seg.dst < img.lbStart ∧
    Piece seg seg.dst img.lbStart p ∧ p.dst = seg.dst
  mid : Piece seg (max seg.dst img.lbStart) (min (seg.dst + seg.memsz) img.lbEnd) r.seg
  dst : r.seg.dst = buffer + (max seg.dst img.lbStart - img.lbStart)
  late : r.late = [] ∧ seg.dst + seg.memsz ≤ img.lbEnd ∨ ∃ p, r.late = [p] ∧
    img.lbEnd < seg.dst + seg.memsz ∧ Piece seg img.lbEnd (seg.dst + seg.memsz) p ∧
      p.dst = img.lbEnd

/-- The piece behind coreboot comes off what starts inside it. -/
theorem sliceFront_late (hp : Piece seg lo hi p) (hdst : p.dst = lo) (hseg : seg.dst ≤ lo)
    (hlo : lo < img.lbEnd) (hhi : lo ≤ hi) (hsmall : hi < 2 ^ 32) {r : Segment × List Segment}
    (hr : (if hi > img.lbEnd then
        ((sliceFront p (sub32 img.lbEnd lo)).1, [(sliceFront p (sub32 img.lbEnd lo)).2])
      else (p, [])) = r) :
    (Piece seg lo (min hi img.lbEnd) r.1 ∧ r.1.dst = lo) ∧
      (r.2 = [] ∧ hi ≤ img.lbEnd ∨ ∃ q, r.2 = [q] ∧ img.lbEnd < hi ∧
        Piece seg img.lbEnd hi q ∧ q.dst = img.lbEnd) := by
  split at hr
  next hlate =>
    subst hr
    have hfits := img.fits
    have hlen : sub32 img.lbEnd lo = img.lbEnd - lo := by
      unfold sub32 u32
      omega
    have hmemsz := hp.memsz
    have hfilesz := hp.filesz
    obtain ⟨⟨hfront, hfdst⟩, hback, hbdst⟩ := @sliceFront_piece p (img.lbEnd - lo)
      (by omega) (by omega) (by omega)
    rw [hdst, show lo + (img.lbEnd - lo) = img.lbEnd by omega] at hfront hback hbdst
    rw [hmemsz, show lo + (hi - lo) = hi by omega] at hback
    rw [hlen, min_eq_right (by omega)]
    exact ⟨⟨hp.trans hdst hfront hseg (Nat.le_refl _) (Nat.le_of_lt hlate), hfdst.trans hdst⟩,
      .inr ⟨_, rfl, hlate, hp.trans hdst hback hseg (Nat.le_of_lt hlo) (Nat.le_refl _), hbdst⟩⟩
  next hlate =>
    subst hr
    rw [min_eq_left (by omega)]
    exact ⟨⟨hp, hdst⟩, .inl ⟨rfl, by omega⟩⟩

theorem relocateSegment_split (h : seg.Fits img buffer) (hover : seg.Overlaps img)
    (hplain : seg.compression = cbfsCompressNone) :
    Split img buffer seg (relocateSegment img buffer seg) := by
  have hsmall := h.small
  obtain ⟨hlo, hhi⟩ := (overlaps_iff hsmall).mp hover
  obtain ⟨habove, hroom⟩ := h.shadow hover
  have hlt := img.lt
  have hmove : ∀ lo, img.lbStart ≤ lo → lo < img.lbEnd →
      u32 (buffer + sub32 lo img.lbStart) = buffer + (lo - img.lbStart) := by
    intro lo _ _
    unfold sub32 u32
    omega
  unfold relocateSegment
  rw [if_neg (by rw [show overlapsCoreboot img seg = true from hover]; decide)]
  simp only [u32_eq hsmall, hplain, true_and]
  by_cases hearly : seg.dst < img.lbStart
  · obtain ⟨⟨hfront, hfdst⟩, hback, hbdst⟩ := @sliceFront_piece seg (img.lbStart - seg.dst)
      h.file hsmall (by omega)
    rw [show seg.dst + (img.lbStart - seg.dst) = img.lbStart by omega] at hfront hback hbdst
    simp only [hearly, if_true, hback.compression, hplain, true_and, hbdst]
    generalize hr : (if seg.dst + seg.memsz > img.lbEnd then (_, _) else _) = r
    obtain ⟨⟨hmid, hmdst⟩, hlate⟩ := sliceFront_late hback hbdst (Nat.le_of_lt hearly) hlt
      (Nat.le_of_lt hlo) hsmall hr
    have hstart : max seg.dst img.lbStart = img.lbStart := max_eq_right (Nat.le_of_lt hearly)
    refine ⟨.inr ⟨_, rfl, hearly, hfront, hfdst⟩, ?_, ?_, hlate⟩
    · rw [hstart]
      exact hmid.moved _
    · rw [hstart, hmdst]
      exact hmove _ (Nat.le_refl _) hlt
  · have hlb : img.lbStart ≤ seg.dst := Nat.le_of_not_lt hearly
    simp only [hearly, if_false, hplain, true_and]
    generalize hr : (if seg.dst + seg.memsz > img.lbEnd then (_, _) else _) = r
    obtain ⟨⟨hmid, hmdst⟩, hlate⟩ := sliceFront_late (Piece.self h.file) rfl (Nat.le_refl _) hhi
      (Nat.le_add_right _ _) hsmall hr
    have hstart : max seg.dst img.lbStart = seg.dst := max_eq_left hlb
    refine ⟨.inl ⟨rfl, hlb⟩, ?_, ?_, hlate⟩
    · rw [hstart]
      exact hmid.moved _
    · rw [hstart, hmdst]
      exact hmove _ hlb hhi

-- ---------------------------------------------------------------------------
-- The loop
-- ---------------------------------------------------------------------------

/-- A segment that the loop loads where it is. -/
structure Settled (img : Image) (buffer : Nat) (p : Segment) : Prop where
  quiet : p.Quiet img buffer
  apart : ¬ p.Overlaps img

def storeAll (mach : Machine) (ps : List Segment) (m : Ram) : Ram :=
  (ps.map fun p => p.patch mach.rom).foldl overlay m

theorem storeAll_append (ps qs : List Segment) (m : Ram) :
    storeAll mach (ps ++ qs) m = storeAll mach qs (storeAll mach ps m) := by
  unfold storeAll
  rw [List.map_append, List.foldl_append]

theorem Settled.relocate (h : Settled img buffer p) :
    relocateSegment img buffer p = ⟨none, p, []⟩ :=
  if_pos (Bool.eq_false_iff.mpr h.apart)

theorem loadLoop_settled (h : ∀ p ∈ ps, Settled img buffer p) (fuel : Nat) (rest : List Segment)
    (m : Ram) : loadLoop img mach buffer (fuel + ps.length) (ps ++ rest) m =
      loadLoop img mach buffer fuel rest (storeAll mach ps m) := by
  induction ps generalizing m with
  | nil => rfl
  | cons p ps ih =>
    obtain ⟨hp, hps⟩ := List.forall_mem_cons.mp h
    rw [List.length_cons, ← Nat.add_assoc, List.cons_append, loadLoop, hp.relocate]
    simp only [loadSegment_quiet hp.quiet]
    exact ih hps _

theorem Piece.plain (h : Piece seg lo hi p)
    (hplain : seg.filesz = 0 ∨ seg.compression = cbfsCompressNone) :
    p.filesz = 0 ∨ p.compression = cbfsCompressNone :=
  hplain.imp (fun hz => by rw [h.filesz, hz]; omega) fun hc => h.compression.trans hc

theorem Piece.settled (hp : Piece seg lo hi p) (h : seg.Fits img buffer)
    (hapart : p.dst + (hi - lo) ≤ img.lbStart ∨ img.lbEnd ≤ p.dst)
    (hbeside : p.dst + (hi - lo) < 2 ^ 32 ∧ (p.dst + (hi - lo) ≤ buffer ∨ buffer ≤ p.dst ∧
      p.dst + (hi - lo) ≤ buffer + (img.lbEnd - img.lbStart) ∧
      buffer + (img.lbEnd - img.lbStart) < 2 ^ 32)) : Settled img buffer p := by
  have hfilesz := hp.filesz
  rw [← hp.memsz] at hapart hbeside hfilesz
  refine ⟨⟨by omega, hp.plain h.plain, hbeside.1, hbeside.2⟩, fun hover => ?_⟩
  have := (overlaps_iff hbeside.1).mp hover
  omega

theorem Split.settled {r : Relocated} (hs : Split img buffer seg r) (h : seg.Fits img buffer)
    (hover : seg.Overlaps img) :
    (∀ p ∈ r.early, Settled img buffer p) ∧ Settled img buffer r.seg ∧
      ∀ p ∈ r.late, Settled img buffer p := by
  obtain ⟨habove, hroom⟩ := h.shadow hover
  obtain ⟨hlo, hhi⟩ := (overlaps_iff h.small).mp hover
  have hlt := img.lt
  have hbelow := h.below
  refine ⟨?_, ?_, ?_⟩
  · rcases hs.early with ⟨hnone, -⟩ | ⟨p, hsome, hearly, hp, hdst⟩
    · simp [hnone]
    · intro q hq
      obtain rfl : p = q := by simpa [hsome] using hq
      exact hp.settled h (by omega) (by omega)
  · have hdst := hs.dst
    exact hs.mid.settled h (by omega) (by omega)
  · rcases hs.late with ⟨hnil, -⟩ | ⟨p, hone, hlate, hp, hdst⟩
    · simp [hnil]
    · intro q hq
      obtain rfl : q = p := by simpa [hone] using hq
      exact hp.settled h (by omega) (by omega)

theorem relocateSegment_compressed (hover : seg.Overlaps img)
    (hcomp : seg.compression ≠ cbfsCompressNone) :
    ∃ q, relocateSegment img buffer seg = ⟨none, q, []⟩ ∧ q.filesz = seg.filesz := by
  unfold relocateSegment
  rw [if_neg (by rw [show overlapsCoreboot img seg = true from hover]; decide)]
  simp only [hcomp, false_and, if_false]
  exact ⟨_, rfl, rfl⟩

theorem loadLoop_seg (h : seg.Fits img buffer) : ∃ n, ∀ fuel rest m,
    loadLoop img mach buffer (fuel + n) (seg :: rest) m =
      loadLoop img mach buffer fuel rest (storeAll mach (pieces img buffer seg) m) := by
  unfold pieces
  by_cases hover : seg.Overlaps img
  · by_cases hplain : seg.compression = cbfsCompressNone
    · have hs := relocateSegment_split h hover hplain
      obtain ⟨hearly, hmid, hlate⟩ := hs.settled h hover
      generalize hr : relocateSegment img buffer seg = r at *
      have hrest : ∀ p ∈ r.seg :: r.late, Settled img buffer p :=
        List.forall_mem_cons.mpr ⟨hmid, hlate⟩
      rcases hs.early with ⟨hnone, -⟩ | ⟨p, hsome, -⟩
      · refine ⟨r.late.length + 1, fun fuel rest m => ?_⟩
        rw [← Nat.add_assoc, loadLoop, hr]
        simp only [hnone, loadSegment_quiet hmid.quiet]
        exact loadLoop_settled hlate fuel rest _
      · -- the loop goes back to the piece in front
        have hall : ∀ q ∈ p :: r.seg :: r.late, Settled img buffer q :=
          List.forall_mem_cons.mpr ⟨hearly p hsome, hrest⟩
        refine ⟨(p :: r.seg :: r.late).length + 1, fun fuel rest m => ?_⟩
        rw [← Nat.add_assoc, loadLoop, hr]
        simp only [hsome]
        exact loadLoop_settled hall fuel rest m
    · obtain ⟨q, hq, hfile⟩ := @relocateSegment_compressed _ buffer _ hover hplain
      have hz : q.filesz = 0 := hfile.trans (h.plain.resolve_right hplain)
      refine ⟨1, fun fuel rest m => ?_⟩
      rw [loadLoop, hq]
      unfold loadSegment
      simp only [hz, if_true, List.nil_append]
      exact congrArg _ (overlay_patch_empty hz m).symm
  · have hset : Settled img buffer seg := ⟨h.quiet, hover⟩
    rw [hset.relocate]
    exact ⟨1, @loadLoop_settled _ _ _ [seg] (by simpa using hset)⟩

theorem loadLoop_all (h : ∀ seg ∈ segs, seg.Fits img buffer) : ∃ n, ∀ fuel m,
    loadLoop img mach buffer (fuel + n) segs m =
      some (1, storeAll mach (segs.flatMap (pieces img buffer)) m) := by
  induction segs with
  | nil => exact ⟨1, fun _ _ => rfl⟩
  | cons seg rest ih =>
    obtain ⟨hseg, hrest⟩ := List.forall_mem_cons.mp h
    obtain ⟨n, hn⟩ := ih hrest
    obtain ⟨k, hk⟩ := @loadLoop_seg _ _ _ mach hseg
    refine ⟨n + k, fun fuel m => ?_⟩
    rw [← Nat.add_assoc, hk, hn, List.flatMap_cons, storeAll_append]

theorem loadLoop_mono (h : loadLoop img mach buffer fuel segs m = some r) (k : Nat) :
    loadLoop img mach buffer (fuel + k) segs m = some r := by
  induction fuel generalizing segs m with
  | zero => cases h
  | succ fuel ih =>
    rw [Nat.succ_add]
    cases segs with
    | nil => exact h
    | cons seg rest =>
      unfold loadLoop at h ⊢
      simp only at h ⊢
      split at h
      · exact ih h
      · split at h
        · exact h
        · exact ih h

-- ---------------------------------------------------------------------------
-- What the pieces store
-- ---------------------------------------------------------------------------

/-- `p` has the bytes of `seg` at `[lo, hi)`, which go where `loc` says. -/
structure Lands (img : Image) (buffer : Nat) (seg : Segment) (lo hi : Nat) (p : Segment) :
    Prop where
  piece : Piece seg lo hi p
  within : seg.dst ≤ lo ∧ hi ≤ seg.dst + seg.memsz
  small : p.dst + (hi - lo) < 2 ^ 32
  place : ∀ t, lo ≤ t → t < hi → loc img buffer t = p.dst + (t - lo) ∧ pieceStart img seg t = lo

theorem Lands.patch (h : Lands img buffer seg lo hi p) (hx : x < 2 ^ 32) :
    p.patch rom x = if lo - seg.dst < seg.filesz ∧ p.dst ≤ x ∧ x < p.dst + (hi - lo) then
      some (seg.byte rom (lo + (x - p.dst))) else none := by
  obtain ⟨hlo, -⟩ := h.within
  have hsmall := h.small
  have hfile := h.piece.filesz
  have hsrc := h.piece.src
  have hin : sub32 x p.dst < hi - lo ↔ p.dst ≤ x ∧ x < p.dst + (hi - lo) := by
    unfold sub32 u32
    omega
  unfold Segment.patch Segment.byte
  rw [h.piece.memsz]
  by_cases hc : lo - seg.dst < seg.filesz ∧ p.dst ≤ x ∧ x < p.dst + (hi - lo)
  · rw [if_pos hc, if_pos ⟨by omega, hin.mpr hc.2⟩]
    have hoff : sub32 x p.dst = x - p.dst := by
      unfold sub32 u32
      omega
    have hrom : u32 (p.src + (x - p.dst)) = u32 (seg.src + (lo + (x - p.dst) - seg.dst)) := by
      unfold u32 at *
      omega
    have hzero : x - p.dst < p.filesz ↔ lo + (x - p.dst) - seg.dst < seg.filesz := by omega
    simp only [hoff, hrom, hzero]
  · rw [if_neg hc, if_neg fun h => hc ⟨by omega, hin.mp h.2⟩]

theorem Settled.lands (h : Settled img buffer seg) : Lands img buffer seg seg.dst
    (seg.dst + seg.memsz) seg := by
  have hsmall := h.quiet.small
  have hapart := mt (overlaps_iff hsmall).mpr h.apart
  refine ⟨Piece.self h.quiet.file, ⟨Nat.le_refl _, Nat.le_refl _⟩, by omega, fun t hlo hhi => ?_⟩
  unfold loc pieceStart
  have hlt := img.lt
  have hout : t < img.lbStart ∨ img.lbEnd ≤ t := by omega
  rw [if_neg (by omega)]
  refine ⟨by omega, ?_⟩
  split
  · rfl
  · rw [if_neg (by omega), max_eq_left (by omega)]

theorem Split.lands {r : Relocated} (hs : Split img buffer seg r) (h : seg.Fits img buffer)
    (hover : seg.Overlaps img) :
    (∀ p ∈ r.early, seg.dst < img.lbStart ∧ Lands img buffer seg seg.dst img.lbStart p) ∧
      Lands img buffer seg (max seg.dst img.lbStart) (min (seg.dst + seg.memsz) img.lbEnd) r.seg ∧
      ∀ p ∈ r.late, img.lbEnd < seg.dst + seg.memsz ∧
        Lands img buffer seg img.lbEnd (seg.dst + seg.memsz) p := by
  have hsmall := h.small
  obtain ⟨habove, hroom⟩ := h.shadow hover
  obtain ⟨hlo, hhi⟩ := (overlaps_iff hsmall).mp hover
  have hlt := img.lt
  refine ⟨?_, ?_, ?_⟩
  · rcases hs.early with ⟨hnone, -⟩ | ⟨p, hsome, hearly, hp, hdst⟩
    · simp [hnone]
    · intro q hq
      obtain rfl : p = q := by simpa [hsome] using hq
      refine ⟨hearly, hp, ⟨Nat.le_refl _, Nat.le_of_lt hlo⟩, by omega, fun t htlo hthi => ?_⟩
      unfold loc pieceStart
      rw [if_neg (by omega), if_pos hthi]
      exact ⟨by omega, rfl⟩
  · have hdst := hs.dst
    refine ⟨hs.mid, ⟨le_max_left _ _, min_le_left _ _⟩, by omega, fun t htlo hthi => ?_⟩
    unfold loc pieceStart
    rw [if_pos (by omega), if_neg (by omega), if_pos (by omega)]
    exact ⟨by omega, rfl⟩
  · rcases hs.late with ⟨hnil, -⟩ | ⟨p, hone, hlate, hp, hdst⟩
    · simp [hnil]
    · intro q hq
      obtain rfl : q = p := by simpa [hone] using hq
      refine ⟨hlate, hp, ⟨Nat.le_of_lt hhi, Nat.le_refl _⟩, by omega, fun t htlo hthi => ?_⟩
      unfold loc pieceStart
      rw [if_neg (by omega), if_neg (by omega), if_neg (by omega), max_eq_right (by omega)]
      exact ⟨by omega, rfl⟩

/-- Each piece with file bytes lands, and each byte of a segment with file bytes is in one. -/
theorem pieces_lands (h : seg.Fits img buffer) :
    (∀ p ∈ pieces img buffer seg, p.filesz = 0 ∨ ∃ lo hi, Lands img buffer seg lo hi p) ∧
      (0 < seg.filesz → ∀ t, seg.Has t → ∃ p ∈ pieces img buffer seg, ∃ lo hi,
        Lands img buffer seg lo hi p ∧ lo ≤ t ∧ t < hi) := by
  unfold pieces
  by_cases hover : seg.Overlaps img
  · by_cases hplain : seg.compression = cbfsCompressNone
    · have hs := relocateSegment_split h hover hplain
      obtain ⟨hearly, hmid, hlate⟩ := hs.lands h hover
      generalize relocateSegment img buffer seg = r at *
      refine ⟨fun p hp => .inr ?_, fun _ t ht => ?_⟩
      · rcases List.mem_append.mp hp with hp | hp
        · exact ⟨_, _, (hearly p (Option.mem_toList.mp hp)).2⟩
        · rcases List.mem_cons.mp hp with rfl | hp
          · exact ⟨_, _, hmid⟩
          · exact ⟨_, _, (hlate p hp).2⟩
      · obtain ⟨htlo, hthi⟩ := ht
        rcases Nat.lt_or_ge t img.lbStart with hfront | hfront
        · rcases hs.early with ⟨-, hle⟩ | ⟨p, hsome, -⟩
          · omega
          · exact ⟨p, by simp [hsome], _, _, (hearly p hsome).2, htlo, hfront⟩
        · rcases Nat.lt_or_ge t img.lbEnd with hback | hback
          · exact ⟨r.seg, by simp, _, _, hmid, by omega, by omega⟩
          · rcases hs.late with ⟨-, hle⟩ | ⟨p, hone, -⟩
            · omega
            · have hp : p ∈ r.late := by simp [hone]
              exact ⟨p, by simp [hp], _, _, (hlate p hp).2, hback, hthi⟩
    · obtain ⟨q, hq, hfile⟩ := @relocateSegment_compressed _ buffer _ hover hplain
      have hz := h.plain.resolve_right hplain
      rw [hq]
      exact ⟨fun p hp => .inl (by simp_all), fun hpos => absurd hz (by omega)⟩
  · have hset : Settled img buffer seg := ⟨h.quiet, hover⟩
    rw [hset.relocate]
    exact ⟨fun p hp => .inr ⟨_, _, by simpa [List.mem_singleton.mp hp] using hset.lands⟩,
      fun _ t ht => ⟨seg, by simp, _, _, hset.lands, ht.1, ht.2⟩⟩

theorem pieces_sound (h : seg.Fits img buffer) (hp : p ∈ pieces img buffer seg) (hx : x < 2 ^ 32)
    (hb : p.patch rom x = some b) : ∃ t, seg.Has t ∧ x = loc img buffer t ∧
      seg.Written img t ∧ b = seg.byte rom t := by
  rcases (pieces_lands h).1 p hp with hz | ⟨lo, hi, hl⟩
  · rw [Segment.patch, if_neg (by omega)] at hb
    cases hb
  · rw [hl.patch hx] at hb
    split at hb
    next hc =>
      obtain ⟨hfile, hxlo, hxhi⟩ := hc
      obtain ⟨hloc, hstart⟩ := hl.place (lo + (x - p.dst)) (by omega) (by omega)
      obtain ⟨hlo, hhi⟩ := hl.within
      refine ⟨lo + (x - p.dst), ⟨by omega, by omega⟩, by omega, ?_, (Option.some.inj hb).symm⟩
      rwa [Segment.Written, hstart]
    next => cases hb

theorem pieces_complete (h : seg.Fits img buffer) (ht : seg.Has t) (hw : seg.Written img t) :
    loc img buffer t < 2 ^ 32 ∧
      ∃ p ∈ pieces img buffer seg, p.patch rom (loc img buffer t) ≠ none := by
  obtain ⟨p, hp, lo, hi, hl, hlo, hhi⟩ := (pieces_lands h).2 (Nat.zero_lt_of_lt hw) t ht
  obtain ⟨hloc, hstart⟩ := hl.place t hlo hhi
  have hsmall := hl.small
  rw [Segment.Written, hstart] at hw
  refine ⟨by omega, p, hp, ?_⟩
  rw [hl.patch (by omega), if_pos ⟨hw, by omega, by omega⟩]
  exact Option.some_ne_none _

end Image

end ItxLlama.Coreboot.SelfBoot
