import ItxLlama.Coreboot.SelfBootPieces
import ItxLlama.Coreboot.SelfBootPlacement
import Mathlib.Data.List.Forall2
import Mathlib.Data.List.Pairwise

/-!
# What the payload finds in memory

The memory at entry, byte for byte: what a piece with file bytes stored, or
what was there before. A payload is loaded faithfully when every segment has
file bytes in each of its pieces and none ends behind the end of coreboot
that it overlaps.
-/

namespace ItxLlama.Coreboot.SelfBoot

open Lib.Word
open Lib.Overlay

section Image

variable {img : Image} {buffer : Nat} {seg p : Segment} {mach : Machine} {segs : List Segment}

-- ---------------------------------------------------------------------------
-- The memory at entry
-- ---------------------------------------------------------------------------

theorem bounceHigh_concat (segs : List Segment) (seg : Segment) : bounceHigh img (segs ++ [seg]) =
    if overlapsCoreboot img seg = false then bounceHigh img segs
    else if u32 (seg.dst + seg.memsz) > bounceHigh img segs then u32 (seg.dst + seg.memsz)
    else bounceHigh img segs := by
  unfold bounceHigh
  rw [List.foldl_append, List.foldl_cons, List.foldl_nil]

theorem bounceHigh_le_iff (segs : List Segment) (k : Nat) : bounceHigh img segs ≤ k ↔
    img.lbEnd ≤ k ∧ ∀ seg ∈ segs, seg.Overlaps img → u32 (seg.dst + seg.memsz) ≤ k := by
  induction segs using List.reverseRecOn with
  | nil => simp [bounceHigh]
  | append_singleton segs seg ih =>
    rw [bounceHigh_concat, List.forall_mem_append, List.forall_mem_singleton, ← and_assoc, ← ih]
    by_cases hover : seg.Overlaps img
    · rw [if_neg (by simpa [Segment.Overlaps] using hover)]
      split
      · exact ⟨fun h => ⟨by omega, fun _ => h⟩, fun h => h.2 hover⟩
      · exact ⟨fun h => ⟨h, fun _ => by omega⟩, fun h => h.1⟩
    · rw [if_pos (by simpa [Segment.Overlaps] using hover)]
      exact ⟨fun h => ⟨h, fun ho => absurd ho hover⟩, fun h => h.1⟩

theorem bounceHigh_congr {segs' : List Segment}
    (h : ∀ d n, (∃ s ∈ segs, s.dst = d ∧ s.memsz = n) ↔ ∃ s ∈ segs', s.dst = d ∧ s.memsz = n) :
    bounceHigh img segs = bounceHigh img segs' := by
  have hover : ∀ {s s' : Segment}, s.dst = s'.dst → s.memsz = s'.memsz →
      s.Overlaps img → s'.Overlaps img := by
    intro s s' hd hn ho
    unfold Segment.Overlaps overlapsCoreboot at *
    rwa [← hd, ← hn]
  refine eq_of_forall_ge_iff fun k => ?_
  rw [bounceHigh_le_iff, bounceHigh_le_iff]
  refine and_congr_right fun _ => ⟨fun hle s hs ho => ?_, fun hle s hs ho => ?_⟩
  · obtain ⟨s', hs', hd, hn⟩ := (h s.dst s.memsz).mpr ⟨s, hs, rfl, rfl⟩
    rw [← hd, ← hn]
    exact hle s' hs' (hover hd.symm hn.symm ho)
  · obtain ⟨s', hs', hd, hn⟩ := (h s.dst s.memsz).mp ⟨s, hs, rfl, rfl⟩
    rw [← hd, ← hn]
    exact hle s' hs' (hover hd.symm hn.symm ho)

/-- A list the loader handles well: segments apart from each other, and the
buffer within the address space where it is needed. -/
structure Ready (img : Image) (mem : List LbMemoryRange) (segs : List Segment) : Prop where
  fits : ∀ seg ∈ segs, seg.Fits img (bounceBuffer img mem segs)
  apart : ∀ seg ∈ segs, ∀ seg' ∈ segs, ∀ t, seg.Has t → seg'.Has t → seg = seg'
  room : ∀ seg ∈ segs, seg.Overlaps img →
    bounceBuffer img mem segs + (bounceHigh img segs - img.lbStart) < 2 ^ 32

theorem loc_inj (ht : t < buffer) (ht' : t' < buffer) (h : loc img buffer t = loc img buffer t') :
    t = t' := by
  unfold loc at h
  split at h <;> split at h <;> omega

theorem Segment.Fits.loc_lt (h : seg.Fits img buffer) (ht : seg.Has t) :
    loc img buffer t < 2 ^ 32 ∧ (loc img buffer t < buffer + (img.lbEnd - img.lbStart)) := by
  obtain ⟨htlo, hthi⟩ := ht
  have hsmall := h.small
  have hbelow := h.below
  unfold loc
  split
  next hin =>
    have := (h.shadow ((overlaps_iff hsmall).mpr (by omega))).2
    omega
  next => omega

theorem storeAll_loc (hfits : ∀ seg ∈ segs, seg.Fits img buffer)
    (hapart : ∀ seg ∈ segs, ∀ seg' ∈ segs, ∀ t, seg.Has t → seg'.Has t → seg = seg')
    (hs : seg ∈ segs) (ht : seg.Has t) (m : Ram) :
    (seg.Written img t → storeAll mach (segs.flatMap (pieces img buffer)) m (loc img buffer t) =
      seg.byte mach.rom t) ∧
    (¬ seg.Written img t → storeAll mach (segs.flatMap (pieces img buffer)) m (loc img buffer t) =
      m (loc img buffer t)) := by
  have hloc := ((hfits seg hs).loc_lt ht).1
  -- a patch with a value there has the byte of this segment
  have hagree : ∀ q ∈ (segs.flatMap (pieces img buffer)).map fun p => p.patch mach.rom,
      ∀ b, q (loc img buffer t) = some b → seg.Written img t ∧ b = seg.byte mach.rom t := by
    intro q hq b hb
    obtain ⟨p, hp, rfl⟩ := List.mem_map.mp hq
    obtain ⟨s, hss, hps⟩ := List.mem_flatMap.mp hp
    obtain ⟨t', ht', heq, hw, hbyte⟩ := pieces_sound (hfits s hss) hps hloc hb
    have htb := (hfits seg hs).below
    have htb' := (hfits s hss).below
    have hthi := ht.2
    have hthi' := ht'.2
    obtain rfl := loc_inj (by omega) (by omega) heq
    obtain rfl := hapart s hss seg hs t ht' ht
    exact ⟨hw, hbyte⟩
  refine ⟨fun hw => foldl_overlay_some (fun q hq b hb => (hagree q hq b hb).2) ?_,
    fun hw => foldl_overlay_none fun q hq => ?_⟩
  · obtain ⟨-, p, hp, hsome⟩ := @pieces_complete _ _ _ _ mach.rom (hfits seg hs) ht hw
    exact ⟨_, List.mem_map.mpr ⟨p, List.mem_flatMap.mpr ⟨seg, hs, hp⟩, rfl⟩, hsome⟩
  · by_contra hne
    obtain ⟨b, hb⟩ := Option.ne_none_iff_exists'.mp hne
    exact hw (hagree q hq b hb).1

theorem storeAll_behind (hfits : ∀ seg ∈ segs, seg.Fits img buffer) (hx : x < 2 ^ 32)
    (hbehind : buffer + (img.lbEnd - img.lbStart) ≤ x) (m : Ram) :
    storeAll mach (segs.flatMap (pieces img buffer)) m x = m x := by
  refine foldl_overlay_none fun q hq => ?_
  obtain ⟨p, hp, rfl⟩ := List.mem_map.mp hq
  obtain ⟨s, hs, hps⟩ := List.mem_flatMap.mp hp
  by_contra hne
  obtain ⟨b, hb⟩ := Option.ne_none_iff_exists'.mp hne
  obtain ⟨t, ht, rfl, -⟩ := pieces_sound (hfits s hs) hps hx hb
  have := ((hfits s hs).loc_lt ht).2
  omega

/-- The byte at `t` is entered with what the buffer had behind the shadow of coreboot. -/
def Overrun (img : Image) (segs : List Segment) (t : Nat) : Prop :=
  img.lbEnd ≤ t ∧ t < bounceHigh img segs

/-- The memory that a load of `segs` into `m` leaves for the payload. -/
def entered (img : Image) (mach : Machine) (mem : List LbMemoryRange) (segs : List Segment)
    (entry : Nat) (m : Ram) : Loaded :=
  ⟨entry, storeAll mach (segs.flatMap (pieces img (bounceBuffer img mem segs))) m,
    bounceBuffer img mem segs, bounceSize img segs⟩

theorem bounceHigh_bounds (segs : List Segment) :
    img.lbEnd ≤ bounceHigh img segs ∧ bounceHigh img segs < 2 ^ 32 := by
  have hfits := img.fits
  refine ⟨((bounceHigh_le_iff segs _).mp (Nat.le_refl _)).1, ?_⟩
  have := (@bounceHigh_le_iff img segs (2 ^ 32 - 1)).mpr
    ⟨by omega, fun seg _ _ => Nat.le_pred_of_lt (Nat.mod_lt _ (by decide))⟩
  omega

theorem bounceSize_eq (segs : List Segment) :
    bounceSize img segs = bounceHigh img segs - img.lbStart := by
  obtain ⟨hlo, hhi⟩ := @bounceHigh_bounds img segs
  have hlt := img.lt
  unfold bounceSize sub32 u32
  omega

theorem Overrun.overlaps (h : Overrun img segs t) : ∃ seg ∈ segs, seg.Overlaps img ∧
    img.lbEnd < u32 (seg.dst + seg.memsz) := by
  by_contra hnone
  have hle := (@bounceHigh_le_iff img segs img.lbEnd).mpr
    ⟨Nat.le_refl _, fun seg hs ho => Nat.le_of_not_lt fun hlt => hnone ⟨seg, hs, ho, hlt⟩⟩
  have := h.1
  have := h.2
  omega

/-- What the last copy leaves at an address of the 32-bit space. -/
theorem jmpToElfEntry_apply {mem : List LbMemoryRange} (ht : t < 2 ^ 32) (entry : Nat) (m : Ram) :
    jmpToElfEntry img (entered img mach mem segs entry m) t =
      (entered img mach mem segs entry m).ram
        (if img.lbStart ≤ t ∧ t < bounceHigh img segs then
          u32 (bounceBuffer img mem segs + (t - img.lbStart)) else t) := by
  have hlt := img.lt
  obtain ⟨hlo, hhi⟩ := @bounceHigh_bounds img segs
  have hin : sub32 t img.lbStart < bounceSize img segs ↔
      img.lbStart ≤ t ∧ t < bounceHigh img segs := by
    rw [bounceSize_eq]
    unfold sub32 u32
    omega
  show (if sub32 t img.lbStart < bounceSize img segs then _ else _) = _
  by_cases hc : img.lbStart ≤ t ∧ t < bounceHigh img segs
  · have hoff : sub32 t img.lbStart = t - img.lbStart := by
      unfold sub32 u32
      omega
    rw [if_pos hc, if_pos (hin.mpr hc), hoff]
    rfl
  · rw [if_neg hc, if_neg (mt hin.mp hc)]

/-- Behind coreboot the last copy brings what the load left alone. -/
theorem Ready.entered_overrun {mem : List LbMemoryRange} (h : Ready img mem segs)
    (ht : Overrun img segs t) (entry : Nat) (m : Ram) :
    jmpToElfEntry img (entered img mach mem segs entry m) t =
      m (bounceBuffer img mem segs + (t - img.lbStart)) := by
  obtain ⟨htlo, hthi⟩ := ht
  obtain ⟨s, hs, hover, -⟩ := Overrun.overlaps ⟨htlo, hthi⟩
  have hroom := h.room s hs hover
  have hlt := img.lt
  obtain ⟨-, hhigh⟩ := @bounceHigh_bounds img segs
  rw [jmpToElfEntry_apply (by omega), if_pos (by omega), u32_eq (by omega)]
  exact storeAll_behind h.fits (by omega) (by omega) m

theorem Ready.entered_loc {mem : List LbMemoryRange} (h : Ready img mem segs) (hs : seg ∈ segs)
    (ht : seg.Has t) (hover : ¬ Overrun img segs t) (entry : Nat) (m : Ram) :
    jmpToElfEntry img (entered img mach mem segs entry m) t =
      storeAll mach (segs.flatMap (pieces img (bounceBuffer img mem segs))) m
        (loc img (bounceBuffer img mem segs) t) := by
  obtain ⟨htlo, hthi⟩ := ht
  have hsmall := (h.fits seg hs).small
  obtain ⟨hlo, -⟩ := @bounceHigh_bounds img segs
  unfold Overrun at hover
  rw [jmpToElfEntry_apply (by omega)]
  unfold entered loc
  by_cases hin : img.lbStart ≤ t ∧ t < img.lbEnd
  · have hroom := h.room seg hs ((overlaps_iff hsmall).mpr (by omega))
    rw [if_pos hin, if_pos (by omega), u32_eq (by omega)]
  · rw [if_neg hin, if_neg (by omega)]

/-- A segment is as it should be, whatever was in memory before, if and only if its
pieces have file bytes and none of it is overrun. -/
theorem Ready.entered_iff {mem : List LbMemoryRange} (h : Ready img mem segs) (hs : seg ∈ segs)
    (entry : Nat) :
    (∀ m t, seg.Has t →
      jmpToElfEntry img (entered img mach mem segs entry m) t = seg.byte mach.rom t) ↔
      ∀ t, seg.Has t → ¬ Overrun img segs t ∧ seg.Written img t := by
  constructor
  · intro hall t ht
    -- a memory that has another byte everywhere
    obtain ⟨c, hc⟩ : ∃ c : Byte, c ≠ seg.byte mach.rom t := by
      by_cases hz : seg.byte mach.rom t = 0
      · exact ⟨1, by rw [hz]; decide⟩
      · exact ⟨0, Ne.symm hz⟩
    have hbyte := hall (fun _ => c) t ht
    have hover : ¬ Overrun img segs t :=
      fun hover => hc ((h.entered_overrun hover entry _).symm.trans hbyte)
    refine ⟨hover, ?_⟩
    by_contra hw
    rw [h.entered_loc hs ht hover] at hbyte
    exact hc (((storeAll_loc h.fits h.apart hs ht _).2 hw).symm.trans hbyte)
  · intro hgood m t ht
    obtain ⟨hover, hw⟩ := hgood t ht
    rw [h.entered_loc hs ht hover]
    exact (storeAll_loc h.fits h.apart hs ht m).1 hw

-- ---------------------------------------------------------------------------
-- Segments that are loaded whole
-- ---------------------------------------------------------------------------

/-- Each piece has file bytes, and no piece comes behind coreboot. -/
structure Segment.Complete (img : Image) (seg : Segment) : Prop where
  file : 0 < seg.memsz → 0 < seg.filesz
  late : 0 < seg.memsz → seg.Overlaps img → seg.dst + seg.memsz ≤ img.lbEnd
  mid : 0 < seg.memsz → seg.Overlaps img → seg.dst < img.lbStart →
    img.lbStart - seg.dst < seg.filesz

theorem Segment.Fits.written_iff (h : seg.Fits img buffer) (ht : seg.Has t) :
    seg.Written img t ↔ 0 < seg.filesz ∧ (seg.Overlaps img → seg.dst < img.lbStart →
      img.lbStart ≤ t → (t < img.lbEnd → img.lbStart - seg.dst < seg.filesz) ∧
        (img.lbEnd ≤ t → img.lbEnd - seg.dst < seg.filesz)) ∧
      (seg.Overlaps img → img.lbStart ≤ seg.dst → img.lbEnd ≤ t →
        img.lbEnd - seg.dst < seg.filesz) := by
  obtain ⟨htlo, hthi⟩ := ht
  have hlt := img.lt
  rw [overlaps_iff h.small]
  unfold Segment.Written pieceStart
  split
  · omega
  · split <;> omega

theorem Ready.whole_iff {mem : List LbMemoryRange} (h : Ready img mem segs) :
    (∀ seg ∈ segs, ∀ t, seg.Has t → ¬ Overrun img segs t ∧ seg.Written img t) ↔
      ∀ seg ∈ segs, seg.Complete img := by
  have hlt := img.lt
  constructor
  · intro hall seg hs
    have hsmall := (h.fits seg hs).small
    refine ⟨fun hpos => ?_, fun hpos hover => ?_, fun hpos hover hearly => ?_⟩
    · have hhas : seg.Has seg.dst := ⟨Nat.le_refl _, by omega⟩
      exact (((h.fits seg hs).written_iff hhas).mp (hall seg hs _ hhas).2).1
    · by_contra hlate
      have hin := (overlaps_iff hsmall).mp hover
      have hhas : seg.Has img.lbEnd := ⟨by omega, by omega⟩
      have hend := ((bounceHigh_le_iff segs _).mp (Nat.le_refl _)).2 seg hs hover
      rw [u32_eq hsmall] at hend
      exact (hall seg hs _ hhas).1 ⟨Nat.le_refl _, by omega⟩
    · have hin := (overlaps_iff hsmall).mp hover
      have hhas : seg.Has img.lbStart := ⟨by omega, by omega⟩
      exact ((((h.fits seg hs).written_iff hhas).mp (hall seg hs _ hhas).2).2.1 hover hearly
        (Nat.le_refl _)).1 hlt
  · intro hall seg hs t ht
    have hpos : 0 < seg.memsz := by
      have := ht.1
      have := ht.2
      omega
    refine ⟨fun hrun => ?_, ((h.fits seg hs).written_iff ht).mpr
      ⟨(hall seg hs).file hpos, fun hover hearly _ => ?_, fun hover _ hge => ?_⟩⟩
    · obtain ⟨s, hss, hover, hend⟩ := hrun.overlaps
      have hsmall := (h.fits s hss).small
      rw [u32_eq hsmall] at hend
      have hin := (overlaps_iff hsmall).mp hover
      have := (hall s hss).late (by omega) hover
      omega
    · have hlate := (hall seg hs).late hpos hover
      have := ht.2
      exact ⟨fun _ => (hall seg hs).mid hpos hover hearly, fun hge => by omega⟩
    · have hlate := (hall seg hs).late hpos hover
      have := ht.2
      omega

end Image

-- ---------------------------------------------------------------------------
-- From the payload to the list
-- ---------------------------------------------------------------------------

def PayloadSegment.fileLen (ps : PayloadSegment) : Nat :=
  match ps.type with
  | .code | .data => min ps.len ps.memLen
  | _ => 0

/-- The byte that belongs at offset `k`. -/
def PayloadSegment.byte (rom : Nat → Byte) (firstSegment : Nat) (ps : PayloadSegment) (k : Nat) :
    Byte :=
  if k < ps.fileLen then rom (u32 (firstSegment + ps.offset + k)) else 0

/-- Uncompressed code, data and BSS segments apart from each other, and the entry point. -/
structure SelfPayload (body : List PayloadSegment) (entry : PayloadSegment) : Prop where
  kind : ∀ ps ∈ body, (ps.type = .code ∨ ps.type = .data) ∧ ps.compression = cbfsCompressNone ∨
    ps.type = .bss
  apart : body.Pairwise fun a b =>
    Disjoint a.loadAddr (a.loadAddr + a.memLen) b.loadAddr (b.loadAddr + b.memLen)
  last : entry.type = .entry

/-- `seg` is the list element made of `ps`. -/
structure Made (firstSegment : Nat) (ps : PayloadSegment) (seg : Segment) : Prop where
  dst : seg.dst = u32 ps.loadAddr
  memsz : seg.memsz = ps.memLen
  filesz : seg.filesz = ps.fileLen
  plain : seg.filesz = 0 ∨ seg.compression = cbfsCompressNone ∧
    seg.src = u32 (firstSegment + ps.offset)

theorem newSegment_made {ps : PayloadSegment} (firstSegment : Nat) (new : Segment)
    (h : (ps.type = .code ∨ ps.type = .data) ∧ ps.compression = cbfsCompressNone ∨ ps.type = .bss) :
    ∃ seg, newSegment firstSegment new ps = some seg ∧ Made firstSegment ps seg := by
  have hmin : (if ps.len > ps.memLen then ps.memLen else ps.len) = min ps.len ps.memLen := by
    split <;> omega
  unfold newSegment
  rcases h with ⟨htype | htype, hcomp⟩ | htype
  · rw [htype, hmin]
    exact ⟨_, rfl, rfl, rfl, by rw [PayloadSegment.fileLen, htype], .inr ⟨hcomp, rfl⟩⟩
  · rw [htype, hmin]
    exact ⟨_, rfl, rfl, rfl, by rw [PayloadSegment.fileLen, htype], .inr ⟨hcomp, rfl⟩⟩
  · rw [htype]
    exact ⟨_, rfl, rfl, rfl, by rw [PayloadSegment.fileLen, htype], .inl rfl⟩

theorem insertSegment_perm (new : Segment) (next : PayloadSegment) (segs : List Segment) :
    (insertSegment new next segs).Perm (new :: segs) := by
  unfold insertSegment
  split
  · rfl
  · exact List.perm_append_singleton new segs

theorem buildSelfSegmentList_spec {body : List PayloadSegment} {entry : PayloadSegment}
    (hkind : ∀ ps ∈ body, (ps.type = .code ∨ ps.type = .data) ∧ ps.compression = cbfsCompressNone ∨
      ps.type = .bss) (hlast : entry.type = .entry) (firstSegment : Nat) (heap : Nat → Segment)
    (n : Nat) (acc : List Segment) :
    ∃ segs new, buildSelfSegmentList firstSegment heap n acc (body ++ [entry]) =
        some ⟨segs, u32 entry.loadAddr, 1⟩ ∧
      segs.Perm (new ++ acc) ∧ List.Forall₂ (Made firstSegment) body new := by
  induction body generalizing n acc with
  | nil =>
    refine ⟨acc, [], ?_, .refl _, .nil⟩
    rw [List.nil_append, buildSelfSegmentList, hlast]
  | cons ps body ih =>
    obtain ⟨hps, hbody⟩ := List.forall_mem_cons.mp hkind
    obtain ⟨seg, hseg, hmade⟩ := newSegment_made firstSegment (heap n) hps
    obtain ⟨next, hnext⟩ : ∃ next, (body ++ [entry]).head? = some next := by
      cases body <;> simp
    obtain ⟨segs, new, hbuild, hperm, hall⟩ := ih hbody (n + 1) (insertSegment seg next acc)
    refine ⟨segs, seg :: new, ?_, hperm.trans ?_, .cons hmade hall⟩
    · rw [List.cons_append, buildSelfSegmentList]
      rcases hps with ⟨htype | htype, -⟩ | htype <;>
        simp only [htype, hnext, hseg, Option.bind_eq_bind, Option.bind_some, hbuild]
    · exact (List.Perm.append_left new (insertSegment_perm seg next acc)).trans List.perm_middle

/-- Where the segments go. -/
def destinations (body : List PayloadSegment) : List Segment :=
  body.map fun ps => ⟨u32 ps.loadAddr, 0, ps.memLen, 0, cbfsCompressNone⟩

section Payload

variable {img : Image} {mach : Machine} {mem : List LbMemoryRange} {firstSegment : Nat}
  {heap : Nat → Segment} {body : List PayloadSegment} {entry : PayloadSegment}

def PayloadSegment.Overlaps (img : Image) (ps : PayloadSegment) : Prop :=
  img.lbStart < ps.loadAddr + ps.memLen ∧ ps.loadAddr < img.lbEnd

/-- The placement is sound where it matters: the segments end below 4 GiB, and
where one overlaps coreboot, the bounce buffer is in RAM and clear of coreboot. -/
structure WellPlaced (img : Image) (mem : List LbMemoryRange) (body : List PayloadSegment) :
    Prop where
  below : ∀ ps ∈ body, ps.loadAddr + ps.memLen < 2 ^ 32
  buffer : (∃ ps ∈ body, ps.Overlaps img) →
    bounceAreaSize img (destinations body) < 2 ^ 32 ∧ Sound img mem (destinations body)

/-- The load gives an entry point. -/
def Enters (img : Image) (mach : Machine) (mem : List LbMemoryRange) (firstSegment : Nat)
    (heap : Nat → Segment) (payload : List PayloadSegment) (m : Ram) (l : Loaded) : Prop :=
  ∃ fuel, selfload img mach mem firstSegment heap payload fuel m = some l ∧ l.entry ≠ 0

/-- At entry each segment is its file bytes and then zeros. -/
def Faithful (img : Image) (mach : Machine) (mem : List LbMemoryRange) (firstSegment : Nat)
    (body : List PayloadSegment) (entry : PayloadSegment) : Prop :=
  ∀ heap m l, Enters img mach mem firstSegment heap (body ++ [entry]) m l →
    ∀ ps ∈ body, ∀ k < ps.memLen,
      jmpToElfEntry img l (ps.loadAddr + k) = ps.byte mach.rom firstSegment k

/-- Each piece of the segment has file bytes, and over coreboot it ends with it. -/
structure PayloadSegment.Complete (img : Image) (ps : PayloadSegment) : Prop where
  file : 0 < ps.memLen → 0 < ps.fileLen
  late : 0 < ps.memLen → ps.Overlaps img → ps.loadAddr + ps.memLen ≤ img.lbEnd
  mid : 0 < ps.memLen → ps.Overlaps img → ps.loadAddr < img.lbStart →
    img.lbStart - ps.loadAddr < ps.fileLen

theorem Made.complete_iff {ps : PayloadSegment} {seg : Segment} (h : Made firstSegment ps seg)
    (hbelow : ps.loadAddr + ps.memLen < 2 ^ 32) : seg.Complete img ↔ ps.Complete img := by
  have hdst : seg.dst = ps.loadAddr := h.dst.trans (u32_eq (by omega))
  have hover : seg.Overlaps img ↔ ps.Overlaps img := by
    rw [overlaps_iff (by rw [hdst, h.memsz]; exact hbelow), hdst, h.memsz]
    rfl
  refine ⟨fun hc => ⟨?_, ?_, ?_⟩, fun hc => ⟨?_, ?_, ?_⟩⟩
  · simpa only [h.memsz, h.filesz] using hc.file
  · simpa only [h.memsz, hdst, hover] using hc.late
  · simpa only [h.memsz, h.filesz, hdst, hover] using hc.mid
  · simpa only [h.memsz, h.filesz] using hc.file
  · simpa only [h.memsz, hdst, hover] using hc.late
  · simpa only [h.memsz, h.filesz, hdst, hover] using hc.mid

theorem Made.byte_eq {ps : PayloadSegment} {seg : Segment} (h : Made firstSegment ps seg)
    (hdst : seg.dst = ps.loadAddr) (rom : Nat → Byte) (k : Nat) :
    seg.byte rom (ps.loadAddr + k) = ps.byte rom firstSegment k := by
  unfold Segment.byte PayloadSegment.byte
  rw [hdst, Nat.add_sub_cancel_left, h.filesz]
  split
  next hk =>
    have hsrc := (h.plain.resolve_left (by rw [h.filesz]; omega)).2
    have hrom : u32 (seg.src + k) = u32 (firstSegment + ps.offset + k) := by
      rw [hsrc]
      unfold u32
      omega
    rw [hrom]
  next => rfl

theorem exists_made_left {new : List Segment} (h : List.Forall₂ (Made firstSegment) body new) :
    ∀ seg ∈ new, ∃ ps ∈ body, Made firstSegment ps seg := by
  induction h with
  | nil => simp
  | cons hmade _ ih =>
    refine List.forall_mem_cons.mpr ⟨⟨_, List.mem_cons_self, hmade⟩, fun seg hs => ?_⟩
    obtain ⟨ps, hps, hm⟩ := ih seg hs
    exact ⟨ps, List.mem_cons_of_mem _ hps, hm⟩

theorem exists_made_right {new : List Segment} (h : List.Forall₂ (Made firstSegment) body new) :
    ∀ ps ∈ body, ∃ seg ∈ new, Made firstSegment ps seg := by
  induction h with
  | nil => simp
  | cons hmade _ ih =>
    refine List.forall_mem_cons.mpr ⟨⟨_, List.mem_cons_self, hmade⟩, fun ps hps => ?_⟩
    obtain ⟨seg, hs, hm⟩ := ih ps hps
    exact ⟨seg, List.mem_cons_of_mem _ hs, hm⟩

def Segment.Apart (s s' : Segment) : Prop := ∀ t, ¬ (s.Has t ∧ s'.Has t)

instance : Std.Symm Segment.Apart := ⟨fun _ _ h t ht => h t ht.symm⟩

theorem made_apart {new : List Segment} (h : List.Forall₂ (Made firstSegment) body new)
    (hbelow : ∀ ps ∈ body, ps.loadAddr + ps.memLen < 2 ^ 32)
    (hapart : body.Pairwise fun a b =>
      Disjoint a.loadAddr (a.loadAddr + a.memLen) b.loadAddr (b.loadAddr + b.memLen)) :
    new.Pairwise Segment.Apart := by
  have hhas : ∀ {ps : PayloadSegment} {seg : Segment}, Made firstSegment ps seg →
      ps.loadAddr + ps.memLen < 2 ^ 32 → ∀ {t}, seg.Has t →
        ps.loadAddr ≤ t ∧ t < ps.loadAddr + ps.memLen := by
    intro ps seg hm hlt t ht
    have hdst : seg.dst = ps.loadAddr := hm.dst.trans (u32_eq (by omega))
    rwa [Segment.Has, hdst, hm.memsz] at ht
  induction h with
  | nil => exact .nil
  | cons hmade hrest ih =>
    obtain ⟨hb, hbs⟩ := List.forall_mem_cons.mp hbelow
    obtain ⟨ha, has⟩ := List.pairwise_cons.mp hapart
    refine .cons (fun seg hs t ht => ?_) (ih hbs has)
    obtain ⟨ps, hps, hm⟩ := exists_made_left hrest seg hs
    exact ha ps hps t ⟨hhas hmade hb ht.1, hhas hm (hbs ps hps) ht.2⟩

theorem bounceHigh_destinations {segs new : List Segment} (hperm : segs.Perm new)
    (h : List.Forall₂ (Made firstSegment) body new) :
    bounceHigh img segs = bounceHigh img (destinations body) := by
  refine bounceHigh_congr fun d n => ⟨?_, ?_⟩
  · rintro ⟨seg, hs, rfl, rfl⟩
    obtain ⟨ps, hps, hm⟩ := exists_made_left h seg (hperm.mem_iff.mp hs)
    exact ⟨_, List.mem_map.mpr ⟨ps, hps, rfl⟩, hm.dst.symm, hm.memsz.symm⟩
  · rintro ⟨seg, hs, rfl, rfl⟩
    obtain ⟨ps, hps, rfl⟩ := List.mem_map.mp hs
    obtain ⟨seg, hseg, hm⟩ := exists_made_right h ps hps
    exact ⟨seg, hperm.mem_iff.mpr hseg, hm.dst, hm.memsz⟩

/-- Where the placement is sound, the buffer is above coreboot when a segment overlaps it. -/
theorem Accepts.above {segs : List Segment} {seg : Segment} (ha : Accepts img mem segs)
    (harea : bounceAreaSize img segs < 2 ^ 32) (hsound : Sound img mem segs) (hs : seg ∈ segs)
    (hsmall : seg.dst + seg.memsz < 2 ^ 32) (hover : seg.Overlaps img) :
    img.lbEnd ≤ bounceBuffer img mem segs ∧
      bounceBuffer img mem segs + bounceAreaSize img segs ≤ 2 ^ 32 := by
  obtain ⟨e, he, hu, hend, -⟩ := ha.candidate harea
  have hceil := (e.top_le_ceiling (bounceAreaSize img segs)).2
  have hbelow := (validArea_placed hsmall (ha.checks.2 seg hs)).1
  have hin := (overlaps_iff hsmall).mp hover
  have hlt := img.lt
  have hpos := @bounceAreaSize_pos img segs
  refine ⟨?_, by omega⟩
  by_contra hlow
  have := (ha.placed harea hsound).image (max img.lbStart (bounceBuffer img mem segs))
  omega

theorem Accepts.ready {segs new : List Segment} (ha : Accepts img mem segs)
    (hp : SelfPayload body entry) (hw : WellPlaced img mem body) (hperm : segs.Perm new)
    (hall : List.Forall₂ (Made firstSegment) body new) : Ready img mem segs := by
  have hmade : ∀ seg ∈ segs, ∃ ps ∈ body, Made firstSegment ps seg :=
    fun seg hs => exists_made_left hall seg (hperm.mem_iff.mp hs)
  have hsmall : ∀ seg ∈ segs, seg.dst + seg.memsz < 2 ^ 32 := by
    intro seg hs
    obtain ⟨ps, hps, hm⟩ := hmade seg hs
    have hbelow := hw.below ps hps
    rwa [hm.dst, hm.memsz, u32_eq (by omega)]
  have hhigh : bounceHigh img segs = bounceHigh img (destinations body) :=
    bounceHigh_destinations hperm hall
  have harea : bounceAreaSize img segs = bounceAreaSize img (destinations body) := by
    unfold bounceAreaSize
    rw [bounceSize_eq, bounceSize_eq, hhigh]
  have hshadow : ∀ seg ∈ segs, seg.Overlaps img → img.lbEnd ≤ bounceBuffer img mem segs ∧
      bounceBuffer img mem segs + bounceAreaSize img segs ≤ 2 ^ 32 := by
    intro seg hs hover
    obtain ⟨ps, hps, hm⟩ := hmade seg hs
    have hbelow := hw.below ps hps
    have hover' : ps.Overlaps img := by
      have hin := (overlaps_iff (hsmall seg hs)).mp hover
      rwa [hm.dst, hm.memsz, u32_eq (by omega)] at hin
    obtain ⟨hlt, hsound⟩ := hw.buffer ⟨ps, hps, hover'⟩
    rw [← harea] at hlt
    refine ha.above hlt ⟨?_, ?_, fun seg hs hwrap => absurd (hsmall seg hs) (by omega)⟩ hs
      (hsmall seg hs) hover
    · rw [harea]
      exact hsound.roof
    · rw [harea]
      exact hsound.clear
  have hlt := img.lt
  obtain ⟨hhlo, -⟩ := @bounceHigh_bounds img segs
  have hsize := @bounceSize_eq img segs
  refine ⟨fun seg hs => ?_, fun s hs s' hs' t ht ht' => ?_, fun seg hs hover => ?_⟩
  · obtain ⟨ps, hps, hm⟩ := hmade seg hs
    have hfile : ps.fileLen ≤ ps.memLen := by
      unfold PayloadSegment.fileLen
      split <;> omega
    refine ⟨by rw [hm.filesz, hm.memsz]; exact hfile, hm.plain.imp_right And.left, hsmall seg hs,
      (validArea_placed (hsmall seg hs) (ha.checks.2 seg hs)).1, fun hover => ?_⟩
    obtain ⟨habove, hroom⟩ := hshadow seg hs hover
    unfold bounceAreaSize at hroom
    exact ⟨habove, by omega⟩
  · by_contra hne
    have hapart := made_apart hall hw.below hp.apart
    exact hapart.forall (hperm.mem_iff.mp hs) (hperm.mem_iff.mp hs') hne t ⟨ht, ht'⟩
  · obtain ⟨-, hroom⟩ := hshadow seg hs hover
    unfold bounceAreaSize at hroom
    omega

theorem Accepts.loop {segs : List Segment} (ha : Accepts img mem segs) (mach : Machine)
    (fuel : Nat) (m : Ram) : loadSelfSegments img mach mem segs fuel m =
      loadLoop img mach (bounceBuffer img mem segs) fuel segs m := by
  unfold loadSelfSegments
  simp only
  rw [if_neg ha.checks.1, if_pos (List.all_eq_true.mpr ha.checks.2)]

/-- A load that gives an entry point has loaded all segments, and it would
have done so over any other memory. -/
theorem Enters.spec {m : Ram} {l : Loaded} (hp : SelfPayload body entry)
    (hw : WellPlaced img mem body)
    (h : Enters img mach mem firstSegment heap (body ++ [entry]) m l) :
    ∃ segs new, segs.Perm new ∧ List.Forall₂ (Made firstSegment) body new ∧ Ready img mem segs ∧
      l = entered img mach mem segs l.entry m ∧
      ∀ m', Enters img mach mem firstSegment heap (body ++ [entry]) m'
        (entered img mach mem segs l.entry m') := by
  obtain ⟨fuel, hload, hentry⟩ := h
  obtain ⟨segs, new, hbuild, hperm, hall⟩ :=
    buildSelfSegmentList_spec hp.kind hp.last firstSegment heap 0 []
  rw [List.append_nil] at hperm
  have hself : ∀ fuel m, selfload img mach mem firstSegment heap (body ++ [entry]) fuel m =
      (loadSelfSegments img mach mem segs fuel m).bind fun r =>
        some ⟨if r.1 = 0 then 0 else u32 entry.loadAddr, r.2, bounceBuffer img mem segs,
          bounceSize img segs⟩ := by
    intro fuel m
    unfold selfload
    rw [hbuild]
    rfl
  rw [hself] at hload
  obtain ⟨⟨result, m₁⟩, hsegs, hl⟩ := Option.bind_eq_some_iff.mp hload
  obtain rfl := Option.some.inj hl
  have hresult : result ≠ 0 := fun hz => hentry (if_pos hz)
  have ha : Accepts img mem segs := ⟨mach, fuel, m, result, m₁, hsegs, hresult⟩
  have hready := ha.ready hp hw hperm hall
  obtain ⟨n, hn⟩ := @loadLoop_all img (bounceBuffer img mem segs) mach segs hready.fits
  rw [ha.loop] at hsegs
  have hdone := (loadLoop_mono hsegs n).symm.trans (hn fuel m)
  simp only [Option.some.injEq, Prod.mk.injEq] at hdone
  obtain ⟨rfl, rfl⟩ := hdone
  refine ⟨segs, new, hperm, hall, hready, rfl, fun m' => ⟨fuel + n, ?_, hentry⟩⟩
  rw [hself, ha.loop, hn]
  rfl

/-- Where the placement is sound, a payload is loaded faithfully into every
memory if and only if each piece of each segment has file bytes, and no
segment over coreboot ends behind it. -/
theorem faithful_iff (hp : SelfPayload body entry) (hw : WellPlaced img mem body) :
    Faithful img mach mem firstSegment body entry ↔
      ((∃ heap m l, Enters img mach mem firstSegment heap (body ++ [entry]) m l) →
        ∀ ps ∈ body, ps.Complete img) := by
  have hbyte : ∀ {ps : PayloadSegment} {seg : Segment}, ps ∈ body → Made firstSegment ps seg →
      ∀ read : Nat → Byte, (∀ t, seg.Has t → read t = seg.byte mach.rom t) ↔
        ∀ k < ps.memLen, read (ps.loadAddr + k) = ps.byte mach.rom firstSegment k := by
    intro ps seg hps hm read
    have hbelow := hw.below ps hps
    have hdst : seg.dst = ps.loadAddr := hm.dst.trans (u32_eq (by omega))
    constructor
    · intro hall k hk
      rw [hall _ ⟨by omega, by rw [hm.memsz]; omega⟩, hm.byte_eq hdst]
    · rintro hall t ⟨htlo, hthi⟩
      obtain ⟨k, rfl⟩ := Nat.exists_eq_add_of_le htlo
      rw [hm.memsz] at hthi
      rw [hdst, hall k (by omega), hm.byte_eq hdst]
  constructor
  · rintro hfaith ⟨heap, m, l, henters⟩ ps hps
    obtain ⟨segs, new, hperm, hmade, hready, -, hany⟩ := henters.spec hp hw
    have hwhole : ∀ seg ∈ segs, ∀ t, seg.Has t → ¬ Overrun img segs t ∧ seg.Written img t := by
      intro seg hs
      obtain ⟨ps, hps, hm⟩ := exists_made_left hmade seg (hperm.mem_iff.mp hs)
      exact (hready.entered_iff hs l.entry).mp fun m' =>
        (hbyte hps hm _).mpr (hfaith heap m' _ (hany m') ps hps)
    obtain ⟨seg, hs, hm⟩ := exists_made_right hmade ps hps
    exact (hm.complete_iff (hw.below ps hps)).mp
      (hready.whole_iff.mp hwhole seg (hperm.mem_iff.mpr hs))
  · intro hcomplete heap m l henters ps hps
    obtain ⟨segs, new, hperm, hmade, hready, hl, -⟩ := henters.spec hp hw
    have hsegs : ∀ seg ∈ segs, seg.Complete img := by
      intro seg hs
      obtain ⟨ps, hps, hm⟩ := exists_made_left hmade seg (hperm.mem_iff.mp hs)
      exact (hm.complete_iff (hw.below ps hps)).mpr (hcomplete ⟨heap, m, l, henters⟩ ps hps)
    obtain ⟨seg, hs, hm⟩ := exists_made_right hmade ps hps
    have hs := hperm.mem_iff.mpr hs
    rw [hl]
    exact (hbyte hps hm _).mp
      ((hready.entered_iff hs l.entry).mpr (hready.whole_iff.mpr hsegs seg hs) m)

end Payload

def codeOver1M : PayloadSegment := ⟨.code, cbfsCompressNone, 0, 0x180000, 0x1000, 0x2000⟩

def blankRom : Machine := ⟨fun _ => 0, fun m _ _ => (0, m)⟩

def entryAt (loadAddr : Nat) : PayloadSegment := ⟨.entry, 0, 0, loadAddr, 0, 0⟩

theorem codeOver1M_enters : ∃ heap m l,
    Enters imageAt1M blankRom ramTo2G 0 heap ([codeOver1M] ++ [entryAt 0x180000]) m l := by
  obtain ⟨m', hload⟩ := bootSegment_loads blankRom fun _ => 0
  refine ⟨fun _ => ⟨0, 0, 0, 0, 0⟩, fun _ => 0, ⟨0x180000, m',
    bounceBuffer imageAt1M ramTo2G [bootSegment], bounceSize imageAt1M [bootSegment]⟩, 2, ?_,
    show (0x180000 : Nat) ≠ 0 by decide⟩
  unfold selfload
  rw [show buildSelfSegmentList 0 (fun _ => ⟨0, 0, 0, 0, 0⟩) 0 []
    ([codeOver1M] ++ [entryAt 0x180000]) = some ⟨[bootSegment], 0x180000, 1⟩ from rfl]
  simp only [Option.bind_eq_bind, Option.bind_some]
  rw [hload]
  rfl

theorem faithful_iff_codeOver1M :
    (∃ heap m l,
      Enters imageAt1M blankRom ramTo2G 0 heap ([codeOver1M] ++ [entryAt 0x180000]) m l) ∧
    Faithful imageAt1M blankRom ramTo2G 0 [codeOver1M] (entryAt 0x180000) := by
  refine ⟨codeOver1M_enters, (faithful_iff ⟨?_, List.pairwise_singleton _ _, rfl⟩
    ⟨?_, fun _ => ⟨by decide, ?_, ?_, ?_⟩⟩).mpr fun _ => ?_⟩
  · rintro ps hps
    rw [List.mem_singleton.mp hps]
    exact .inl ⟨.inl rfl, rfl⟩
  · rintro ps hps
    rw [List.mem_singleton.mp hps]
    decide
  · rintro e he - hwrap
    rw [List.mem_singleton.mp he] at hwrap
    exact absurd hwrap (by decide)
  · rintro e he - -
    rw [List.mem_singleton.mp he]
    intro x hx
    have htop : (⟨0x100000, 0x7ff00000, lbMemRam⟩ : LbMemoryRange).top -
      bounceAreaSize imageAt1M (destinations [codeOver1M]) = 0x7fe00000 := by decide
    rw [htop] at hx
    have : imageAt1M.lbEnd = 0x200000 := rfl
    omega
  · rintro seg hs hwrap
    rw [show destinations [codeOver1M] = [⟨0x180000, 0, 0x2000, 0, 0⟩] by decide] at hs
    rw [List.mem_singleton.mp hs] at hwrap
    exact absurd hwrap (by decide)
  · rintro ps hps
    rw [List.mem_singleton.mp hps]
    exact ⟨fun _ => by decide, fun _ _ => by decide, fun _ _ h => absurd h (by decide)⟩

/-- A BSS segment is not cleared. -/
theorem not_faithful : ¬ ∀ (img : Image) (mach : Machine) (mem : List LbMemoryRange)
    (firstSegment : Nat) (body : List PayloadSegment) (entry : PayloadSegment),
    SelfPayload body entry → Faithful img mach mem firstSegment body entry := by
  intro h
  have hp : SelfPayload [⟨.bss, 0, 0, 0x300000, 0, 0x1000⟩] (entryAt 0x300000) := by
    refine ⟨fun ps hps => .inr ?_, List.pairwise_singleton _ _, rfl⟩
    rw [List.mem_singleton.mp hps]
  have hload : selfload imageAt1M blankRom ramTo2G 0 (fun _ => ⟨0, 0, 0, 0, 0⟩)
      [⟨.bss, 0, 0, 0x300000, 0, 0x1000⟩, entryAt 0x300000] 2 (fun _ => 1) =
        some ⟨0x300000, fun _ => 1, bounceBuffer imageAt1M ramTo2G [⟨0x300000, 0, 0x1000, 0, 0⟩],
          bounceSize imageAt1M [⟨0x300000, 0, 0x1000, 0, 0⟩]⟩ := by
    unfold selfload
    rw [show buildSelfSegmentList 0 (fun _ => ⟨0, 0, 0, 0, 0⟩) 0 []
      [⟨.bss, 0, 0, 0x300000, 0, 0x1000⟩, entryAt 0x300000] =
        some ⟨[⟨0x300000, 0, 0x1000, 0, 0⟩], 0x300000, 1⟩ from rfl]
    simp only [Option.bind_eq_bind, Option.bind_some]
    rw [loadSelfSegments_empty _ (by decide +kernel) (by decide +kernel) (by decide +kernel) rfl]
    rfl
  have hbyte := h imageAt1M blankRom ramTo2G 0 _ _ hp _ _ _ ⟨2, hload, by decide⟩ _
    (List.mem_singleton_self _) 0 (by decide)
  exact absurd hbyte (by decide)

end ItxLlama.Coreboot.SelfBoot
