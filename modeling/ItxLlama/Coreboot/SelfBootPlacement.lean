import ItxLlama.Coreboot.SelfBoot
import Mathlib.Data.List.Induction
import Mathlib.Order.MinMax
import Mathlib.Tactic.Tauto

/-!
# Where a payload may go

An accepted segment list lies in RAM and tables or below 1 MiB, and below the
bounce buffer, which ends the highest RAM range, as long as no sum wraps. The
scan for the buffer does not look where coreboot is.
-/

namespace ItxLlama.Coreboot.SelfBoot

open Lib.Word

section Image

variable (img : Image)

def Accepts (mem : List LbMemoryRange) (segs : List Segment) : Prop :=
  ∃ mach fuel m result m', loadSelfSegments img mach mem segs fuel m = some (result, m') ∧
    result ≠ 0

/-- `[lo, hi)` lies in the range `e`. -/
def LbMemoryRange.Contains (e : LbMemoryRange) (lo hi : Nat) : Prop :=
  e.start ≤ lo ∧ hi ≤ e.start + e.size

def Segment.Placed (mem : List LbMemoryRange) (seg : Segment) : Prop :=
  (∃ e ∈ mem, (e.type = lbMemRam ∨ e.type = lbMemTable) ∧
    e.Contains seg.dst (seg.dst + seg.memsz)) ∨ seg.dst + seg.memsz ≤ 1024 * 1024

/-- `[lo, hi)` and `[lo', hi')` have no address in common. -/
def Disjoint (lo hi lo' hi' : Nat) : Prop := ∀ x, ¬ ((lo ≤ x ∧ x < hi) ∧ (lo' ≤ x ∧ x < hi'))

/-- The bounce buffer with room for a copy of coreboot behind it. -/
def bounceAreaSize (segs : List Segment) : Nat := bounceSize img segs + (img.lbEnd - img.lbStart)

structure Placed (mem : List LbMemoryRange) (segs : List Segment) : Prop where
  segments : ∀ seg ∈ segs, seg.Placed mem
  inRam : ∃ e ∈ mem, e.type = lbMemRam ∧
    e.Contains (bounceBuffer img mem segs) (bounceBuffer img mem segs + bounceAreaSize img segs)
  image : Disjoint (bounceBuffer img mem segs)
    (bounceBuffer img mem segs + bounceAreaSize img segs) img.lbStart img.lbEnd
  apart : ∀ seg ∈ segs, Disjoint (bounceBuffer img mem segs)
    (bounceBuffer img mem segs + bounceAreaSize img segs) seg.dst (seg.dst + seg.memsz)

/-- Below 4 GiB the range ends here. -/
def LbMemoryRange.top (e : LbMemoryRange) : Nat := min (e.start + e.size) (2 ^ 32)

/-- A range the scan considers. -/
def LbMemoryRange.Usable (e : LbMemoryRange) (need : Nat) : Prop :=
  e.type = lbMemRam ∧ e.start < 2 ^ 32 ∧ need ≤ e.size

instance (e : LbMemoryRange) (need : Nat) : Decidable (e.Usable need) :=
  inferInstanceAs (Decidable (_ ∧ _ ∧ _))

/-- Sizing the range wraps: it starts at 0, or its end with room is not below 4 GiB. -/
def LbMemoryRange.Wraps (e : LbMemoryRange) (need : Nat) : Prop :=
  e.start = 0 ∨ 2 ^ 32 < e.start + need

instance (e : LbMemoryRange) (need : Nat) : Decidable (e.Wraps need) :=
  inferInstanceAs (Decidable (_ ∨ _))

/-- RAM up to 4 GiB, with room. -/
def LbMemoryRange.Roof (e : LbMemoryRange) (need : Nat) : Prop :=
  e.type = lbMemRam ∧ e.start + need ≤ 2 ^ 32 ∧ 2 ^ 32 ≤ e.start + e.size

structure Sound (mem : List LbMemoryRange) (segs : List Segment) : Prop where
  /-- A range whose size wraps does no harm where the RAM goes up to 4 GiB. -/
  roof : ∀ e ∈ mem, e.Usable (bounceAreaSize img segs) → e.Wraps (bounceAreaSize img segs) →
    ∃ e' ∈ mem, e'.Roof (bounceAreaSize img segs)
  /-- Coreboot is not at the end of the highest RAM range with room. -/
  clear : ∀ e ∈ mem, e.Usable (bounceAreaSize img segs) →
    (∀ e' ∈ mem, e'.Usable (bounceAreaSize img segs) → e'.top ≤ e.top) →
      Disjoint (e.top - bounceAreaSize img segs) e.top img.lbStart img.lbEnd
  /-- A segment that reaches 4 GiB is in a range that does, above the RAM with room. -/
  high : ∀ seg ∈ segs, 2 ^ 32 ≤ seg.dst + seg.memsz → seg.Placed mem ∧
    ∀ e ∈ mem, e.Usable (bounceAreaSize img segs) → e.top ≤ seg.dst

variable {img} {mem : List LbMemoryRange} {segs : List Segment}

-- ---------------------------------------------------------------------------
-- The scan
-- ---------------------------------------------------------------------------

theorem bounceAreaSize_pos : 0 < bounceAreaSize img segs := by
  have := img.lt
  unfold bounceAreaSize
  omega

theorem bounceCandidate_skip {e : LbMemoryRange} (h : ¬ e.Usable need) (buffer : Nat) :
    bounceCandidate need buffer e = buffer := by
  unfold bounceCandidate
  unfold LbMemoryRange.Usable at h
  split
  · rfl
  split
  · rfl
  split
  · rfl
  · exact absurd ⟨by tauto, by omega, by omega⟩ h

/-- Where the scan takes the range to end. -/
def LbMemoryRange.ceiling (e : LbMemoryRange) (need : Nat) : Nat :=
  if e.Wraps need then 2 ^ 32 else e.top

theorem LbMemoryRange.top_le_ceiling (e : LbMemoryRange) (need : Nat) :
    e.top ≤ e.ceiling need ∧ e.ceiling need ≤ 2 ^ 32 := by
  unfold LbMemoryRange.ceiling LbMemoryRange.top
  split <;> omega

theorem LbMemoryRange.Usable.room {e : LbMemoryRange} (h : e.Usable need) (hneed : need < 2 ^ 32) :
    need ≤ e.ceiling need := by
  obtain ⟨-, hstart, hsize⟩ := h
  unfold LbMemoryRange.ceiling LbMemoryRange.top
  split
  · omega
  next hwrap =>
  unfold LbMemoryRange.Wraps at hwrap
  omega

theorem LbMemoryRange.Roof.usable {e : LbMemoryRange} (h : e.Roof need) (hneed : 0 < need) :
    e.Usable need ∧ e.top = 2 ^ 32 := by
  obtain ⟨htype, hroom, hend⟩ := h
  refine ⟨⟨htype, by omega, by omega⟩, ?_⟩
  unfold LbMemoryRange.top
  omega

theorem bounceCandidate_usable {e : LbMemoryRange} (h : e.Usable need) (hpos : 0 < need)
    (hneed : need < 2 ^ 32) (buffer : Nat) :
    bounceCandidate need buffer e = max buffer (e.ceiling need - need) := by
  obtain ⟨htype, hstart, hsize⟩ := h
  have hend : sub32 (u32 (u32 e.start +
      if u32 (sub32 (2 ^ 32 - 1) (u32 e.start) + 1) > e.size then u32 e.size
      else u32 (sub32 (2 ^ 32 - 1) (u32 e.start) + 1))) need = e.ceiling need - need := by
    unfold LbMemoryRange.ceiling LbMemoryRange.top sub32
    rw [u32_eq hstart]
    unfold u32
    by_cases hwrap : e.Wraps need
    · rw [if_pos hwrap]
      unfold LbMemoryRange.Wraps at hwrap
      split <;> omega
    · rw [if_neg hwrap]
      unfold LbMemoryRange.Wraps at hwrap
      split <;> omega
  unfold bounceCandidate
  rw [if_neg (not_not.mpr htype), if_neg (by omega), if_neg (by omega)]
  simp only [hend]
  split <;> omega

theorem getBounceBuffer_spec (harea : bounceAreaSize img segs < 2 ^ 32) :
    (∀ e ∈ mem, e.Usable (bounceAreaSize img segs) →
        e.ceiling (bounceAreaSize img segs) - bounceAreaSize img segs ≤ bounceBuffer img mem segs) ∧
      (bounceBuffer img mem segs = 0 ∨ ∃ e ∈ mem, e.Usable (bounceAreaSize img segs) ∧
        e.ceiling (bounceAreaSize img segs) - bounceAreaSize img segs =
          bounceBuffer img mem segs) := by
  have hneed : u32 (bounceSize img segs + sub32 img.lbEnd img.lbStart) = bounceAreaSize img segs := by
    have := img.lt
    have := img.fits
    unfold bounceAreaSize sub32 u32 at *
    omega
  unfold bounceBuffer getBounceBuffer
  simp only [hneed]
  induction mem using List.reverseRecOn with
  | nil => simp
  | append_singleton mem e ih =>
    rw [List.foldl_append, List.foldl_cons, List.foldl_nil]
    obtain ⟨hle, hwin⟩ := ih
    have hold : _ ∨ ∃ d ∈ mem ++ [e], _ :=
      hwin.imp_right fun ⟨d, hd, hdu⟩ => ⟨d, List.mem_append_left [e] hd, hdu⟩
    by_cases hu : e.Usable (bounceAreaSize img segs)
    · rw [bounceCandidate_usable hu bounceAreaSize_pos harea]
      refine ⟨fun d hd hdu => ?_, ?_⟩
      · rcases List.mem_append.mp hd with hd | hd
        · exact le_max_of_le_left (hle d hd hdu)
        · rw [List.mem_singleton.mp hd]
          exact le_max_right _ _
      · rcases le_total (List.foldl (bounceCandidate (bounceAreaSize img segs)) 0 mem)
          (e.ceiling (bounceAreaSize img segs) - bounceAreaSize img segs) with hmax | hmax
        · exact .inr ⟨e, by simp, hu, (max_eq_right hmax).symm⟩
        · rw [max_eq_left hmax]
          exact hold
    · rw [bounceCandidate_skip hu]
      refine ⟨fun d hd hdu => ?_, hold⟩
      rcases List.mem_append.mp hd with hd | hd
      · exact hle d hd hdu
      · rw [List.mem_singleton.mp hd] at hdu
        exact absurd hdu hu

-- ---------------------------------------------------------------------------
-- Accepted lists
-- ---------------------------------------------------------------------------

theorem Accepts.checks (h : Accepts img mem segs) : bounceBuffer img mem segs ≠ 0 ∧
    ∀ seg ∈ segs, validArea mem (bounceBuffer img mem segs) seg.dst seg.memsz = true := by
  obtain ⟨mach, fuel, m, result, m', hload, hresult⟩ := h
  unfold loadSelfSegments at hload
  simp only at hload
  split at hload
  · cases hload
    exact absurd rfl hresult
  next h0 =>
  split at hload
  · next hall => exact ⟨h0, fun seg hs => List.all_eq_true.mp hall seg hs⟩
  · cases hload
    exact absurd rfl hresult

theorem validArea_placed {seg : Segment} (hsum : seg.dst + seg.memsz < 2 ^ 32)
    (h : validArea mem buffer seg.dst seg.memsz = true) :
    seg.dst + seg.memsz < buffer ∧ seg.Placed mem := by
  unfold validArea at h
  simp only [u32_eq hsum] at h
  split at h
  · cases h
  next hlt =>
  refine ⟨by omega, ?_⟩
  split at h
  · next hany =>
    obtain ⟨e, he, hin⟩ := List.any_eq_true.mp hany
    simp only [decide_eq_true_eq] at hin
    obtain ⟨htype, hstart, hend⟩ := hin
    have hmod : u64 (e.start + e.size) ≤ e.start + e.size := Nat.mod_le _ _
    exact .inl ⟨e, he, htype, hstart, by omega⟩
  · simp only [decide_eq_true_eq] at h
    exact .inr h.2

theorem Accepts.candidate (h : Accepts img mem segs) (harea : bounceAreaSize img segs < 2 ^ 32) :
    ∃ e ∈ mem, e.Usable (bounceAreaSize img segs) ∧
      bounceBuffer img mem segs + bounceAreaSize img segs = e.ceiling (bounceAreaSize img segs) ∧
      ∀ e' ∈ mem, e'.Usable (bounceAreaSize img segs) →
        e'.ceiling (bounceAreaSize img segs) ≤ e.ceiling (bounceAreaSize img segs) := by
  obtain ⟨hle, hwin⟩ := getBounceBuffer_spec harea
  obtain ⟨e, he, hu, hend⟩ := hwin.resolve_left h.checks.1
  have hroom := hu.room harea
  refine ⟨e, he, hu, by omega, fun e' he' hu' => ?_⟩
  have := hle e' he' hu'
  have := hu'.room harea
  omega

theorem Accepts.top_le (h : Accepts img mem segs) (harea : bounceAreaSize img segs < 2 ^ 32)
    {e : LbMemoryRange} (he : e ∈ mem) (hu : e.Usable (bounceAreaSize img segs)) :
    e.top ≤ bounceBuffer img mem segs + bounceAreaSize img segs := by
  obtain ⟨d, hd, hdu, hend, hmax⟩ := h.candidate harea
  have := hmax e he hu
  have := (e.top_le_ceiling (bounceAreaSize img segs)).1
  omega

/-- The range whose end the area takes, where a wrapped size does no harm. -/
theorem Accepts.winner (h : Accepts img mem segs) (harea : bounceAreaSize img segs < 2 ^ 32)
    (hroof : ∀ e ∈ mem, e.Usable (bounceAreaSize img segs) → e.Wraps (bounceAreaSize img segs) →
      ∃ e' ∈ mem, e'.Roof (bounceAreaSize img segs)) :
    ∃ e ∈ mem, e.Usable (bounceAreaSize img segs) ∧ e.start ≤ bounceBuffer img mem segs ∧
      e.top = bounceBuffer img mem segs + bounceAreaSize img segs := by
  obtain ⟨e, he, hu, hend, hmax⟩ := h.candidate harea
  by_cases hwrap : e.Wraps (bounceAreaSize img segs)
  · obtain ⟨d, hd, hdroof⟩ := hroof e he hu hwrap
    obtain ⟨hdu, htop⟩ := hdroof.usable bounceAreaSize_pos
    have hceil : e.ceiling (bounceAreaSize img segs) = 2 ^ 32 := if_pos hwrap
    have hroom := hdroof.2.1
    exact ⟨d, hd, hdu, by omega, by omega⟩
  · have hceil : e.ceiling (bounceAreaSize img segs) = e.top := if_neg hwrap
    have hsize := hu.2.2
    have htop : e.start + bounceAreaSize img segs ≤ e.top := by
      unfold LbMemoryRange.Wraps at hwrap
      unfold LbMemoryRange.top
      omega
    exact ⟨e, he, hu, by omega, by omega⟩

theorem Accepts.sound (h : Accepts img mem segs) (harea : bounceAreaSize img segs < 2 ^ 32)
    (hp : Placed img mem segs) : Sound img mem segs := by
  obtain ⟨e, he, hu, hend, hmax⟩ := h.candidate harea
  have hceil := (e.top_le_ceiling (bounceAreaSize img segs)).2
  have hroof : ∀ e ∈ mem, e.Usable (bounceAreaSize img segs) →
      e.Wraps (bounceAreaSize img segs) → ∃ e' ∈ mem, e'.Roof (bounceAreaSize img segs) := by
    intro d hd hdu hwrap
    have hdceil : d.ceiling (bounceAreaSize img segs) = 2 ^ 32 := if_pos hwrap
    have := hmax d hd hdu
    obtain ⟨r, hr, htype, hlo, hhi⟩ := hp.inRam
    exact ⟨r, hr, htype, by omega, by omega⟩
  refine ⟨hroof, fun d hd hdu hdmax => ?_,
    fun seg hs hwrap => ⟨hp.segments seg hs, fun d hd hdu => ?_⟩⟩
  · obtain ⟨w, hw, hwu, -, hwtop⟩ := h.winner harea hroof
    have htop := h.top_le harea hd hdu
    have hdtop : d.top = bounceBuffer img mem segs + bounceAreaSize img segs := by
      have := hdmax w hw hwu
      omega
    rw [hdtop, Nat.add_sub_cancel]
    exact hp.image
  · refine (h.top_le harea hd hdu).trans ?_
    by_contra hlt
    have := hp.apart seg hs (max seg.dst (bounceBuffer img mem segs))
    have := @bounceAreaSize_pos img segs
    omega

theorem Accepts.placed (h : Accepts img mem segs) (harea : bounceAreaSize img segs < 2 ^ 32)
    (hc : Sound img mem segs) : Placed img mem segs := by
  obtain ⟨e, he, hu, hstart, htop⟩ := h.winner harea hc.roof
  have hmax : ∀ e' ∈ mem, e'.Usable (bounceAreaSize img segs) → e'.top ≤ e.top :=
    fun e' he' hu' => htop ▸ h.top_le harea he' hu'
  refine ⟨fun seg hs => ?_, ⟨e, he, hu.1, hstart, htop ▸ Nat.min_le_left _ _⟩, ?_,
    fun seg hs x hx => ?_⟩
  · rcases Nat.lt_or_ge (seg.dst + seg.memsz) (2 ^ 32) with hsum | hsum
    · exact (validArea_placed hsum (h.checks.2 seg hs)).2
    · exact (hc.high seg hs hsum).1
  · have := hc.clear e he hu hmax
    rwa [htop, Nat.add_sub_cancel] at this
  · rcases Nat.lt_or_ge (seg.dst + seg.memsz) (2 ^ 32) with hsum | hsum
    · have := (validArea_placed hsum (h.checks.2 seg hs)).1
      omega
    · have := (hc.high seg hs hsum).2 e he hu
      omega

/-- Where the bounce area has a 32-bit size, an accepted list is placed as it
should be if and only if no wrapped size or end counts and coreboot is not
where the buffer goes. -/
theorem accepted_placed_iff (harea : bounceAreaSize img segs < 2 ^ 32) :
    (Accepts img mem segs → Placed img mem segs) ↔
      (Accepts img mem segs → Sound img mem segs) :=
  ⟨fun h ha => ha.sound harea (h ha), fun h ha => ha.placed harea (h ha)⟩

/-- A valid segment without file bytes, clear of coreboot. -/
theorem loadSelfSegments_empty {mach : Machine} {seg : Segment} (m : Ram)
    (hbuffer : bounceBuffer img mem [seg] ≠ 0)
    (hvalid : validArea mem (bounceBuffer img mem [seg]) seg.dst seg.memsz = true)
    (hover : overlapsCoreboot img seg = false) (hz : seg.filesz = 0) :
    loadSelfSegments img mach mem [seg] 2 m = some (1, m) := by
  unfold loadSelfSegments
  simp only
  rw [if_neg hbuffer, if_pos (by simpa using hvalid), loadLoop,
    show relocateSegment img (bounceBuffer img mem [seg]) seg = ⟨none, seg, []⟩ from if_pos hover]
  simp only [loadSegment, hz, if_true]
  rfl

end Image

def imageAt1M : Image := ⟨0x100000, 0x200000, by decide, by decide⟩

def ramTo2G : List LbMemoryRange := [⟨0x100000, 0x7ff00000, lbMemRam⟩]

/-- Code in the place of coreboot. -/
def bootSegment : Segment := ⟨0x180000, 0, 0x2000, 0x1000, cbfsCompressNone⟩

theorem bootSegment_loads (mach : Machine) (m : Ram) :
    ∃ m', loadSelfSegments imageAt1M mach ramTo2G [bootSegment] 2 m = some (1, m') := by
  have hplaced : relocateSegment imageAt1M (bounceBuffer imageAt1M ramTo2G [bootSegment])
      bootSegment = ⟨none, ⟨0x7fe80000, 0, 0x2000, 0x1000, cbfsCompressNone⟩, []⟩ := rfl
  have hlzma : ¬ cbfsCompressNone = cbfsCompressLzma := by decide
  unfold loadSelfSegments
  simp only
  rw [if_neg (by decide +kernel), if_pos (by decide +kernel), loadLoop, hplaced]
  simp only [loadSegment, if_neg hlzma, if_true]
  exact ⟨_, rfl⟩

theorem accepted_placed_iff_ramTo2G :
    Accepts imageAt1M ramTo2G [bootSegment] ∧ Placed imageAt1M ramTo2G [bootSegment] := by
  obtain ⟨m', hload⟩ := bootSegment_loads ⟨fun _ => 0, fun m _ _ => (0, m)⟩ fun _ => 0
  have haccept : Accepts imageAt1M ramTo2G [bootSegment] := ⟨_, 2, _, 1, m', hload, by decide⟩
  refine ⟨haccept, (accepted_placed_iff (by decide)).mpr (fun _ => ⟨?_, ?_, ?_⟩) haccept⟩
  · rintro e he - hwrap
    rw [List.mem_singleton.mp he] at hwrap
    exact absurd hwrap (by decide)
  · rintro e he - -
    rw [List.mem_singleton.mp he]
    intro x hx
    have htop : (⟨0x100000, 0x7ff00000, lbMemRam⟩ : LbMemoryRange).top -
      bounceAreaSize imageAt1M [bootSegment] = 0x7fe00000 := by decide
    rw [htop] at hx
    have : imageAt1M.lbEnd = 0x200000 := rfl
    omega
  · rintro seg hs hwrap
    rw [List.mem_singleton.mp hs] at hwrap
    exact absurd hwrap (by decide)

/-- A segment whose end wraps to below its start is accepted. -/
theorem not_accepted_placed : ¬ ∀ (img : Image) (mem : List LbMemoryRange) (segs : List Segment),
    Accepts img mem segs → Placed img mem segs := by
  intro h
  have haccept : Accepts imageAt1M ramTo2G [⟨0x300000, 0, 0xffffffff, 0, cbfsCompressNone⟩] :=
    ⟨⟨fun _ => 0, fun m _ _ => (0, m)⟩, 2, fun _ => 0, 1, fun _ => 0,
      loadSelfSegments_empty _ (by decide +kernel) (by decide +kernel) (by decide +kernel) rfl, by decide⟩
  rcases (h _ _ _ haccept).segments _ (List.mem_singleton_self _) with ⟨e, he, -, hin⟩ | hlow
  · rw [List.mem_singleton.mp he] at hin
    exact absurd hin.2 (by decide)
  · exact absurd hlow (by decide)

end ItxLlama.Coreboot.SelfBoot
