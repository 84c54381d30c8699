import ItxLlama.Coreboot.MkPayloadLaws
import ItxLlama.Coreboot.MkStage
import ItxLlama.Lib.Overlay
import Mathlib.Data.List.Pairwise

/-!
# The image of a stage

The image that a stage stands for has the file bytes of the segments and zeros
between them. Copying and loading make it exactly when no subtraction of the
extents wraps.
-/

namespace ItxLlama.Coreboot.MkStage

open Lib.Word Lib.Bytes Lib.Overlay Lib.Wrap
open MkPayload
open SelfBoot (cbfsCompressNone)

-- ---------------------------------------------------------------------------
-- Extents
-- ---------------------------------------------------------------------------

/-- The loadable segments that have memory. -/
def segments (input : Buffer) : List Phdr := loads (stagePhdrs input.data)

def lowest (segs : List Phdr) : Nat := segs.foldr (fun s n => min s.paddr n) 0xffffffff

/-- The highest value of the segments. -/
def highest (f : Phdr → Nat) (segs : List Phdr) : Nat := segs.foldr (fun s n => max (f s) n) 0

def fileEnd (s : Phdr) : Nat := s.paddr + s.filesz

def memEnd (s : Phdr) : Nat := s.paddr + s.memsz

theorem lowest_le (h : s ∈ segs) : lowest segs ≤ s.paddr := by
  induction segs with
  | nil => cases h
  | cons t segs ih =>
    obtain rfl | h := List.mem_cons.mp h
    · exact Nat.min_le_left _ _
    · exact Nat.le_trans (Nat.min_le_right _ _) (ih h)

theorem le_highest {f : Phdr → Nat} (h : s ∈ segs) : f s ≤ highest f segs := by
  induction segs with
  | nil => cases h
  | cons t segs ih =>
    obtain rfl | h := List.mem_cons.mp h
    · exact Nat.le_max_left _ _
    · exact Nat.le_trans (ih h) (Nat.le_max_right _ _)

theorem highest_le {f : Phdr → Nat} (h : ∀ s ∈ segs, f s ≤ n) : highest f segs ≤ n := by
  induction segs with
  | nil => exact Nat.zero_le n
  | cons t segs ih =>
    obtain ⟨ht, hrest⟩ := List.forall_mem_cons.mp h
    exact Nat.max_le.mpr ⟨ht, ih hrest⟩

theorem highest_congr {f g : Phdr → Nat} (h : ∀ s ∈ segs, f s = g s) :
    highest f segs = highest g segs := by
  induction segs with
  | nil => rfl
  | cons t segs ih =>
    obtain ⟨ht, hrest⟩ := List.forall_mem_cons.mp h
    show max (f t) (highest f segs) = max (g t) (highest g segs)
    rw [ht, ih hrest]

theorem foldl_add (phs : List Phdr) (h : e.dataStart ≤ 0xffffffff) : phs.foldl Extents.add e =
    ⟨min e.dataStart (lowest (loads phs)),
      max e.dataEnd (highest (fun s => u32 (fileEnd s)) (loads phs)),
      max e.memEnd (highest (fun s => u32 (memEnd s)) (loads phs))⟩ := by
  induction phs generalizing e with
  | nil =>
    have hmin : e.dataStart = min e.dataStart 0xffffffff := (Nat.min_eq_left h).symm
    show e = ⟨min e.dataStart 0xffffffff, max e.dataEnd 0, max e.memEnd 0⟩
    rw [Nat.max_zero, Nat.max_zero, ← hmin]
  | cons ph phs ih =>
    have hskip (hnot : isLoad ph = false) : loads (ph :: phs) = loads phs :=
      List.filter_cons_of_neg (by rw [hnot]; decide)
    rw [List.foldl_cons]
    by_cases htype : ph.type ≠ ptLoad
    · rw [Extents.add, if_pos htype, ih h, hskip (by simp [isLoad, htype])]
    · by_cases hempty : ph.memsz = 0
      · rw [Extents.add, if_neg htype, if_pos hempty, ih h, hskip (by simp [isLoad, hempty])]
      · have hload : loads (ph :: phs) = ph :: loads phs :=
          List.filter_cons_of_pos (by simp [isLoad, hempty, not_not.mp htype])
        have hstart : (if ph.paddr < e.dataStart then ph.paddr else e.dataStart) =
            min e.dataStart ph.paddr := by
          split <;> omega
        have hmax (a b : Nat) : (if a > b then a else b) = max b a := by
          split <;> omega
        rw [Extents.add, if_neg htype, if_neg hempty]
        simp only [hstart, hmax]
        rw [ih (Nat.le_trans (Nat.min_le_left _ _) h), hload]
        simp only [Nat.min_assoc, Nat.max_assoc]
        rfl

theorem extents_eq (phs : List Phdr) : extents phs = ⟨lowest (loads phs),
    highest (fun s => u32 (fileEnd s)) (loads phs),
    highest (fun s => u32 (memEnd s)) (loads phs)⟩ := by
  have hle : lowest (loads phs) ≤ 0xffffffff := by
    generalize loads phs = segs
    induction segs with
    | nil => exact Nat.le_refl _
    | cons s segs ih => exact Nat.le_trans (Nat.min_le_right _ _) ih
  rw [extents, foldl_add phs (Nat.le_refl _), Nat.min_eq_right hle, Nat.zero_max, Nat.zero_max]

-- ---------------------------------------------------------------------------
-- Copying
-- ---------------------------------------------------------------------------

/-- A segment of a 32-bit file, with its addresses below the end of memory. -/
structure Placed (input : Buffer) (s : Phdr) : Prop where
  nonempty : s.memsz ≠ 0
  load : s.type = ptLoad
  filesz : s.filesz ≤ s.memsz
  memsz : s.memsz < 2 ^ 32
  memory : memEnd s ≤ 2 ^ 32
  file : s.offset + s.filesz ≤ input.size

/-- The file part reaches the location and ends below the end of memory. -/
def Copies (location : Nat) (s : Phdr) : Prop := location ≤ fileEnd s ∧ fileEnd s < 2 ^ 32

instance (location : Nat) (s : Phdr) : Decidable (Copies location s) := by
  unfold Copies
  infer_instance

/-- The file bytes of a segment, by address. -/
def patch (input : Buffer) (s : Phdr) (a : Nat) : Option Byte :=
  if s.paddr ≤ a ∧ a < fileEnd s then some (input.data (s.offset + (a - s.paddr))) else none

section

variable {input buffer : Buffer} {s : Phdr} {location start : Nat}

theorem copySegment_eq (hp : Placed input s) : ∃ o, s.paddr + o = max s.paddr location ∧
    copySegment input location start buffer s =
      memcpy buffer (sub32 (s.paddr + o) start) input (u32 (s.offset + o))
        (sub32 s.filesz o) := by
  unfold copySegment
  rw [if_neg (not_not.mpr hp.load), if_neg hp.nonempty]
  by_cases hlt : s.paddr < location
  · refine ⟨location - s.paddr, by omega, ?_⟩
    simp only [if_pos hlt]
    rw [Nat.add_sub_cancel' (Nat.le_of_lt hlt)]
  · refine ⟨0, by omega, ?_⟩
    simp only [if_neg hlt]
    rfl

theorem copySegment_copies (hp : Placed input s) (hsize : input.size ≤ 2 ^ 32)
    (hloc : location ≤ start) (hstart : start ≤ max s.paddr location) (hcopies : Copies location s)
    (hend : fileEnd s ≤ start + buffer.size) :
    ∃ b, copySegment input location start buffer s = .ok b ∧ b.size = buffer.size ∧
      ∀ x < buffer.size, b.data x = (patch input s (start + x)).getD (buffer.data x) := by
  obtain ⟨o, ho, heq⟩ := @copySegment_eq input buffer s location start hp
  obtain ⟨hreach, hlt⟩ := hcopies
  have hfile := hp.file
  unfold fileEnd at hreach hlt hend
  have hlen : sub32 s.filesz o = s.filesz - o := sub32_of_le (by omega) (by omega)
  have hoff : sub32 (s.paddr + o) start = s.paddr + o - start := sub32_of_le (by omega) (by omega)
  rw [hlen, hoff] at heq
  unfold memcpy at heq
  split at heq
  case isTrue hzero =>
    refine ⟨buffer, heq, rfl, fun x hx => ?_⟩
    have hnone : patch input s (start + x) = none := if_neg (by unfold fileEnd; omega)
    rw [hnone]
    rfl
  case isFalse hpos =>
    have hsrc : u32 (s.offset + o) = s.offset + o := u32_eq (by omega)
    rw [hsrc, if_pos ⟨by omega, by omega⟩] at heq
    refine ⟨_, heq, rfl, fun x hx => ?_⟩
    unfold patch fileEnd
    by_cases hin : s.paddr + o - start ≤ x ∧ x < s.paddr + o - start + (s.filesz - o)
    · have haddr :
          s.offset + o + (x - (s.paddr + o - start)) = s.offset + (start + x - s.paddr) := by
        omega
      rw [if_pos (by omega)]
      simp only [if_pos hin, haddr]
      rfl
    · rw [if_neg (by omega)]
      simp only [if_neg hin]
      rfl

theorem copySegment_outside (hp : Placed input s) (hloc : location ≤ start)
    (hstart : start ≤ max s.paddr location) (hcopies : ¬ Copies location s)
    (hend : start + buffer.size < 2 ^ 32) :
    copySegment input location start buffer s = .error .outside := by
  obtain ⟨o, ho, heq⟩ := @copySegment_eq input buffer s location start hp
  have hmemory := hp.memory
  have hfilesz := hp.filesz
  have hnonempty := hp.nonempty
  have hmemsz := hp.memsz
  unfold Copies fileEnd at hcopies
  unfold memEnd at hmemory
  have hoff : sub32 (s.paddr + o) start = s.paddr + o - start := sub32_of_le (by omega) (by omega)
  -- the length wraps, or the segment goes up to the end of memory
  have hlen : start + buffer.size < s.paddr + o + sub32 s.filesz o ∧
      sub32 s.filesz o ≠ 0 := by
    unfold sub32 u32
    omega
  rw [heq, hoff]
  unfold memcpy
  rw [if_neg hlen.2, if_neg]
  rintro ⟨-, hin⟩
  omega

end

section

variable {input : Buffer} {segs : List Phdr} {location start : Nat}

theorem copyAll_copies (hplaced : ∀ s ∈ segs, Placed input s) (hsize : input.size ≤ 2 ^ 32)
    (hloc : location ≤ start) (hstart : ∀ s ∈ segs, start ≤ max s.paddr location)
    (hcopies : ∀ s ∈ segs, Copies location s) (buffer : Buffer)
    (hend : ∀ s ∈ segs, fileEnd s ≤ start + buffer.size) :
    ∃ b, segs.foldlM (copySegment input location start) buffer = .ok b ∧ b.size = buffer.size ∧
      ∀ x < buffer.size, b.data x =
        (segs.map fun s x => patch input s (start + x)).foldl overlay buffer.data x := by
  induction segs generalizing buffer with
  | nil => exact ⟨buffer, rfl, rfl, fun x hx => rfl⟩
  | cons s segs ih =>
    obtain ⟨hps, hplaced⟩ := List.forall_mem_cons.mp hplaced
    obtain ⟨hss, hstart⟩ := List.forall_mem_cons.mp hstart
    obtain ⟨hcs, hcopies⟩ := List.forall_mem_cons.mp hcopies
    obtain ⟨hes, hend⟩ := List.forall_mem_cons.mp hend
    obtain ⟨b, hb, hbsize, hbdata⟩ := copySegment_copies hps hsize hloc hss hcs hes
    obtain ⟨c, hc, hcsize, hcdata⟩ := ih hplaced hstart hcopies b fun t ht => hbsize ▸ hend t ht
    refine ⟨c, ?_, hcsize.trans hbsize, fun x hx => ?_⟩
    · rw [List.foldlM_cons, hb]
      exact hc
    · rw [hcdata x (hbsize ▸ hx), List.map_cons, List.foldl_cons]
      exact foldl_overlay_congr (hbdata x hx)

theorem copyAll_outside (hplaced : ∀ s ∈ segs, Placed input s) (hsize : input.size ≤ 2 ^ 32)
    (hloc : location ≤ start) (hstart : ∀ s ∈ segs, start ≤ max s.paddr location)
    (hcopies : ¬ ∀ s ∈ segs, Copies location s) (buffer : Buffer)
    (hend : ∀ s ∈ segs, Copies location s → fileEnd s ≤ start + buffer.size)
    (hlt : start + buffer.size < 2 ^ 32) :
    segs.foldlM (copySegment input location start) buffer = .error .outside := by
  induction segs generalizing buffer with
  | nil => exact absurd (fun s hs => absurd hs List.not_mem_nil) hcopies
  | cons s segs ih =>
    obtain ⟨hps, hplaced⟩ := List.forall_mem_cons.mp hplaced
    obtain ⟨hss, hstart⟩ := List.forall_mem_cons.mp hstart
    obtain ⟨hes, hend⟩ := List.forall_mem_cons.mp hend
    rw [List.foldlM_cons]
    by_cases hcs : Copies location s
    · obtain ⟨b, hb, hbsize, -⟩ := copySegment_copies hps hsize hloc hss hcs (hes hcs)
      have hrest : ¬ ∀ s ∈ segs, Copies location s := fun hall =>
        hcopies (List.forall_mem_cons.mpr ⟨hcs, hall⟩)
      rw [hb]
      exact ih hplaced hstart hrest b (hbsize ▸ hend) (hbsize ▸ hlt)
    · rw [copySegment_outside hps hloc hss hcs hlt]
      rfl

end

theorem copyAll_loads (phs : List Phdr) (buffer : Buffer) :
    phs.foldlM (copySegment input location start) buffer =
      (loads phs).foldlM (copySegment input location start) buffer := by
  induction phs generalizing buffer with
  | nil => rfl
  | cons ph phs ih =>
    have hskip (hnot : isLoad ph = false) : loads (ph :: phs) = loads phs :=
      List.filter_cons_of_neg (by rw [hnot]; decide)
    rw [List.foldlM_cons]
    by_cases htype : ph.type ≠ ptLoad
    · rw [copySegment, if_pos htype, hskip (by simp [isLoad, htype])]
      exact ih buffer
    · by_cases hempty : ph.memsz = 0
      · rw [copySegment, if_neg htype, if_pos hempty, hskip (by simp [isLoad, hempty])]
        exact ih buffer
      · have hload : loads (ph :: phs) = ph :: loads phs :=
          List.filter_cons_of_pos (by simp [isLoad, hempty, not_not.mp htype])
        rw [hload, List.foldlM_cons]
        exact bind_congr fun b => ih b

-- ---------------------------------------------------------------------------
-- The image
-- ---------------------------------------------------------------------------

/-- The byte of the image: that of the segment whose file part covers the address. -/
def imageByte (input : Buffer) (segs : List Phdr) (a : Nat) : Byte :=
  match segs.find? fun s => s.paddr ≤ a ∧ a < fileEnd s with
  | some s => input.data (s.offset + (a - s.paddr))
  | none => 0

/-- Two segments have no address in common. -/
def Apart (s t : Phdr) : Prop := memEnd s ≤ t.paddr ∨ memEnd t ≤ s.paddr

instance : Std.Symm Apart := ⟨fun _ _ h => h.symm⟩

theorem overlay_patches {input : Buffer} (hplaced : ∀ s ∈ segs, Placed input s)
    (hapart : segs.Pairwise Apart) :
    (segs.map fun s x => patch input s (start + x)).foldl overlay (fun _ => 0) x =
      imageByte input segs (start + x) := by
  unfold imageByte
  cases hfind : segs.find? fun s => s.paddr ≤ start + x ∧ start + x < fileEnd s with
  | none =>
    refine foldl_overlay_none fun p hp => ?_
    obtain ⟨s, hs, rfl⟩ := List.mem_map.mp hp
    have hnot := List.find?_eq_none.mp hfind s hs
    rw [decide_eq_true_eq] at hnot
    exact if_neg hnot
  | some s =>
    have hin := List.find?_some hfind
    have hmem := List.mem_of_find?_eq_some hfind
    rw [decide_eq_true_eq] at hin
    refine foldl_overlay_some (fun p hp b hb => ?_) ⟨_, List.mem_map.mpr ⟨s, hmem, rfl⟩, ?_⟩
    · obtain ⟨t, ht, rfl⟩ := List.mem_map.mp hp
      have hb : patch input t (start + x) = some b := hb
      have hts : t = s := by
        by_contra hne
        have hapart := hapart.forall ht hmem hne
        unfold patch at hb
        split at hb
        case isFalse => cases hb
        case isTrue hcover =>
          have hs := (hplaced s hmem).filesz
          have ht := (hplaced t ht).filesz
          unfold Apart memEnd at hapart
          unfold fileEnd at hin hcover
          omega
      subst hts
      rw [patch, if_pos hin] at hb
      exact (Option.some.inj hb).symm
    · show patch input s (start + x) ≠ none
      rw [patch, if_pos hin]
      exact Option.some_ne_none _

theorem imageByte_above {input : Buffer} (h : ∀ s ∈ segs, fileEnd s ≤ a) :
    imageByte input segs a = 0 := by
  unfold imageByte
  have hnone : (segs.find? fun s => s.paddr ≤ a ∧ a < fileEnd s) = none := by
    refine List.find?_eq_none.mpr fun s hs => ?_
    have hle := h s hs
    rw [decide_eq_true_eq]
    omega
  rw [hnone]

-- ---------------------------------------------------------------------------
-- Loading
-- ---------------------------------------------------------------------------

theorem stageHeader_fields (h : Has m 0 (stageHeader compression entry load len memlen))
    (hload : load < 2 ^ 32) : le32 m 0 = compression % 2 ^ 32 ∧ u32 (le64 m 12) = load ∧
      le32 m 20 = len % 2 ^ 32 ∧ le32 m 24 = memlen % 2 ^ 32 := by
  simp only [stageHeader, has_append, List.length_append] at h
  obtain ⟨⟨⟨⟨hcomp, -, -⟩, hlo, hhi⟩, hlen⟩, hmem⟩ := h
  refine ⟨hcomp.le32, ?_, hlen.le32, hmem.le32⟩
  have hlo := hlo.le32
  have hhi := hhi.le32
  have hsum : le64 m 12 = load % 2 ^ 32 + load / 2 ^ 32 % 2 ^ 32 * 2 ^ 32 := by
    rw [le64]
    exact congrArg₂ (· + · * 2 ^ 32) hlo hhi
  rw [hsum]
  unfold u32
  omega

theorem cbfsLoadStage_memory (hcomp : le32 stage 0 = cbfsCompressNone) (hne : le32 stage 20 ≠ 0)
    (mem : Nat → Byte) :
    (cbfsLoadStage stage mem).2 =
      clearBss (u32 (le64 stage 12)) (le32 stage 20) (le32 stage 24)
        (store32 mem (u32 (le64 stage 12)) (le32 stage 20) fun i => stage (sizeofStage + i)) := by
  have hdecompress (src : Nat → Byte) (dst len : Nat) :
      cbfsDecompress (le32 stage 0) src dst len mem = (len, store32 mem dst len src) := if_pos hcomp
  unfold cbfsLoadStage
  simp only [hdecompress]
  exact congrArg Prod.snd (if_neg hne)

theorem store32_above {mem src : Nat → Byte} (hlt : start < fin) (hfin : fin < 2 ^ 32) (a : Nat) :
    store32 mem start (fin - start) src a =
      if start ≤ a ∧ a < fin then src (a - start) else mem a := by
  unfold store32
  by_cases hin : start ≤ a ∧ a < fin
  · have hoff : sub32 a start = a - start := sub32_of_le hin.1 (by omega)
    rw [if_pos hin, hoff, if_pos ⟨by omega, by omega⟩]
  · rw [if_neg hin, if_neg]
    rintro ⟨ha, hoff⟩
    unfold sub32 u32 at hoff
    omega

/-- What loading leaves at an address, for data up to `fin` and a wrapped end of memory. -/
theorem cbfsLoadStage_apply {stage : Nat → Byte} {start fin memEnd : Nat}
    (h : Has stage 0 (stageHeader cbfsCompressNone entry start (fin - start)
      (sub32 memEnd start)))
    (hlt : start < fin) (hfin : fin < 2 ^ 32) (mem : Nat → Byte) (a : Nat) :
    (cbfsLoadStage stage mem).2 a =
      if a < 2 ^ 32 ∧ sub32 a fin < sub32 memEnd fin then 0
      else if start ≤ a ∧ a < fin then stage (sizeofStage + (a - start)) else mem a := by
  obtain ⟨hcomp, hload, hlen, hmemlen⟩ := stageHeader_fields h (Nat.lt_trans hlt hfin)
  have hsize : (fin - start) % 2 ^ 32 = fin - start := Nat.mod_eq_of_lt (by omega)
  have hdst : u32 (start + (fin - start)) = fin := by
    unfold u32
    omega
  have hleft := sub32_sub (m := memEnd) hlt hfin
  have hne : le32 stage 20 ≠ 0 := by
    rw [hlen, hsize]
    omega
  rw [cbfsLoadStage_memory hcomp hne, hload, hlen, hmemlen, hsize]
  unfold clearBss
  rw [hdst, hleft, store32, store32_above hlt hfin]

-- ---------------------------------------------------------------------------
-- The memory behind the data
-- ---------------------------------------------------------------------------

section

variable {image : Nat → Byte} {start fin memEnd top : Nat}

/-- The memory that is cleared goes up to the top; or it wraps around to where only zeros are. -/
def Cleared (image : Nat → Byte) (start fin memEnd top : Nat) : Prop :=
  u32 top = memEnd ∨ (start = 0 ∧ memEnd < fin ∧ ∀ a < memEnd, image a = 0)

theorem cleared_iff (hlt : start < fin) (hfin : fin < 2 ^ 32) (hmem : memEnd < 2 ^ 32)
    (htop' : fin ≤ top) (hle : top ≤ 2 ^ 32) (hwrap : top < 2 ^ 32 → memEnd = top)
    (hzero : ∀ a ≥ fin, image a = 0) :
    (∀ mem : Nat → Byte, ∀ a,
      (if a < 2 ^ 32 ∧ sub32 a fin < sub32 memEnd fin then 0
      else if start ≤ a ∧ a < fin then image a else mem a) =
        if start ≤ a ∧ a < top then image a else mem a) ↔ Cleared image start fin memEnd top := by
  constructor
  · intro h
    by_cases htop32 : top < 2 ^ 32
    · exact .inl ((u32_eq htop32).trans (hwrap htop32).symm)
    have htop : top = 2 ^ 32 := Nat.le_antisymm hle (Nat.le_of_not_lt htop32)
    subst htop
    by_cases hzero : memEnd = 0
    · exact .inl hzero.symm
    -- the byte at the top is not cleared, or the clearing goes on at 0
    have hbehind : memEnd < fin := by
      by_contra hge
      have h := h (fun a => image a + 1) (2 ^ 32 - 1)
      have hsub : sub32 memEnd fin = memEnd - fin := sub32_of_le (by omega) hmem
      have hoff : sub32 (2 ^ 32 - 1) fin = 2 ^ 32 - 1 - fin := sub32_of_le (by omega) (by omega)
      rw [hsub, hoff, if_neg (by omega), if_neg (by omega), if_pos (by omega)] at h
      revert h
      generalize image (2 ^ 32 - 1) = b
      revert b
      decide
    have hsub : sub32 memEnd fin = memEnd + 2 ^ 32 - fin := sub32_of_lt hbehind (by omega)
    have hlow : ∀ a < memEnd, ∀ mem : Nat → Byte,
        0 = if start ≤ a ∧ a < 2 ^ 32 then image a else mem a := by
      intro a ha mem
      have h := h mem a
      have hoff : sub32 a fin = a + 2 ^ 32 - fin := sub32_of_lt (by omega) (by omega)
      rwa [hsub, hoff, if_pos (by omega)] at h
    have hstart : start = 0 := by
      by_contra hne
      have h := hlow 0 (by omega) fun _ => 1
      rw [if_neg (by omega)] at h
      exact absurd h (by decide)
    refine .inr ⟨hstart, hbehind, fun a ha => ?_⟩
    have h := hlow a ha fun _ => 0
    rw [if_pos (by omega)] at h
    exact h.symm
  · rintro (htop | ⟨rfl, hbehind, hlow⟩) mem a
    · -- what is cleared goes from the data to the top
      have hcleared : (a < 2 ^ 32 ∧ sub32 a fin < sub32 memEnd fin) ↔ fin ≤ a ∧ a < top := by
        unfold sub32 u32 at *
        omega
      by_cases hin : fin ≤ a ∧ a < top
      · rw [if_pos (hcleared.mpr hin), if_pos (by omega), hzero a hin.1]
      · rw [if_neg fun h => hin (hcleared.mp h)]
        by_cases hdata : start ≤ a ∧ a < fin
        · rw [if_pos hdata, if_pos (by omega)]
        · rw [if_neg hdata, if_neg (by omega)]
    · have htop : top = 2 ^ 32 := by
        by_contra hne
        have hmemEnd := hwrap (by omega)
        omega
      subst htop
      have hcleared : (a < 2 ^ 32 ∧ sub32 a fin < sub32 memEnd fin) ↔
          a < 2 ^ 32 ∧ (fin ≤ a ∨ a < memEnd) := by
        unfold sub32 u32
        omega
      by_cases hin : a < 2 ^ 32 ∧ (fin ≤ a ∨ a < memEnd)
      · rw [if_pos (hcleared.mpr hin), if_pos ⟨Nat.zero_le a, hin.1⟩]
        exact (hin.2.elim (hzero a) (hlow a)).symm
      · rw [if_neg fun h => hin (hcleared.mp h)]
        by_cases hdata : 0 ≤ a ∧ a < fin
        · rw [if_pos hdata, if_pos (by omega)]
        · rw [if_neg hdata, if_neg (by omega)]

end

end ItxLlama.Coreboot.MkStage
