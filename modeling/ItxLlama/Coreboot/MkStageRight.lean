import ItxLlama.Coreboot.MkStageLaws

/-!
# Stages are flattened right, but for segments below the location

A stage has the segments' file bytes and zeros, and loading it makes its image,
exactly where no segment ends below the location and no difference of the
extents wraps.
-/

namespace ItxLlama.Coreboot.MkStage

open Lib.Word Lib.Bytes Lib.Overlay Lib.Wrap
open MkPayload
open SelfBoot (cbfsCompressNone)

/-- A 32-bit ELF file in the host's byte order, whose loadable segments are
in the file and in memory and have no address in common. -/
structure WellFormed (input : Buffer) : Prop where
  header : sizeofEhdr ≤ input.size
  elf : iself input.data = true
  native : input.data eiData ≠ elfdata2Msb
  table : ePhoff input.data + sizeofPhdr * ePhnum input.data ≤ input.size
  size : input.size ≤ 2 ^ 32
  placed : ∀ s ∈ segments input, Placed input s
  apart : (segments input).Pairwise Apart

section

variable (host : Host) (arch : Nat) (input : Buffer) (location : Nat)

def start : Nat := max location (lowest (segments input))

def dataEnd : Nat := highest (fun s => u32 (fileEnd s)) (segments input)

/-- The highest memory end of a segment. -/
def top : Nat := highest memEnd (segments input)

def dataSize : Nat := dataEnd input - start input location

/-- No stage is made: the wrong machine, no data behind the location or no memory. -/
def Rejected : Prop :=
  archAccepts arch (eMachine input.data) = false ∨ dataEnd input ≤ start input location ∨
    host.calloc (dataSize input location) = false

/-- Every access is inside, and a stage that is made is loaded as the image:
the file bytes of the segments, and 0 elsewhere. -/
def Flattened : Prop :=
  parseElfToStage host arch input location ≠ .error .outside ∧
    ∀ stage location', parseElfToStage host arch input location = .ok (stage, location') →
      ∀ mem a, (cbfsLoadStage stage.data mem).2 a =
        if start input location ≤ a ∧ a < top input then imageByte input (segments input) a
        else mem a

/-- Every segment reaches the location, the data is shorter than an `int`, and
the memory to be cleared does not end at 4 GiB. -/
def NothingWraps : Prop :=
  (∀ s ∈ segments input, Copies location s) ∧
    (host.bufferCreate (sizeofStage + dataSize input location) = true →
      dataSize input location < 2 ^ 31 ∧
        Cleared (imageByte input (segments input)) (start input location) (dataEnd input)
          (highest (fun s => u32 (memEnd s)) (segments input)) (top input))

end

section

variable {host : Host} {arch location : Nat} {input : Buffer}

theorem highest_u32_lt (f : Phdr → Nat) (segs : List Phdr) :
    highest (fun s => u32 (f s)) segs < 2 ^ 32 :=
  Nat.lt_succ_of_le (highest_le fun _ _ => Nat.le_of_lt_succ (Nat.mod_lt _ (by decide)))

def header (input : Buffer) (location : Nat) : List Byte :=
  stageHeader cbfsCompressNone (eEntry input.data) (start input location) (dataSize input location)
    (sub32 (highest (fun s => u32 (memEnd s)) (segments input)) (start input location))

/-- What is written to the output. -/
def writeStage (host : Host) (input : Buffer) (location : Nat) (buffer : Buffer) :
    Except Fault (Buffer × Nat) :=
  if !host.bufferCreate (sizeofStage + dataSize input location) then .error .rejected
  else do
    let output ← noneCompress
      ⟨fun x => (header input location).getD x 0, sizeofStage + dataSize input location⟩
      sizeofStage buffer (dataSize input location)
    .ok (output, if location ≠ 0 then sub32 location sizeofStage else location)

theorem start_eq (input : Buffer) (location : Nat) :
    (if (extents (stagePhdrs input.data)).dataStart < location then location
      else (extents (stagePhdrs input.data)).dataStart) = start input location := by
  rw [extents_eq]
  unfold start segments
  dsimp only
  split <;> omega

theorem elf32ToNative_native (hwf : WellFormed input) (x : Nat) : elf32ToNative input.data x = x :=
  if_neg hwf.native

theorem dataEnd_eq (input : Buffer) :
    (extents (stagePhdrs input.data)).dataEnd = dataEnd input := by
  rw [extents_eq]
  rfl

theorem parseElfToStage_rejected (hwf : WellFormed input) (h : Rejected host arch input location) :
    parseElfToStage host arch input location = .error .rejected := by
  unfold parseElfToStage
  dsimp only
  rw [elf32ToNative_native hwf, start_eq, dataEnd_eq, if_neg (Nat.not_lt.mpr hwf.header), hwf.elf,
    if_neg (by decide)]
  by_cases harch : archAccepts arch (eMachine input.data) = false
  · rw [if_pos (by rw [harch]; rfl)]
  · rw [if_neg (by simpa using harch), if_neg (Nat.not_lt.mpr hwf.table)]
    by_cases hdata : dataEnd input ≤ start input location
    · rw [if_pos hdata]
    · have hcalloc := (h.resolve_left harch).resolve_left hdata
      rw [if_neg hdata, if_pos (by rw [show dataEnd input - start input location =
        dataSize input location from rfl, hcalloc]; rfl)]

theorem parseElfToStage_eq (hwf : WellFormed input) (h : ¬ Rejected host arch input location) :
    parseElfToStage host arch input location =
      (segments input).foldlM (copySegment input location (start input location))
        ⟨fun _ => 0, dataSize input location⟩ >>= writeStage host input location := by
  obtain ⟨harch, h⟩ := not_or.mp h
  obtain ⟨hdata, hcalloc⟩ := not_or.mp h
  unfold parseElfToStage
  dsimp only
  rw [elf32ToNative_native hwf, start_eq, dataEnd_eq, if_neg (Nat.not_lt.mpr hwf.header), hwf.elf,
    if_neg (by decide), if_neg (by simpa using harch), if_neg (Nat.not_lt.mpr hwf.table),
    if_neg hdata, if_neg (by simpa [dataSize] using hcalloc), copyAll_loads, extents_eq]
  rfl

/-- The bounds of the data and the memory. -/
structure Bounds (input : Buffer) (location : Nat) : Prop where
  start_lt : start input location < dataEnd input
  dataEnd_lt : dataEnd input < 2 ^ 32
  dataEnd_le : dataEnd input ≤ top input
  top_le : top input ≤ 2 ^ 32
  memEnd_lt : highest (fun s => u32 (memEnd s)) (segments input) < 2 ^ 32
  memEnd_eq : top input < 2 ^ 32 → highest (fun s => u32 (memEnd s)) (segments input) = top input

theorem bounds (hwf : WellFormed input) (h : ¬ Rejected host arch input location) :
    Bounds input location := by
  have hle : ∀ s ∈ segments input, memEnd s ≤ top input := fun s hs => le_highest hs
  refine ⟨?_, highest_u32_lt _ _, highest_le fun s hs => ?_, highest_le fun s hs => ?_,
    highest_u32_lt _ _, fun htop => highest_congr fun s hs => ?_⟩
  · exact Nat.lt_of_not_le (not_or.mp (not_or.mp h).2).1
  · have hfilesz := (hwf.placed s hs).filesz
    have hmem := hle s hs
    refine Nat.le_trans (Nat.mod_le _ _) ?_
    unfold fileEnd
    unfold memEnd at hmem
    omega
  · exact (hwf.placed s hs).memory
  · exact u32_eq (Nat.lt_of_le_of_lt (hle s hs) htop)

theorem start_le_max {s : Phdr} (hs : s ∈ segments input) :
    start input location ≤ max s.paddr location := by
  have hle := lowest_le hs
  unfold start
  omega

theorem fileEnd_le {s : Phdr} (hs : s ∈ segments input) (hcopies : Copies location s) :
    fileEnd s ≤ dataEnd input := by
  have hle : u32 (fileEnd s) ≤ dataEnd input := le_highest (f := fun s => u32 (fileEnd s)) hs
  rwa [u32_eq hcopies.2] at hle

theorem copied (hwf : WellFormed input) (hbounds : Bounds input location)
    (hcopies : ∀ s ∈ segments input, Copies location s) :
    ∃ b, (segments input).foldlM (copySegment input location (start input location))
        ⟨fun _ => 0, dataSize input location⟩ = .ok b ∧ b.size = dataSize input location ∧
      ∀ x < dataSize input location,
        b.data x = imageByte input (segments input) (start input location + x) := by
  have hstart := hbounds.start_lt
  obtain ⟨b, hb, hsize, hdata⟩ := copyAll_copies hwf.placed hwf.size (Nat.le_max_left _ _)
    (fun s hs => start_le_max hs) hcopies ⟨fun _ => 0, dataSize input location⟩ fun s hs => by
      have hle := fileEnd_le hs (hcopies s hs)
      show fileEnd s ≤ start input location + (dataEnd input - start input location)
      omega
  exact ⟨b, hb, hsize, fun x hx => (hdata x hx).trans (overlay_patches hwf.placed hwf.apart)⟩

theorem not_copied (hwf : WellFormed input) (hbounds : Bounds input location)
    (hcopies : ¬ ∀ s ∈ segments input, Copies location s) :
    (segments input).foldlM (copySegment input location (start input location))
        ⟨fun _ => 0, dataSize input location⟩ = .error .outside := by
  have hstart := hbounds.start_lt
  have hend := hbounds.dataEnd_lt
  refine copyAll_outside hwf.placed hwf.size (Nat.le_max_left _ _)
    (fun s hs => start_le_max hs) hcopies
    ⟨fun _ => 0, dataSize input location⟩ (fun s hs hs' => ?_) ?_
  · have hle := fileEnd_le hs hs'
    show fileEnd s ≤ start input location + (dataEnd input - start input location)
    omega
  · show start input location + (dataEnd input - start input location) < 2 ^ 32
    omega

theorem writeStage_ok {b : Buffer} (hsize : b.size = dataSize input location)
    (hpos : dataSize input location ≠ 0) (hlt : dataSize input location < 2 ^ 31)
    (hcreate : host.bufferCreate (sizeofStage + dataSize input location) = true) :
    ∃ stage location', writeStage host input location b = .ok (stage, location') ∧
      Has stage.data 0 (header input location) ∧
      ∀ x < dataSize input location, stage.data (sizeofStage + x) = b.data x := by
  unfold writeStage noneCompress memcpy
  dsimp only
  rw [hcreate, if_neg (by decide), if_pos hlt, if_neg hpos, hsize,
    if_pos ⟨Nat.le_of_eq (Nat.zero_add _), Nat.le_refl _⟩]
  refine ⟨_, _, rfl, fun x hx => ?_, fun x hx => ?_⟩
  · have hx : x < sizeofStage := hx
    dsimp only
    rw [Nat.zero_add, if_neg (by omega)]
  · dsimp only
    rw [if_pos ⟨Nat.le_add_right _ _, Nat.add_lt_add_left hx _⟩, Nat.add_sub_cancel_left,
      Nat.zero_add]

theorem writeStage_outside {b : Buffer} (hlt : ¬ dataSize input location < 2 ^ 31)
    (hcreate : host.bufferCreate (sizeofStage + dataSize input location) = true) :
    writeStage host input location b = .error .outside := by
  unfold writeStage noneCompress
  rw [hcreate, if_neg (by decide), if_neg hlt]
  rfl

theorem writeStage_rejected {b : Buffer}
    (hcreate : host.bufferCreate (sizeofStage + dataSize input location) = false) :
    writeStage host input location b = .error .rejected := by
  unfold writeStage
  rw [hcreate]
  rfl

theorem loads_image_iff {stage b : Nat → Byte} (hbounds : Bounds input location)
    (hcopies : ∀ s ∈ segments input, Copies location s)
    (hheader : Has stage 0 (header input location))
    (hdata : ∀ x < dataSize input location, stage (sizeofStage + x) = b x)
    (himage : ∀ x < dataSize input location,
      b x = imageByte input (segments input) (start input location + x)) :
    (∀ mem a, (cbfsLoadStage stage mem).2 a =
      if start input location ≤ a ∧ a < top input then imageByte input (segments input) a
      else mem a) ↔
    Cleared (imageByte input (segments input)) (start input location) (dataEnd input)
      (highest (fun s => u32 (memEnd s)) (segments input)) (top input) := by
  have hstart := hbounds.start_lt
  have hzero : ∀ a ≥ dataEnd input, imageByte input (segments input) a = 0 := fun a ha =>
    imageByte_above fun s hs => Nat.le_trans (fileEnd_le hs (hcopies s hs)) ha
  rw [← cleared_iff hstart hbounds.dataEnd_lt hbounds.memEnd_lt hbounds.dataEnd_le hbounds.top_le
    hbounds.memEnd_eq hzero]
  have happly (mem : Nat → Byte) (a : Nat) :=
    cbfsLoadStage_apply hheader hstart hbounds.dataEnd_lt mem a
  refine forall₂_congr fun mem a => ?_
  have hbyte (hin : start input location ≤ a ∧ a < dataEnd input) :
      stage (sizeofStage + (a - start input location)) = imageByte input (segments input) a := by
    have hlt : a - start input location < dataSize input location :=
      Nat.sub_lt_sub_right hin.1 hin.2
    rw [hdata _ hlt, himage _ hlt, Nat.add_sub_of_le hin.1]
  rw [happly,
    ite_congr rfl (fun _ => rfl) fun _ => ite_congr rfl (fun hin => hbyte hin) fun _ => rfl]

/-- Flattening is right exactly where no stage is made or nothing wraps. -/
theorem flattened_iff (hwf : WellFormed input) (host : Host) (arch location : Nat) :
    Flattened host arch input location ↔
      Rejected host arch input location ∨ NothingWraps host input location := by
  by_cases hrejected : Rejected host arch input location
  · refine iff_of_true ⟨?_, ?_⟩ (.inl hrejected)
    · rw [parseElfToStage_rejected hwf hrejected]
      exact nofun
    · rw [parseElfToStage_rejected hwf hrejected]
      exact nofun
  · rw [or_iff_right hrejected]
    have hbounds := bounds hwf hrejected
    have hpos : dataSize input location ≠ 0 := Nat.sub_ne_zero_of_lt hbounds.start_lt
    unfold Flattened NothingWraps
    rw [parseElfToStage_eq hwf hrejected]
    by_cases hcopies : ∀ s ∈ segments input, Copies location s
    · obtain ⟨b, hb, hsize, himage⟩ := copied hwf hbounds hcopies
      rw [hb, show (Except.ok b >>= writeStage host input location) = writeStage host input location b
        from rfl]
      cases hcreate : host.bufferCreate (sizeofStage + dataSize input location) with
      | false =>
        rw [writeStage_rejected hcreate]
        exact iff_of_true ⟨nofun, nofun⟩ ⟨hcopies, nofun⟩
      | true =>
        by_cases hlt : dataSize input location < 2 ^ 31
        · obtain ⟨stage, location', hstage, hheader, hdata⟩ := writeStage_ok hsize hpos hlt hcreate
          rw [hstage, and_iff_right (nofun : Except.ok _ ≠ Except.error _), and_iff_right hcopies,
            forall_prop_of_true rfl, and_iff_right hlt,
            ← loads_image_iff hbounds hcopies hheader hdata himage]
          constructor
          · exact fun h => h stage location' rfl
          · rintro h _ _ heq
            obtain ⟨rfl, -⟩ := Prod.mk.inj (Except.ok.inj heq)
            exact h
        · rw [writeStage_outside hlt hcreate]
          exact iff_of_false (fun h => h.1 rfl) fun h => hlt (h.2 rfl).1
    · rw [not_copied hwf hbounds hcopies]
      exact iff_of_false (fun h => h.1 rfl) fun h => hcopies h.1

end

/-- Four bytes for 0x1000 and four for 0x2000, with some bss behind each. -/
def twoSegments : Buffer where
  data x := BitVec.ofNat 8 <| ([
    0x7f, 0x45, 0x4c, 0x46, 1, 1, 1, 0, 0, 0, 0, 0, 0, 0, 0, 0,
    2, 0, 3, 0, 1, 0, 0, 0, 0, 0x10, 0, 0, 52, 0, 0, 0, 0, 0, 0, 0, 0, 0, 0, 0,
    52, 0, 32, 0, 2, 0, 0, 0, 0, 0, 0, 0,
    1, 0, 0, 0, 116, 0, 0, 0, 0, 0x10, 0, 0, 0, 0x10, 0, 0,
    4, 0, 0, 0, 16, 0, 0, 0, 5, 0, 0, 0, 4, 0, 0, 0,
    1, 0, 0, 0, 120, 0, 0, 0, 0, 0x20, 0, 0, 0, 0x20, 0, 0,
    4, 0, 0, 0, 32, 0, 0, 0, 6, 0, 0, 0, 4, 0, 0, 0,
    1, 2, 3, 4, 5, 6, 7, 8] : List Nat).getD x 0
  size := 124

theorem twoSegments_segments : segments twoSegments =
    [⟨ptLoad, 116, 0x1000, 4, 16, 5⟩, ⟨ptLoad, 120, 0x2000, 4, 32, 6⟩] := by
  decide +kernel

theorem twoSegments_wellFormed : WellFormed twoSegments where
  header := by decide
  elf := by decide +kernel
  native := by decide
  table := by decide +kernel
  size := by decide
  placed := by
    rw [twoSegments_segments]
    refine List.forall_mem_cons.mpr ⟨?_, List.forall_mem_singleton.mpr ?_⟩
    · constructor <;> decide
    · constructor <;> decide
  apart := by
    rw [twoSegments_segments]
    exact List.pairwise_pair.mpr (.inl (by decide))

def plenty : Host := ⟨fun _ => true, fun _ => true⟩

theorem flattened_iff_twoSegments : Flattened plenty archUnknown twoSegments 0x1000 := by
  refine (flattened_iff twoSegments_wellFormed plenty archUnknown 0x1000).mpr
    (.inr ⟨?_, fun _ => ⟨?_, .inl ?_⟩⟩)
  · rw [twoSegments_segments]
    decide
  · unfold dataSize dataEnd start
    rw [twoSegments_segments]
    decide
  · unfold top
    rw [twoSegments_segments]
    decide

/-- For 0x2000, the first segment's length comes out as 4 - 0x1000. -/
theorem parseElfToStage_below :
    parseElfToStage plenty archUnknown twoSegments 0x2000 = .error .outside ∧
      ¬ Flattened plenty archUnknown twoSegments 0x2000 := by
  have hbelow : parseElfToStage plenty archUnknown twoSegments 0x2000 = .error .outside := by
    have hkept : ¬ Rejected plenty archUnknown twoSegments 0x2000 := by
      unfold Rejected dataEnd start
      rw [twoSegments_segments]
      decide
    rw [parseElfToStage_eq twoSegments_wellFormed hkept,
      not_copied twoSegments_wellFormed (bounds twoSegments_wellFormed hkept)
        (by rw [twoSegments_segments]; decide)]
    rfl
  exact ⟨hbelow, fun h => h.1 hbelow⟩

end ItxLlama.Coreboot.MkStage
