import ItxLlama.Lib.Progress
import ItxLlama.Seabios.CbfsFiles

/-!
# The two CBFS walks over any image

The loops of `coreboot_cbfs_init` and of `cbfs_get_file` as walks, with what they
read of the ROM. Both move on, stay in the ROM and end as long as every header
they come to is in the ROM and its fields lead further on.
-/

namespace ItxLlama.Seabios.CbfsFiles

open Lib.Word Lib.Bytes Lib.Progress
open Coreboot.Cbfs
open StateTransition

-- ---------------------------------------------------------------------------
-- Positions in 32 bits
-- ---------------------------------------------------------------------------

/-- From `p`, `d` bytes lead further on and not around. -/
def LeadsOn (p d : Nat) : Prop := u32 d ≠ 0 ∧ p + u32 d < 2 ^ 32

theorem leadsOn_iff (hp : p < 2 ^ 32) : LeadsOn p d ↔ p < u32 (p + d) := by
  unfold LeadsOn u32
  omega

/-- What `ALIGN` adds to `x`. -/
def padding (x a : Nat) : Nat := (a - 1) - ((x + (a - 1)) &&& (a - 1))

theorem and_complement (hn : n < 2 ^ 32) (hm : m < 2 ^ 32) :
    n &&& (2 ^ 32 - 1 - m) = n - (n &&& m) := by
  let x := BitVec.ofNat 32 n
  let y := BitVec.ofNat 32 m
  have hx : x.toNat = n := Nat.mod_eq_of_lt hn
  have hy : y.toNat = m := Nat.mod_eq_of_lt hm
  have hsum : (x &&& ~~~y) + (x &&& y) = x := by
    rw [BitVec.add_eq_or_of_and_eq_zero]
    · ext i
      simp only [BitVec.getElem_or, BitVec.getElem_and, BitVec.getElem_not]
      cases x[i] <;> cases y[i] <;> rfl
    · ext i
      simp only [BitVec.getElem_and, BitVec.getElem_not, BitVec.getElem_zero]
      cases x[i] <;> cases y[i] <;> rfl
  have hnat := congrArg BitVec.toNat hsum
  rw [BitVec.toNat_add, BitVec.toNat_and, BitVec.toNat_and, BitVec.toNat_not, hx, hy] at hnat
  have hle : n &&& (2 ^ 32 - 1 - m) ≤ n := Nat.and_le_left
  have hle' : n &&& m ≤ n := Nat.and_le_left
  omega

theorem alignMask_padding (ha : a ≤ 2 ^ 32) : alignMask x a = u32 (x + padding x a) := by
  have hmask : a - 1 < 2 ^ 32 := by omega
  have hcut : u32 (x + (a - 1)) &&& (a - 1) = (x + (a - 1)) &&& (a - 1) := by
    apply Nat.eq_of_testBit_eq
    intro i
    rw [u32, Nat.testBit_and, Nat.testBit_and, Nat.testBit_mod_two_pow]
    by_cases hi : i < 32
    · simp [hi]
    · have hbit : (a - 1).testBit i = false := Nat.testBit_lt_two_pow
        (Nat.lt_of_lt_of_le hmask (Nat.pow_le_pow_right Nat.two_pos (Nat.le_of_not_lt hi)))
      simp [hbit]
  have hle : u32 (x + (a - 1)) &&& (a - 1) ≤ u32 (x + (a - 1)) := Nat.and_le_left
  have hle' : (x + (a - 1)) &&& (a - 1) ≤ a - 1 := Nat.and_le_right
  have hlt : u32 (x + (a - 1)) < 2 ^ 32 := Nat.mod_lt _ (by decide)
  rw [alignMask, and_complement hlt hmask, padding]
  rw [hcut] at hle ⊢
  generalize (x + (a - 1)) &&& (a - 1) = low at *
  unfold u32 at *
  omega

-- ---------------------------------------------------------------------------
-- SeaBIOS
-- ---------------------------------------------------------------------------

section Init

variable (mem : Nat → Byte) (env : Env) (romstart romsize align : Nat)

/-- `(u32)fhdr - romstart` -/
def romPos (romstart fhdr : Nat) : Nat := u32 (fhdr + 2 ^ 32 - romstart)

/-- Where the file at `fhdr` ends, rounded up. -/
def fileEnd (fhdr : Nat) : Nat :=
  alignMask (u32 (u32 (fhdr + fileOffset (fetch mem) fhdr) + fileLen (fetch mem) fhdr)) align

/-- A turn of the loop, from the number of allocations and the header it is at. -/
def cbfsInitStep (s : Nat × Nat) : Option (Nat × Nat) :=
  if romPos romstart s.2 > romsize then none
  else if le64 (fetch mem) s.2 ≠ 0x455649484352414c then none
  else if env.mallocTmp s.1 = false then none
  else some (s.1 + 1, fileEnd mem align s.2)

/-- Where the loop gets to from `start`. -/
abbrev InitReaches (start : Nat) (s : Nat × Nat) : Prop :=
  Reaches (cbfsInitStep mem env romstart romsize align) (0, start) s

theorem newRomfile_fields (fhdr : Nat) : (newRomfile mem fhdr).fhdr = fhdr ∧
    (newRomfile mem fhdr).data = u32 (fhdr + fileOffset (fetch mem) fhdr) ∧
    (newRomfile mem fhdr).rawsize = fileLen (fetch mem) fhdr := by
  unfold newRomfile
  simp only
  split <;> exact ⟨rfl, rfl, rfl⟩

theorem cbfsInitLoop_step (fuel : Nat) (s : Nat × Nat) (root : List Romfile) :
    cbfsInitLoop mem env romstart romsize align (fuel + 1) s.1 s.2 root =
      match cbfsInitStep mem env romstart romsize align s with
      | some t => cbfsInitLoop mem env romstart romsize align fuel t.1 t.2
          (newRomfile mem s.2 :: root)
      | none => some (root, if romPos romstart s.2 ≤ romsize ∧
          le64 (fetch mem) s.2 = 0x455649484352414c then s.1 + 1 else s.1) := by
  obtain ⟨-, hdata, hsize⟩ := newRomfile_fields mem s.2
  rw [cbfsInitLoop, cbfsInitStep, fileEnd, ← hdata, ← hsize]
  rcases Nat.lt_or_ge romsize (romPos romstart s.2) with hout | hin
  · have hout' : u32 (s.2 + 2 ^ 32 - romstart) > romsize := hout
    simp only [gt_iff_lt, hout, hout', if_true, Nat.not_le.mpr hout, false_and, if_false]
  · have hin' : ¬ u32 (s.2 + 2 ^ 32 - romstart) > romsize := Nat.not_lt.mpr hin
    rw [if_neg hin', if_neg (Nat.not_lt.mpr hin)]
    by_cases hmagic : le64 (fetch mem) s.2 = 0x455649484352414c
    · rw [if_neg (not_not.mpr hmagic), if_neg (not_not.mpr hmagic)]
      by_cases hmalloc : env.mallocTmp s.1 = false
      · simp only [hmalloc, if_true, hin, hmagic, and_self]
      · rw [if_neg hmalloc, if_neg hmalloc]
    · simp only [hmagic, ne_eq, not_false_iff, if_true, and_false, if_false]

/-- What a turn reads of the ROM: positions and lengths. -/
def initReads (s : Nat × Nat) : List (Nat × Nat) :=
  let pos := romPos romstart s.2
  if pos > romsize then []
  else (pos, 8) ::
    if cbfsInitStep mem env romstart romsize align s = none then []
    else [(pos + 8, 4), (pos + 20, 4),
      (pos + sizeofFile, strtcpyReads (fetch mem) (u32 (s.2 + sizeofFile)) 128)] ++
      if (newRomfile mem s.2).flags = 0 then []
      else [(romPos romstart (newRomfile mem s.2).data + lzmaPropertiesSize, 4)]

/-- What the walk should do over an image. -/
structure InitRight (start : Nat) : Prop where
  forward : ∀ s t, InitReaches mem env romstart romsize align start s →
    cbfsInitStep mem env romstart romsize align s = some t →
      romPos romstart s.2 < romPos romstart t.2
  inside : ∀ s, InitReaches mem env romstart romsize align start s →
    ∀ a ∈ initReads mem env romstart romsize align s, a.1 + a.2 ≤ romsize
  ends : ∃ fuel r, cbfsInitLoop mem env romstart romsize align fuel 0 start [] = some r
  once : ∀ fuel root n, cbfsInitLoop mem env romstart romsize align fuel 0 start [] =
    some (root, n) → (root.map Romfile.fhdr).Nodup ∧ root.length ≤ romsize

/-- The header's two fields with what is missing to the alignment. -/
def fileSpan (fhdr : Nat) : Nat :=
  fileOffset (fetch mem) fhdr + fileLen (fetch mem) fhdr +
    padding (u32 (fhdr + fileOffset (fetch mem) fhdr + fileLen (fetch mem) fhdr)) align

/-- A header with its name lies in the ROM, and the size behind the properties of compressed
data; the fields lead further on. -/
structure FileFits (fhdr : Nat) : Prop where
  header : romPos romstart fhdr + sizeofFile +
    strtcpyReads (fetch mem) (u32 (fhdr + sizeofFile)) 128 ≤ romsize
  lzma : (newRomfile mem fhdr).flags ≠ 0 →
    u32 (romPos romstart fhdr + fileOffset (fetch mem) fhdr) + (lzmaPropertiesSize + 4) ≤ romsize
  leadsOn : LeadsOn (romPos romstart fhdr) (fileSpan mem align fhdr)

/-- The walk does not stop at the very end of the ROM, and every file that it registers fits. -/
structure FilesFit (start : Nat) : Prop where
  magics : ∀ s, InitReaches mem env romstart romsize align start s →
    romPos romstart s.2 ≤ romsize → romPos romstart s.2 + 8 ≤ romsize
  files : ∀ s t, InitReaches mem env romstart romsize align start s →
    cbfsInitStep mem env romstart romsize align s = some t →
      FileFits mem romstart romsize align s.2

variable {mem env romstart romsize align}

theorem cbfsInitStep_eq_some (h : cbfsInitStep mem env romstart romsize align s = some t) :
    romPos romstart s.2 ≤ romsize ∧ t = (s.1 + 1, fileEnd mem align s.2) := by
  unfold cbfsInitStep at h
  split at h
  case isTrue => cases h
  case isFalse hin =>
    split at h
    case isTrue => cases h
    case isFalse =>
      split at h
      case isTrue => cases h
      case isFalse => exact ⟨Nat.le_of_not_lt hin, (Option.some.inj h).symm⟩

theorem romPos_lt (romstart fhdr : Nat) : romPos romstart fhdr < 2 ^ 32 := Nat.mod_lt _ (by decide)

theorem romPos_add (hstart : romstart < 2 ^ 32) :
    romPos romstart (u32 (a + d)) = u32 (romPos romstart a + d) := by
  unfold romPos u32
  omega

theorem fileEnd_eq (halign : align ≤ 2 ^ 32) (fhdr : Nat) :
    fileEnd mem align fhdr = u32 (fhdr + fileSpan mem align fhdr) := by
  rw [fileEnd, alignMask_padding halign, fileSpan]
  have hsum : u32 (u32 (fhdr + fileOffset (fetch mem) fhdr) + fileLen (fetch mem) fhdr) =
      u32 (fhdr + fileOffset (fetch mem) fhdr + fileLen (fetch mem) fhdr) := Nat.mod_add_mod _ _ _
  rw [hsum]
  generalize padding _ align = pad
  unfold u32
  omega

/-- A step moves on if and only if the header's fields lead on. -/
theorem fileEnd_gt_iff (hstart : romstart < 2 ^ 32) (halign : align ≤ 2 ^ 32) (fhdr : Nat) :
    romPos romstart fhdr < romPos romstart (fileEnd mem align fhdr) ↔
      LeadsOn (romPos romstart fhdr) (fileSpan mem align fhdr) := by
  rw [leadsOn_iff (romPos_lt _ _), fileEnd_eq halign, romPos_add hstart]

/-- The reads of a turn stay in the ROM if and only if the magic does, and, where there is a
file, what is looked at of it. -/
theorem initReads_inside (hstart : romstart < 2 ^ 32) (s : Nat × Nat) :
    (∀ a ∈ initReads mem env romstart romsize align s, a.1 + a.2 ≤ romsize) ↔
      (romPos romstart s.2 ≤ romsize → romPos romstart s.2 + 8 ≤ romsize) ∧
        ∀ t, cbfsInitStep mem env romstart romsize align s = some t →
          romPos romstart s.2 + sizeofFile +
            strtcpyReads (fetch mem) (u32 (s.2 + sizeofFile)) 128 ≤ romsize ∧
          ((newRomfile mem s.2).flags ≠ 0 →
            u32 (romPos romstart s.2 + fileOffset (fetch mem) s.2) + (lzmaPropertiesSize + 4) ≤
              romsize) := by
  have hdata : romPos romstart (newRomfile mem s.2).data =
      u32 (romPos romstart s.2 + fileOffset (fetch mem) s.2) := by
    rw [(newRomfile_fields mem s.2).2.1, romPos_add hstart]
  unfold initReads
  simp only [hdata, sizeofFile]
  cases hstep : cbfsInitStep mem env romstart romsize align s with
  | none =>
    by_cases hout : romPos romstart s.2 > romsize
    · simp [hout, Nat.not_le.mpr hout]
    · simp [hout, Nat.not_lt.mp hout]
  | some t =>
    have hin := (cbfsInitStep_eq_some hstep).1
    rw [if_neg (Nat.not_lt.mpr hin)]
    by_cases hflags : (newRomfile mem s.2).flags = 0
    · simp only [hflags, hin, reduceCtorEq, if_false, if_true, List.append_nil,
        List.forall_mem_cons,
        List.not_mem_nil, false_imp_iff, implies_true, and_true, forall_true_left, ne_eq,
        not_true_eq_false, Option.some.injEq, forall_eq']
      omega
    · simp only [hflags, hin, reduceCtorEq, if_false, List.cons_append, List.nil_append,
        List.forall_mem_cons, List.not_mem_nil, false_imp_iff, implies_true, and_true,
        forall_true_left, ne_eq, not_false_eq_true, Option.some.injEq, forall_eq']
      omega

theorem FilesFit.forward (h : FilesFit mem env romstart romsize align start)
    (hstart : romstart < 2 ^ 32) (halign : align ≤ 2 ^ 32)
    (hs : InitReaches mem env romstart romsize align start s)
    (ht : cbfsInitStep mem env romstart romsize align s = some t) :
    romPos romstart s.2 < romPos romstart t.2 := by
  rw [(cbfsInitStep_eq_some ht).2, fileEnd_gt_iff hstart halign]
  exact (h.files s t hs ht).leadsOn

/-- What the files registered so far are: their headers lie in the ROM, in order, behind the
one that the walk is at. -/
structure Registered (romstart romsize : Nat) (root : List Romfile) (fhdr : Nat) : Prop where
  inside : ∀ f ∈ root, romPos romstart f.fhdr < romsize
  behind : ∀ f ∈ root, romPos romstart f.fhdr < romPos romstart fhdr
  ordered : root.Pairwise fun f g => romPos romstart g.fhdr < romPos romstart f.fhdr

theorem Registered.cons (h : Registered romstart romsize root fhdr)
    (hin : romPos romstart fhdr < romsize) (hlt : romPos romstart fhdr < romPos romstart fhdr') :
    Registered romstart romsize (newRomfile mem fhdr :: root) fhdr' := by
  have hfhdr := (newRomfile_fields mem fhdr).1
  refine ⟨List.forall_mem_cons.mpr ⟨by rwa [hfhdr], h.inside⟩, ?_, ?_⟩
  · refine List.forall_mem_cons.mpr ⟨by rwa [hfhdr], fun f hf => ?_⟩
    exact Nat.lt_trans (h.behind f hf) hlt
  · refine List.pairwise_cons.mpr ⟨fun f hf => ?_, h.ordered⟩
    rw [hfhdr]
    exact h.behind f hf

theorem Registered.once (h : Registered romstart romsize root fhdr) :
    (root.map Romfile.fhdr).Nodup ∧ root.length ≤ romsize := by
  have hpos : (root.map fun f => romPos romstart f.fhdr).Nodup := by
    refine List.pairwise_map.mpr (h.ordered.imp ?_)
    exact fun hlt => Nat.ne_of_gt hlt
  constructor
  · refine List.pairwise_map.mpr (h.ordered.imp fun hlt heq => ?_)
    rw [heq] at hlt
    exact Nat.lt_irrefl _ hlt
  · have hsub : root.map (fun f => romPos romstart f.fhdr) ⊆ List.range romsize := by
      intro q hq
      obtain ⟨f, hf, rfl⟩ := List.mem_map.mp hq
      exact List.mem_range.mpr (h.inside f hf)
    simpa using (hpos.subperm hsub).length_le

theorem cbfsInitLoop_registered (h : FilesFit mem env romstart romsize align start)
    (hstart : romstart < 2 ^ 32) (halign : align ≤ 2 ^ 32)
    (hs : InitReaches mem env romstart romsize align start s)
    (hroot : Registered romstart romsize root s.2)
    (hrun : cbfsInitLoop mem env romstart romsize align fuel s.1 s.2 root = some (root', n)) :
    ∃ fhdr, Registered romstart romsize root' fhdr := by
  induction fuel generalizing s root with
  | zero => cases hrun
  | succ fuel ih =>
    rw [cbfsInitLoop_step] at hrun
    split at hrun
    next t ht =>
      refine ih (reaches_step hs ht) (hroot.cons ?_ (h.forward hstart halign hs ht)) hrun
      have := h.magics s hs (cbfsInitStep_eq_some ht).1
      omega
    next =>
      cases hrun
      exact ⟨s.2, hroot⟩

theorem cbfsInitLoop_ends (h : FilesFit mem env romstart romsize align start)
    (hstart : romstart < 2 ^ 32) (halign : align ≤ 2 ^ 32) :
    ∃ fuel r, cbfsInitLoop mem env romstart romsize align fuel 0 start [] = some r := by
  have hhalts : Halts (cbfsInitStep mem env romstart romsize align) (0, start) :=
    halts_of_progress (fun s => romPos romstart s.2) (romsize + 1)
      (fun s t hs ht => h.forward hstart halign hs ht) fun s t _ ht =>
        Nat.lt_succ_of_le (cbfsInitStep_eq_some ht).1
  have hends : ∃ fuel, ∀ root, ∃ r,
      cbfsInitLoop mem env romstart romsize align fuel 0 start root = some r := by
    refine ends_of_halts (P := fun fuel s => ∀ root, ∃ r,
      cbfsInitLoop mem env romstart romsize align fuel s.1 s.2 root = some r)
      (fun fuel s t ht hfuel root => ?_) (fun s hs => ?_) hhalts
    · rw [cbfsInitLoop_step, ht]
      exact hfuel _
    · exact ⟨1, fun root => ⟨_, by rw [cbfsInitLoop_step, hs]⟩⟩
  obtain ⟨fuel, hfuel⟩ := hends
  exact ⟨fuel, hfuel []⟩

theorem initRight_iff (hstart : romstart < 2 ^ 32) (halign : align ≤ 2 ^ 32) :
    InitRight mem env romstart romsize align start ↔
      FilesFit mem env romstart romsize align start := by
  constructor
  · intro h
    have hinside (s) (hs : InitReaches mem env romstart romsize align start s) :=
      (initReads_inside hstart s).mp (h.inside s hs)
    refine ⟨fun s hs => (hinside s hs).1, fun s t hs ht => ?_⟩
    obtain ⟨hheader, hlzma⟩ := (hinside s hs).2 t ht
    refine ⟨hheader, hlzma, (fileEnd_gt_iff hstart halign s.2).mp ?_⟩
    have hforward := h.forward s t hs ht
    rwa [(cbfsInitStep_eq_some ht).2] at hforward
  · intro h
    refine ⟨fun s t hs ht => h.forward hstart halign hs ht, fun s hs => ?_,
      cbfsInitLoop_ends h hstart halign, fun fuel root n hrun => ?_⟩
    · refine (initReads_inside hstart s).mpr ⟨h.magics s hs, fun t ht => ?_⟩
      exact ⟨(h.files s t hs ht).header, (h.files s t hs ht).lzma⟩
    · obtain ⟨fhdr, hroot⟩ := cbfsInitLoop_registered h hstart halign (s := (0, start)) .refl
        ⟨by simp, by simp, .nil⟩ hrun
      exact hroot.once

end Init

-- ---------------------------------------------------------------------------
-- coreboot
-- ---------------------------------------------------------------------------

section GetFile

variable (mem : Nat → Byte) (name : List Byte) (context align romsize : Nat)

/-- `file_name` of the file at `offset`. -/
def fileName (offset : Nat) : Nat := x86RomMap context (u32 (offset + sizeofFile))

/-- There is a file at `offset`, and its name can be mapped. -/
def hasName (offset : Nat) : Bool :=
  hasMagic (fetch mem) (x86RomMap context offset) ∧
    fileName context offset ≠ cbfsMediaInvalidMapAddress

def fileFound (offset : Nat) : Bool :=
  hasName mem context offset ∧ streq (fetch mem) (fileName context offset) name

/-- The next offset: past the file, or past a place without a header, and rounded up. -/
def nextOffset (offset : Nat) : Nat :=
  let file := x86RomMap context offset
  if hasMagic (fetch mem) file = false then
    let newAlign := if offset % align ≠ 0 then u32 (align + (align - offset % align)) else align
    u32 (offset + newAlign)
  else
    let offset := u32 (offset + u32 (fileLen (fetch mem) file + fileOffset (fetch mem) file))
    if offset % align ≠ 0 then u32 (offset + (align - offset % align)) else offset

def cbfsGetFileStep (offset : Nat) : Option Nat :=
  if offset < romsize ∧ fileFound mem name context offset = false then
    some (nextOffset mem context align offset)
  else none

abbrev GetReaches (start offset : Nat) : Prop :=
  Reaches (cbfsGetFileStep mem name context align romsize) start offset

theorem cbfsGetFileLoop_step (fuel offset : Nat) :
    cbfsGetFileLoop mem (fun fileName => streq (fetch mem) fileName name) context align romsize
      (fuel + 1) offset =
      match cbfsGetFileStep mem name context align romsize offset with
      | some next => cbfsGetFileLoop mem (fun fileName => streq (fetch mem) fileName name) context
          align romsize fuel next
      | none => some (if offset < romsize then some (x86RomMap context offset) else none) := by
  rw [cbfsGetFileLoop, cbfsGetFileStep, nextOffset, fileFound, hasName, fileName]
  by_cases hlt : offset < romsize
  · rw [if_pos hlt]
    by_cases hmagic : hasMagic (fetch mem) (x86RomMap context offset) = false
    · simp [hlt, hmagic]
    · by_cases hname : x86RomMap context (u32 (offset + sizeofFile)) ≠ cbfsMediaInvalidMapAddress ∧
        streq (fetch mem) (x86RomMap context (u32 (offset + sizeofFile))) name
      · simp [hlt, hmagic, hname]
      · have hmagic' : hasMagic (fetch mem) (x86RomMap context offset) = true := by simpa using hmagic
        simp only [hmagic', hlt, hname, Bool.true_eq_false, if_false, true_and,
          decide_eq_true_eq, decide_false, and_self, if_true]
  · simp [hlt]

/-- What a turn reads of the ROM: addresses and lengths. -/
def getReads (offset : Nat) : List (Nat × Nat) :=
  if offset < romsize then
    (x86RomMap context offset, sizeofFile) ::
      if hasName mem context offset then
        [(fileName context offset, strcmpReads (fetch mem) (fileName context offset) name)]
      else []
  else []

/-- What the walk should do over a ROM of `context` bytes that ends at 4 GiB. -/
structure GetRight (start : Nat) : Prop where
  forward : ∀ s t, GetReaches mem name context align romsize start s →
    cbfsGetFileStep mem name context align romsize s = some t → s < t
  inside : ∀ s, GetReaches mem name context align romsize start s →
    ∀ a ∈ getReads mem name context romsize s, 2 ^ 32 - context ≤ a.1 ∧ a.1 + a.2 ≤ 2 ^ 32
  ends : ∃ fuel r, cbfsGetFileLoop mem (fun fileName => streq (fetch mem) fileName name) context
    align romsize fuel start = some r

/-- `n` bytes at an offset are in the ROM. An offset above `0xf0000000` is an address. -/
def InRom (offset n : Nat) : Prop :=
  if offset > 0xf0000000 then 2 ^ 32 ≤ offset + context ∧ offset + n ≤ 2 ^ 32
  else offset + n ≤ context

/-- What is missing to the next multiple. -/
def toMultiple (x a : Nat) : Nat := if x % a ≠ 0 then a - x % a else 0

/-- How far a place without a header leads, and the fields of a header. -/
def placeSpan (offset : Nat) : Nat :=
  let file := x86RomMap context offset
  if hasMagic (fetch mem) file = false then align + toMultiple offset align
  else
    fileOffset (fetch mem) file + fileLen (fetch mem) file +
      toMultiple (u32 (offset + fileOffset (fetch mem) file + fileLen (fetch mem) file)) align

/-- Wherever the walk looks for a header there are the bytes of one, a file's name is in the ROM as
far as it is compared, and what the walk goes on from leads further on. -/
structure PlacesFit (start : Nat) : Prop where
  headers : ∀ s, GetReaches mem name context align romsize start s → s < romsize →
    InRom context s sizeofFile
  names : ∀ s, GetReaches mem name context align romsize start s → s < romsize →
    hasName mem context s → InRom context (u32 (s + sizeofFile))
      (strcmpReads (fetch mem) (fileName context s) name)
  leadsOn : ∀ s t, GetReaches mem name context align romsize start s →
    cbfsGetFileStep mem name context align romsize s = some t →
      LeadsOn s (placeSpan mem context align s)

variable {mem name context align romsize}

theorem cbfsGetFileStep_eq_some (h : cbfsGetFileStep mem name context align romsize s = some t) :
    s < romsize ∧ t = nextOffset mem context align s := by
  unfold cbfsGetFileStep at h
  split at h
  case isTrue hs => exact ⟨hs.1, (Option.some.inj h).symm⟩
  case isFalse => cases h

theorem nextOffset_eq (offset : Nat) :
    nextOffset mem context align offset = u32 (offset + placeSpan mem context align offset) := by
  unfold nextOffset placeSpan
  simp only
  split
  case isTrue =>
    unfold toMultiple u32
    split <;> omega
  case isFalse =>
    generalize fileLen (fetch mem) _ = len
    generalize fileOffset (fetch mem) _ = off
    have hsum : u32 (offset + u32 (len + off)) = u32 (offset + off + len) := by
      unfold u32
      omega
    rw [hsum]
    unfold toMultiple
    split
    case isTrue =>
      generalize u32 (offset + off + len) % align = r
      unfold u32
      omega
    case isFalse => rw [Nat.add_zero, Nat.add_assoc]

theorem nextOffset_gt_iff (hs : s < 2 ^ 32) :
    s < nextOffset mem context align s ↔ LeadsOn s (placeSpan mem context align s) := by
  rw [leadsOn_iff hs, nextOffset_eq]

theorem x86RomMap_inside (hcontext : context < 2 ^ 32) (hoffset : offset < 2 ^ 32) (hn : 0 < n) :
    (2 ^ 32 - context ≤ x86RomMap context offset ∧ x86RomMap context offset + n ≤ 2 ^ 32) ↔
      InRom context offset n := by
  unfold x86RomMap InRom u32
  split <;> omega

theorem getReads_inside (hcontext : context < 2 ^ 32) (hromsize : romsize < 2 ^ 32) (s : Nat) :
    (∀ a ∈ getReads mem name context romsize s, 2 ^ 32 - context ≤ a.1 ∧ a.1 + a.2 ≤ 2 ^ 32) ↔
      s < romsize → InRom context s sizeofFile ∧
        (hasName mem context s → InRom context (u32 (s + sizeofFile))
          (strcmpReads (fetch mem) (fileName context s) name)) := by
  unfold getReads
  split
  case isFalse hout => simp [hout]
  case isTrue hlt =>
    have hname : u32 (s + sizeofFile) < 2 ^ 32 := Nat.mod_lt _ (by decide)
    have hpos := strcmpReads_pos (fetch mem) (fileName context s) name
    rw [← x86RomMap_inside hcontext (Nat.lt_trans hlt hromsize) (by decide),
      ← x86RomMap_inside hcontext hname hpos]
    split
    case isTrue hhas => simp [hlt, hhas, fileName]
    case isFalse hhas => simp [hlt, hhas]

theorem cbfsGetFileLoop_ends (h : PlacesFit mem name context align romsize start)
    (hromsize : romsize < 2 ^ 32) : ∃ fuel r, cbfsGetFileLoop mem
      (fun fileName => streq (fetch mem) fileName name) context align romsize fuel start = some r := by
  have hhalts : Halts (cbfsGetFileStep mem name context align romsize) start := by
    refine halts_of_progress id romsize (fun s t hs ht => ?_)
      fun s t _ ht => (cbfsGetFileStep_eq_some ht).1
    obtain ⟨hlt, heq⟩ := cbfsGetFileStep_eq_some ht
    rw [heq]
    exact (nextOffset_gt_iff (Nat.lt_trans hlt hromsize)).mpr (h.leadsOn s t hs ht)
  refine ends_of_halts (P := fun fuel s => ∃ r, cbfsGetFileLoop mem
    (fun fileName => streq (fetch mem) fileName name) context align romsize fuel s = some r)
    (fun fuel s t ht hfuel => ?_) (fun s hs => ?_) hhalts
  · rw [cbfsGetFileLoop_step, ht]
    exact hfuel
  · exact ⟨1, _, by rw [cbfsGetFileLoop_step, hs]⟩

theorem getRight_iff (hcontext : context < 2 ^ 32) (hromsize : romsize < 2 ^ 32) :
    GetRight mem name context align romsize start ↔
      PlacesFit mem name context align romsize start := by
  constructor
  · intro h
    have hinside (s) (hs : GetReaches mem name context align romsize start s) :=
      (getReads_inside hcontext hromsize s).mp (h.inside s hs)
    refine ⟨fun s hs hlt => (hinside s hs hlt).1, fun s hs hlt => (hinside s hs hlt).2,
      fun s t hs ht => ?_⟩
    obtain ⟨hlt, heq⟩ := cbfsGetFileStep_eq_some ht
    rw [← nextOffset_gt_iff (Nat.lt_trans hlt hromsize), ← heq]
    exact h.forward s t hs ht
  · intro h
    refine ⟨fun s t hs ht => ?_, fun s hs => ?_, cbfsGetFileLoop_ends h hromsize⟩
    · obtain ⟨hlt, heq⟩ := cbfsGetFileStep_eq_some ht
      rw [heq]
      exact (nextOffset_gt_iff (Nat.lt_trans hlt hromsize)).mpr (h.leadsOn s t hs ht)
    · exact (getReads_inside hcontext hromsize s).mpr fun hlt =>
        ⟨h.headers s hs hlt, h.names s hs hlt⟩

end GetFile

-- ---------------------------------------------------------------------------
-- Both walks behind a master header
-- ---------------------------------------------------------------------------

structure MasterHeader (mem : Nat → Byte) where
  addr : Nat
  magic : headerMagic (fetch mem) addr = cbfsHeaderMagic
  align_ne_zero : headerAlign (fetch mem) addr ≠ 0

section Header

variable {mem : Nat → Byte} (env : Env) (name : List Byte) (configRomSize : BitVec 32)
  (hdr : MasterHeader mem)

def MasterHeader.romsize : Nat := headerRomsize (fetch mem) hdr.addr
def MasterHeader.romstart : Nat := u32 (2 ^ 32 - hdr.romsize)
def MasterHeader.align : Nat := headerAlign (fetch mem) hdr.addr
def MasterHeader.offset : Nat := headerOffset (fetch mem) hdr.addr

/-- Both walks are right. The ROM of coreboot's is what its media map. -/
structure WalksRight : Prop where
  seabios : InitRight mem env hdr.romstart hdr.romsize hdr.align (u32 (hdr.romstart + hdr.offset))
  coreboot : GetRight mem name (mediaContext configRomSize.toNat mem) hdr.align
    (cbfsRomsize mem hdr.addr) hdr.offset

/-- What the fields of the headers have to be for that. -/
structure HeadersFit : Prop where
  seabios : FilesFit mem env hdr.romstart hdr.romsize hdr.align (u32 (hdr.romstart + hdr.offset))
  coreboot : PlacesFit mem name (mediaContext configRomSize.toNat mem) hdr.align
    (cbfsRomsize mem hdr.addr) hdr.offset

theorem mediaContext_lt : mediaContext configRomSize.toNat mem < 2 ^ 32 := by
  unfold mediaContext
  dsimp only
  split
  · exact configRomSize.isLt
  · exact be32_lt _ _

variable {env name configRomSize hdr}

theorem WalksRight.corebootCbfsInit_ends (h : WalksRight env name configRomSize hdr)
    (hptr : le32 (fetch mem) 0xfffffffc = hdr.addr) :
    ∃ fuel root, corebootCbfsInit mem env fuel = some root := by
  obtain ⟨fuel, r, hr⟩ := h.seabios.ends
  refine ⟨fuel, processLinksFile mem env r.1 r.2, ?_⟩
  have hmagic : ¬ headerMagic (fetch mem) hdr.addr ≠ cbfsHeaderMagic := not_not.mpr hdr.magic
  simp only [MasterHeader.romstart, MasterHeader.romsize, MasterHeader.align,
    MasterHeader.offset] at hr
  simp only [corebootCbfsInit, hptr, if_neg hmagic, hr, Option.bind_eq_bind, Option.bind_some]

theorem WalksRight.cbfsGetFile_ends (h : WalksRight env name configRomSize hdr)
    (hget : cbfsGetHeader configRomSize.toNat mem = some hdr.addr) :
    ∃ fuel r, cbfsGetFile configRomSize.toNat mem name fuel = some r := by
  obtain ⟨fuel, r, hr⟩ := h.coreboot.ends
  refine ⟨fuel, r, ?_⟩
  rw [cbfsGetFile, cbfsGetFileBy, hget]
  exact hr

end Header

/-- 256 bytes of ROM: a file header whose offset and length are 0, and the master header. -/
def zeroFileRom : List Byte :=
  cbfsFileMagic ++ List.replicate 120 0 ++
    [0x4f, 0x52, 0x42, 0x43, 0x31, 0x31, 0x31, 0x32, 0, 0, 1, 0, 0, 0, 0, 0, 0, 0, 0, 64] ++
    List.replicate 104 0 ++ [0x80, 0xff, 0xff, 0xff]

def zeroFileMem (a : Nat) : Byte :=
  if a < 0xffffff00 then 0 else zeroFileRom.getD (a - 0xffffff00) 0

end ItxLlama.Seabios.CbfsFiles
