import ItxLlama.Lib.Tiling
import ItxLlama.Seabios.CbfsFiles
import Mathlib.Data.List.Find

/-!
# The readers of a CBFS image agree

cbfstool walks the image, coreboot and SeaBIOS the ROM. Over entries that
tile the area each steps from an entry to the same next one, so all three
visit the same entries.
-/

namespace ItxLlama.Seabios.CbfsFiles

open Lib.Word
open Lib.Bytes
open Lib.Tiling
open Coreboot.Cbfs

-- ---------------------------------------------------------------------------
-- The image in the ROM
-- ---------------------------------------------------------------------------

/-- The image is in the ROM at the end of the address space. -/
structure Flashed (img : Image) (mem : Nat → Byte) : Prop where
  romsize : headerRomsize img.data img.header = img.size
  /-- coreboot takes what is above `0xf0000000` for an address: no offset is, and the header's
  pointer is. -/
  small : img.size ≤ 0xf0000000
  near : img.size < img.header + 2 ^ 28
  window : ∀ i < img.size, mem (2 ^ 32 - img.size + i) = img.data i
  pointer : le32 (fetch mem) 0xfffffffc = 2 ^ 32 - img.size + img.header
  inside : img.header + sizeofHeader ≤ img.size
  magic : headerMagic img.data img.header = cbfsHeaderMagic

/-- A named file with its header, name and data in front of `top`. -/
structure IsFile (img : Image) (top entry : Nat) (name : List Byte) : Prop where
  valid : cbfsIsValidEntry img entry = true
  string : streq img.data (entry + sizeofFile) name = true
  noNul : 0 ∉ name
  nonempty : name ≠ []
  inHeader : sizeofFile + name.length < fileOffset img.data entry
  inside : entry + (fileOffset img.data entry + fileLen img.data entry) ≤ top

/-- The files tile the area from the first entry to `top`, in front of the boot block. -/
structure Tiled (img : Image) (mem : Nat → Byte) (name : Nat → List Byte) (es : List Nat)
    (top : Nat) : Prop where
  pow : ∃ k, img.align = 2 ^ k
  first : img.align ∣ cbfsFindFirstEntry img
  rom : img.align ∣ img.size
  tiles : Tiles id (cbfsFindNextEntry img) (cbfsFindFirstEntry img) es top
  bootblock : top + headerBootblocksize img.data img.header ≤ img.size
  file : ∀ e ∈ es, IsFile img top e (name e)
  clear : ∀ a, top ≤ a → a ≤ img.size → hasMagic (fetch mem) (2 ^ 32 - img.size + a) = false

variable {img : Image} {mem : Nat → Byte} {name : Nat → List Byte} {es : List Nat} {top : Nat}

theorem fetch_congr (h : u32 a = u32 b) (i : Nat) : fetch mem (a + i) = fetch mem (b + i) := by
  unfold fetch
  congr 1
  unfold u32 at *
  omega

theorem Flashed.byte (h : Flashed img mem) (hi : i < img.size) :
    fetch mem (2 ^ 32 - img.size + i) = img.data i := by
  have := h.small
  rw [fetch, u32_eq (by omega), h.window i hi]

theorem Flashed.read (h : Flashed img mem) (hi : i + 4 ≤ img.size) :
    be32 (fetch mem) (2 ^ 32 - img.size + i) = be32 img.data i :=
  be32_congr fun j hj => by rw [Nat.add_assoc, h.byte (by omega)]

theorem Flashed.hasMagic_eq (h : Flashed img mem) (hi : i + 8 ≤ img.size) :
    hasMagic (fetch mem) (2 ^ 32 - img.size + i) = hasMagic img.data i :=
  hasMagic_congr fun j hj => by rw [Nat.add_assoc, h.byte (by omega)]

-- ---------------------------------------------------------------------------
-- The next entry
-- ---------------------------------------------------------------------------

theorem alignUp32_eq (hsum : v + a ≤ 2 ^ 32) (ha : 0 < a) : alignUp32 v a = alignUp v a := by
  have hlt := Nat.mod_lt v ha
  have hdiv : a * (v / a) + v % a = v := Nat.div_add_mod v a
  unfold alignUp32
  split
  next hmod =>
    rw [u32_eq (by omega)]
    refine (alignUp_unique ha ⟨v / a + 1, ?_⟩ (by omega) (by omega)).symm
    rw [Nat.mul_succ]
    omega
  next hmod =>
    exact (alignUp_of_dvd ha (Nat.dvd_of_mod_eq_zero (by omega))).symm

theorem and_highMask {k : Nat} (hz : z < 2 ^ 32) (hk : k ≤ 32) :
    z &&& (2 ^ 32 - 1 - (2 ^ k - 1)) = alignDown z (2 ^ k) := by
  have hmask : 2 ^ 32 - 1 - (2 ^ k - 1) = (2 ^ (32 - k) - 1) <<< k := by
    have hpow : 2 ^ (32 - k) * 2 ^ k = 2 ^ 32 := by rw [← Nat.pow_add, Nat.sub_add_cancel hk]
    have hpos := Nat.two_pow_pos k
    rw [Nat.shiftLeft_eq, Nat.sub_mul, hpow]
    omega
  have hdown : alignDown z (2 ^ k) = (z >>> k) <<< k := by
    rw [Nat.shiftLeft_eq, Nat.shiftRight_eq_div_pow]
    have := Nat.div_add_mod z (2 ^ k)
    unfold alignDown
    rw [Nat.mul_comm]
    omega
  rw [hmask, hdown]
  apply Nat.eq_of_testBit_eq
  intro i
  simp only [Nat.testBit_and, Nat.testBit_shiftLeft, Nat.testBit_shiftRight,
    Nat.testBit_two_pow_sub_one]
  by_cases hki : k ≤ i
  · simp only [hki, decide_true, Bool.true_and, Nat.add_sub_cancel' hki]
    by_cases hi : i < 32
    · simp [show i - k < 32 - k by omega]
    · have : z.testBit i = false := Nat.testBit_lt_two_pow
        (Nat.lt_of_lt_of_le hz (Nat.pow_le_pow_right (by decide) (by omega)))
      simp [this]
  · simp [hki]

/-- Rounding an address up rounds the offset up where the ROM starts at a multiple. -/
theorem alignMask_eq {k : Nat} (hk : k ≤ 32) (hbase : 2 ^ k ∣ base) :
    alignMask (u32 (base + y)) (2 ^ k) = u32 (base + alignUp y (2 ^ k)) := by
  have hpos := Nat.two_pow_pos k
  have hup : base + alignUp y (2 ^ k) = alignUp (base + y) (2 ^ k) := by
    refine (alignUp_unique hpos (Nat.dvd_add hbase (dvd_alignUp _ _)) ?_ ?_).symm
    · have := le_alignUp y hpos
      omega
    · have := alignUp_lt y hpos
      omega
  have hsum : u32 (u32 (base + y) + (2 ^ k - 1)) = u32 (base + y + (2 ^ k - 1)) := by
    unfold u32
    omega
  have hlt : u32 (base + y + (2 ^ k - 1)) < 2 ^ 32 := Nat.mod_lt _ (by decide)
  unfold alignMask
  rw [hup, hsum, and_highMask hlt hk]
  unfold alignUp
  -- rounding down commutes with the wrap
  generalize base + y + (2 ^ k - 1) = z
  have hmod : u32 z % 2 ^ k = z % 2 ^ k := Nat.mod_mod_of_dvd z (Nat.pow_dvd_pow 2 hk)
  have hle := Nat.mod_le (u32 z) (2 ^ k)
  unfold alignDown
  rw [hmod] at *
  unfold u32 at *
  omega

theorem Tiled.top_le (ht : Tiled img mem name es top) : top ≤ img.size := by
  have := ht.bootblock
  omega

section Agree

variable (hf : Flashed img mem) (ht : Tiled img mem name es top)

include hf ht

/-- Both the size and 4 GiB are multiples of the alignment, so there is room for rounding up. -/
theorem Tiled.align_pos : 0 < img.align ∧ img.size + img.align ≤ 2 ^ 32 := by
  obtain ⟨k, hk⟩ := ht.pow
  have hpos := Nat.two_pow_pos k
  have hsize := hf.inside
  have hsmall := hf.small
  unfold sizeofHeader at hsize
  have hle := Nat.le_of_dvd (by omega) ht.rom
  have hk32 : k ≤ 32 := by
    by_contra hbig
    have := Nat.pow_le_pow_right (by decide : 0 < 2) (Nat.le_of_not_le hbig)
    omega
  have hdvd : img.align ∣ 2 ^ 32 - img.size := by
    rw [hk]
    exact Nat.dvd_sub (Nat.pow_dvd_pow 2 hk32) (hk ▸ ht.rom)
  have hroom := Nat.le_of_dvd (by omega) hdvd
  omega

theorem Tiled.next (he : e ∈ es) : cbfsFindNextEntry img e =
    alignUp (e + (fileOffset img.data e + fileLen img.data e)) img.align := by
  have hin := (ht.file e he).inside
  have htop := ht.top_le
  have hsmall := hf.small
  obtain ⟨hpos, hlt⟩ := ht.align_pos hf
  unfold cbfsFindNextEntry cbfsGetEntryAddr
  simp only
  rw [u32_eq (show e < 2 ^ 32 by omega),
    u32_eq (show fileOffset img.data e + fileLen img.data e < 2 ^ 32 by omega),
    u32_eq (show e + (fileOffset img.data e + fileLen img.data e) < 2 ^ 32 by omega),
    alignUp32_eq (by omega) hpos]

theorem Tiled.fields (he : e ∈ es) :
    hasMagic (fetch mem) (2 ^ 32 - img.size + e) = true ∧
      fileLen (fetch mem) (2 ^ 32 - img.size + e) = fileLen img.data e ∧
      fileOffset (fetch mem) (2 ^ 32 - img.size + e) = fileOffset img.data e := by
  have hfile := ht.file e he
  have hvalid := hfile.valid
  have hin := hfile.inside
  have hheader := hfile.inHeader
  have htop := ht.top_le
  unfold sizeofFile at hheader
  unfold cbfsIsValidEntry at hvalid
  simp only [decide_eq_true_eq] at hvalid
  refine ⟨?_, ?_, ?_⟩
  · rw [hf.hasMagic_eq (by omega)]
    exact hvalid.2
  · unfold fileLen
    rw [Nat.add_assoc, hf.read (by omega)]
  · unfold fileOffset
    rw [Nat.add_assoc, hf.read (by omega)]

theorem Tiled.string (he : e ∈ es) :
    streq (fetch mem) (2 ^ 32 - img.size + (e + sizeofFile)) (name e) = true := by
  have hfile := ht.file e he
  have hin := hfile.inside
  have hheader := hfile.inHeader
  have htop := ht.top_le
  rw [← hfile.string]
  refine streq_congr fun i hi => ?_
  rw [Nat.add_assoc, hf.byte (by omega)]

theorem Tiled.streq_iff (he : e ∈ es) (hnul : 0 ∉ nm) :
    (streq img.data (e + sizeofFile) nm = true ↔ nm = name e) ∧
      (streq (fetch mem) (2 ^ 32 - img.size + (e + sizeofFile)) nm = true ↔ nm = name e) := by
  have hfile := ht.file e he
  refine ⟨⟨fun h => streq_unique hnul hfile.noNul h hfile.string, ?_⟩,
    ⟨fun h => streq_unique hnul hfile.noNul h (ht.string hf he), ?_⟩⟩
  · rintro rfl
    exact hfile.string
  · rintro rfl
    exact ht.string hf he

-- ---------------------------------------------------------------------------
-- cbfstool
-- ---------------------------------------------------------------------------

theorem Tiled.not_valid_top : cbfsIsValidEntry img top = false := by
  have htop := ht.top_le
  have hclear := ht.clear top (Nat.le_refl _) htop
  unfold cbfsIsValidEntry
  by_cases hlt : top + 8 < img.size
  · rw [hf.hasMagic_eq (by omega)] at hclear
    simp [hclear]
  · simp [hlt]

theorem Tiled.walk_list (rest seen : List Nat) (hsub : ∀ e ∈ rest, e ∈ es) (entry count : Nat)
    (htiles : Tiles id (cbfsFindNextEntry img) entry rest top) (fuel : Nat) :
    cbfsWalk listEntry (fuel + rest.length + 1) img entry count seen =
      some (img, seen ++ rest, count + rest.length) := by
  induction rest generalizing seen entry count with
  | nil =>
    obtain rfl := htiles
    rw [cbfsWalk, ht.not_valid_top hf]
    simp
  | cons e rest ih =>
    obtain ⟨he, hrest⟩ := List.forall_mem_cons.mp hsub
    obtain ⟨rfl, -, htiles⟩ := htiles
    rw [List.length_cons, ← Nat.add_assoc, cbfsWalk, id, (ht.file e he).valid]
    simp only [listEntry, if_true, ne_eq, not_true_eq_false, if_false]
    rw [ih (seen ++ [e]) hrest _ _ htiles, List.append_assoc, Nat.add_assoc, Nat.add_comm 1]
    rfl

theorem Tiled.walk_find (test : Nat → Bool) (rest : List Nat) (hsub : ∀ e ∈ rest, e ∈ es)
    (entry count : Nat) (htiles : Tiles id (cbfsFindNextEntry img) entry rest top) (fuel : Nat) :
    ∃ n, cbfsWalk (findEntry test) (fuel + rest.length + 1) img entry count none =
      some (img, rest.find? test, n) := by
  induction rest generalizing entry count with
  | nil =>
    obtain rfl := htiles
    rw [cbfsWalk, ht.not_valid_top hf]
    exact ⟨count, rfl⟩
  | cons e rest ih =>
    obtain ⟨he, hrest⟩ := List.forall_mem_cons.mp hsub
    obtain ⟨rfl, -, htiles⟩ := htiles
    rw [List.length_cons, ← Nat.add_assoc, cbfsWalk, id, (ht.file e he).valid]
    by_cases htest : test e = true
    · rw [List.find?_cons_of_pos htest]
      refine ⟨count + 1, ?_⟩
      simp [findEntry, htest]
    · rw [List.find?_cons_of_neg htest]
      obtain ⟨n, hn⟩ := ih hrest _ (count + 1) htiles
      refine ⟨n, ?_⟩
      rw [← hn]
      simp [findEntry, htest]

-- ---------------------------------------------------------------------------
-- coreboot
-- ---------------------------------------------------------------------------

omit ht in
theorem Flashed.map (hoff : off < img.size) : x86RomMap img.size off = 2 ^ 32 - img.size + off := by
  have hsmall := hf.small
  unfold x86RomMap
  rw [if_neg (by omega), u32_eq (by omega)]

omit ht in
theorem Flashed.fields :
    headerMagic (fetch mem) (2 ^ 32 - img.size + img.header) = cbfsHeaderMagic ∧
    headerRomsize (fetch mem) (2 ^ 32 - img.size + img.header) = img.size ∧
    headerBootblocksize (fetch mem) (2 ^ 32 - img.size + img.header) =
      headerBootblocksize img.data img.header ∧
    headerAlign (fetch mem) (2 ^ 32 - img.size + img.header) = img.align ∧
    headerOffset (fetch mem) (2 ^ 32 - img.size + img.header) =
      cbfsFindFirstEntry img := by
  have hinside := hf.inside
  unfold sizeofHeader at hinside
  have hfield : ∀ i, i + 4 ≤ 32 →
      be32 (fetch mem) (2 ^ 32 - img.size + img.header + i) =
        be32 img.data (img.header + i) := by
    intro i hi
    rw [Nat.add_assoc, hf.read (by omega)]
  exact ⟨(hf.read (by omega)).trans hf.magic, (hfield 8 (by decide)).trans hf.romsize,
    hfield 12 (by decide), hfield 16 (by decide), hfield 20 (by decide)⟩

omit ht in
theorem Flashed.header (configRomSize : Nat) :
    mediaContext configRomSize mem = img.size ∧
      cbfsGetHeader configRomSize mem = some (2 ^ 32 - img.size + img.header) := by
  have hsmall := hf.small
  have hnear := hf.near
  have hinside := hf.inside
  unfold sizeofHeader at hinside
  obtain ⟨hmagic, hsize, -⟩ := hf.fields
  have hcontext : mediaContext configRomSize mem = img.size := by
    unfold mediaContext cbfsHeaderRomAddress
    simp only [hf.pointer, hmagic, hsize, ne_eq, not_true_eq_false, if_false]
  refine ⟨hcontext, ?_⟩
  have hmap : x86RomMap img.size (2 ^ 32 - img.size + img.header) = 2 ^ 32 - img.size + img.header :=
    if_pos (by omega)
  unfold cbfsGetHeader cbfsHeaderRomAddress cbfsMediaInvalidMapAddress
  simp only [hcontext, hf.pointer, hmap, hmagic]
  rw [if_neg (by omega)]
  simp

/-- Behind the last entry the loop goes from multiple to multiple up to the boot block. -/
theorem Tiled.getFile_clear (test : Nat → Bool) (hromsize : romsize ≤ img.size) (offset : Nat)
    (hdvd : img.align ∣ offset) (htop : top ≤ offset) (fuel : Nat) :
    cbfsGetFileLoop mem test img.size img.align romsize (fuel + (img.size - offset) + 1) offset =
      some none := by
  obtain ⟨hpos, hlt⟩ := ht.align_pos hf
  have hsmall := hf.small
  induction hleft : img.size - offset using Nat.strong_induction_on generalizing offset fuel with
  | _ left ih =>
    rw [cbfsGetFileLoop]
    by_cases hend : offset < romsize
    · have hmagic := ht.clear offset htop (by omega)
      have hstep : offset + img.align ≤ img.size := by
        obtain ⟨i, hi⟩ := hdvd
        obtain ⟨j, hj⟩ := ht.rom
        have hij : i < j := Nat.lt_of_mul_lt_mul_left (show img.align * i < img.align * j by omega)
        calc offset + img.align = img.align * (i + 1) := by rw [hi, Nat.mul_succ]
          _ ≤ img.align * j := Nat.mul_le_mul_left _ hij
          _ = img.size := hj.symm
      simp only [hend, if_true, hf.map (by omega : offset < img.size), hmagic,
        Nat.mod_eq_zero_of_dvd hdvd, ne_eq, not_true_eq_false, if_false]
      rw [u32_eq (by omega), show fuel + left =
        fuel + (img.align - 1) + (img.size - (offset + img.align)) + 1 by omega]
      exact ih _ (by omega) (offset + img.align) (Nat.dvd_add hdvd (Nat.dvd_refl _)) (by omega) _ rfl
    · simp only [hend, if_false]

theorem Tiled.getFile (test : Nat → Bool) (rest : List Nat) (hsub : ∀ e ∈ rest, e ∈ es)
    (entry : Nat) (hdvd : img.align ∣ entry)
    (htiles : Tiles id (cbfsFindNextEntry img) entry rest top) (fuel : Nat) :
    cbfsGetFileLoop mem test img.size img.align
        (img.size - headerBootblocksize img.data img.header) (fuel + img.size + 1 + rest.length) entry =
      some ((rest.map (2 ^ 32 - img.size + ·)).find? fun file => test (file + sizeofFile)) := by
  induction rest generalizing entry with
  | nil =>
    obtain rfl := htiles
    have := ht.getFile_clear hf test (Nat.sub_le img.size (headerBootblocksize img.data img.header))
      entry hdvd (Nat.le_refl _) (fuel + entry)
    rwa [show fuel + entry + (img.size - entry) = fuel + img.size by
      have := ht.top_le; omega] at this
  | cons e rest ih =>
    obtain ⟨he, hrest⟩ := List.forall_mem_cons.mp hsub
    obtain ⟨rfl, -, htiles⟩ := htiles
    simp only [id] at *
    obtain ⟨hmagic, hlen, hoff⟩ := ht.fields hf he
    obtain ⟨hpos, hlt⟩ := ht.align_pos hf
    have hsmall := hf.small
    have hboot := ht.bootblock
    have hfile := ht.file e he
    have hinside := hfile.inside
    have hheader := hfile.inHeader
    have hname := List.length_pos_of_ne_nil hfile.nonempty
    unfold sizeofFile at hheader
    have hnext : cbfsFindNextEntry img e = alignUp32
        (e + (fileLen img.data e + fileOffset img.data e)) img.align := by
      rw [ht.next hf he, alignUp32_eq (by omega) hpos, Nat.add_comm (fileLen img.data e)]
    have hmap : x86RomMap img.size e = 2 ^ 32 - img.size + e := hf.map (by omega)
    have hmapName : x86RomMap img.size (e + sizeofFile) = 2 ^ 32 - img.size + (e + sizeofFile) :=
      hf.map (by unfold sizeofFile; omega)
    rw [List.length_cons, ← Nat.add_assoc, cbfsGetFileLoop]
    simp only [show e < img.size - headerBootblocksize img.data img.header by omega, if_true, hmap,
      hmagic, hlen, hoff, Bool.true_eq_false, if_false]
    rw [u32_eq (by unfold sizeofFile; omega : e + sizeofFile < 2 ^ 32), hmapName]
    by_cases htest : test (2 ^ 32 - img.size + (e + sizeofFile)) = true
    · have hinv : 2 ^ 32 - img.size + (e + sizeofFile) ≠ cbfsMediaInvalidMapAddress := by
        unfold cbfsMediaInvalidMapAddress sizeofFile
        omega
      simp only [htest, hinv, ne_eq, not_false_eq_true, and_self, if_true, List.map_cons]
      rw [List.find?_cons_of_pos (by rwa [Nat.add_assoc])]
    · simp only [htest, Bool.false_eq_true, and_false, if_false, List.map_cons]
      rw [List.find?_cons_of_neg (by rwa [Nat.add_assoc])]
      rw [u32_eq (show fileLen img.data e + fileOffset img.data e < 2 ^ 32 by omega),
        u32_eq (show e + (fileLen img.data e + fileOffset img.data e) < 2 ^ 32 by omega)]
      have hdvdNext : img.align ∣ cbfsFindNextEntry img e := by
        rw [ht.next hf he]
        exact dvd_alignUp _ _
      rw [← ih hrest _ hdvdNext htiles, hnext]
      rfl

/-- coreboot finds the first entry whose name passes. -/
theorem Tiled.getFileBy (configRomSize : Nat) (test : Nat → Bool) (fuel : Nat) :
    cbfsGetFileBy configRomSize mem test (fuel + img.size + 1 + es.length) =
      some ((es.map (2 ^ 32 - img.size + ·)).find? fun file => test (file + sizeofFile)) := by
  obtain ⟨hcontext, hheader⟩ := hf.header configRomSize
  obtain ⟨-, hsize, hbbs, halign, hoffset⟩ := hf.fields
  have hboot := ht.bootblock
  have hsmall := hf.small
  have hromsize : cbfsRomsize mem (2 ^ 32 - img.size + img.header) =
      img.size - headerBootblocksize img.data img.header := by
    rw [cbfsRomsize, hsize, hbbs]
    unfold u32
    omega
  rw [cbfsGetFileBy, hheader, Option.elim_some, hcontext, halign, hoffset, hromsize]
  exact ht.getFile hf test es (fun _ => id) _ ht.first ht.tiles fuel

-- ---------------------------------------------------------------------------
-- SeaBIOS
-- ---------------------------------------------------------------------------

omit hf ht in
theorem le64_magic_iff (m : Nat → Byte) (a : Nat) :
    le64 m a = 0x455649484352414c ↔ hasMagic m a = true := by
  have hval : (0x455649484352414c : Nat) = le64 (fun i => cbfsFileMagic.getD i 0) 0 := by decide
  rw [hasMagic_iff, hval]
  refine ⟨fun h i hi => ?_, fun h => le64_congr fun i hi => ?_⟩
  · simpa using le64_inj h i hi
  · simpa using h i hi

/-- The names fit into SeaBIOS's buffers and no file is compressed. -/
structure Named (name : Nat → List Byte) (es : List Nat) : Prop where
  short : ∀ e ∈ es, (name e).length < 128
  plain : ∀ e ∈ es, ¬ lzmaSuffix <:+ name e
  distinct : ∀ e ∈ es, ∀ e' ∈ es, name e = name e' → e = e'

theorem Tiled.newRomfile (hn : Named name es) (he : e ∈ es) :
    newRomfile mem (2 ^ 32 - img.size + e) =
      ⟨name e, fileLen img.data e, 2 ^ 32 - img.size + e,
        u32 (2 ^ 32 - img.size + e + fileOffset img.data e), fileLen img.data e, 0⟩ := by
  have hfile := ht.file e he
  obtain ⟨-, hlen, hoff⟩ := ht.fields hf he
  have hstring : streq (fetch mem) (u32 (2 ^ 32 - img.size + e + sizeofFile)) (name e) = true := by
    rw [← ht.string hf he]
    refine streq_congr fun i _ => fetch_congr ?_ i
    unfold u32
    rw [Nat.mod_mod, Nat.add_assoc]
  have hname := strtcpy_eq hfile.noNul hstring (hn.short e he)
  have hplain : ¬ ((name e).length > 5 ∧ (name e).drop ((name e).length - 5) = lzmaSuffix) :=
    fun h => hn.plain e he (h.2 ▸ List.drop_suffix _ _)
  unfold CbfsFiles.newRomfile
  simp only [hname, hlen, hoff]
  rw [if_neg hplain]

theorem Tiled.initLoop (env : Env) (hmalloc : ∀ n, env.mallocTmp n = true) (hn : Named name es)
    (rest : List Nat) (hsub : ∀ e ∈ rest, e ∈ es) (entry n : Nat) (root : List Romfile)
    (htiles : Tiles id (cbfsFindNextEntry img) entry rest top) (fuel : Nat) :
    cbfsInitLoop mem env (2 ^ 32 - img.size) img.size img.align (fuel + rest.length + 1) n
        (u32 (2 ^ 32 - img.size + entry)) root =
      some ((rest.map fun e => CbfsFiles.newRomfile mem (2 ^ 32 - img.size + e)).reverse ++ root,
        n + rest.length) := by
  have hsmall := hf.small
  have htop := ht.top_le
  induction rest generalizing entry n root with
  | nil =>
    obtain rfl := htiles
    have hmagic : le64 (fetch mem) (u32 (2 ^ 32 - img.size + entry)) ≠ 0x455649484352414c := by
      have hsame : hasMagic (fetch mem) (u32 (2 ^ 32 - img.size + entry)) =
          hasMagic (fetch mem) (2 ^ 32 - img.size + entry) :=
        hasMagic_congr fun i _ => fetch_congr (by unfold u32; rw [Nat.mod_mod]) i
      rw [Ne, le64_magic_iff, hsame, ht.clear entry (Nat.le_refl _) htop]
      decide
    have hin : u32 (u32 (2 ^ 32 - img.size + entry) + 2 ^ 32 - (2 ^ 32 - img.size)) ≤ img.size := by
      unfold u32
      omega
    rw [cbfsInitLoop, if_neg (by omega), if_pos hmagic]
    rfl
  | cons e rest ih =>
    obtain ⟨he, hrest⟩ := List.forall_mem_cons.mp hsub
    obtain ⟨rfl, -, htiles⟩ := htiles
    simp only [id] at *
    have hinside := (ht.file e he).inside
    have hheader := (ht.file e he).inHeader
    obtain ⟨hmagic, -, -⟩ := ht.fields hf he
    have hfhdr : u32 (2 ^ 32 - img.size + e) = 2 ^ 32 - img.size + e := u32_eq (by omega)
    have hin : u32 (2 ^ 32 - img.size + e + 2 ^ 32 - (2 ^ 32 - img.size)) ≤ img.size := by
      unfold u32
      omega
    obtain ⟨k, hk⟩ := ht.pow
    have halign := (ht.align_pos hf).2
    have hk32 : k ≤ 32 := by
      by_contra hlt
      have := Nat.pow_le_pow_right (show 0 < 2 by decide) (show 32 ≤ k by omega)
      omega
    have hbase : 2 ^ k ∣ 2 ^ 32 - img.size :=
      Nat.dvd_sub (Nat.pow_dvd_pow 2 hk32) (hk ▸ ht.rom)
    have hnext : alignMask (u32 (u32 (2 ^ 32 - img.size + e + fileOffset img.data e) +
        fileLen img.data e)) img.align = u32 (2 ^ 32 - img.size + cbfsFindNextEntry img e) := by
      have hsum : u32 (u32 (2 ^ 32 - img.size + e + fileOffset img.data e) + fileLen img.data e) =
          u32 (2 ^ 32 - img.size + (e + (fileOffset img.data e + fileLen img.data e))) := by
        unfold u32
        omega
      rw [hsum, hk, alignMask_eq hk32 hbase, ht.next hf he, hk]
    rw [List.length_cons, ← Nat.add_assoc, cbfsInitLoop, hfhdr, if_neg (by omega),
      if_neg (not_not.mpr ((le64_magic_iff _ _).mpr hmagic)), hmalloc, if_neg (by decide)]
    simp only [ht.newRomfile hf hn he, hnext]
    rw [ih hrest _ _ _ htiles, List.map_cons, List.reverse_cons, ht.newRomfile hf hn he,
      List.append_assoc, List.singleton_append, Nat.add_assoc n, Nat.add_comm 1]

omit hf ht in
theorem isPrefixOf_name (hnm : 0 ∉ nm) (hname : 0 ∉ fname) :
    (nm ++ [0]).isPrefixOf (fname ++ [(0 : Byte)]) = true ↔ fname = nm := by
  rw [List.isPrefixOf_iff_prefix]
  constructor
  · intro h
    induction nm generalizing fname with
    | nil =>
      cases fname with
      | nil => rfl
      | cons c fname =>
        have hc : 0 = c := by simpa using h
        exact absurd (hc ▸ List.mem_cons_self) hname
    | cons d nm ih =>
      cases fname with
      | nil =>
        have hd : d = 0 := by
          rw [List.cons_append, List.nil_append, List.cons_prefix_cons] at h
          exact h.1
        exact absurd (hd ▸ List.mem_cons_self) hnm
      | cons c fname =>
        rw [List.cons_append, List.cons_append, List.cons_prefix_cons] at h
        rw [h.1, ih (fun hm => hnm (List.mem_cons_of_mem _ hm))
          (fun hm => hname (List.mem_cons_of_mem _ hm)) h.2]
  · rintro rfl
    exact List.prefix_refl _

omit hf ht in
theorem find?_reverse_of_unique {l : List α} {p : α → Bool}
    (h : ∀ a ∈ l, ∀ b ∈ l, p a = true → p b = true → a = b) : l.reverse.find? p = l.find? p := by
  cases hfind : l.find? p with
  | none => simpa using hfind
  | some a =>
    have ha := List.mem_of_find?_eq_some hfind
    have hpa := List.find?_some hfind
    obtain ⟨b, hb⟩ := Option.isSome_iff_exists.mp
      (List.find?_isSome.mpr ⟨a, List.mem_reverse.mpr ha, hpa⟩)
    rw [hb, h a ha b (List.mem_reverse.mp (List.mem_of_find?_eq_some hb)) hpa (List.find?_some hb)]

theorem Tiled.romfileFind (hn : Named name es) (hnm : 0 ∉ nm) :
    romfileFind (es.map fun e => CbfsFiles.newRomfile mem (2 ^ 32 - img.size + e)).reverse nm =
      (es.find? fun e => name e = nm).map
        fun e => CbfsFiles.newRomfile mem (2 ^ 32 - img.size + e) := by
  have hpred : ∀ e ∈ es, ((nm ++ [0]).isPrefixOf
      ((CbfsFiles.newRomfile mem (2 ^ 32 - img.size + e)).name ++ [0]) = true ↔ name e = nm) := by
    intro e he
    rw [ht.newRomfile hf hn he]
    exact isPrefixOf_name hnm (ht.file e he).noNul
  unfold CbfsFiles.romfileFind romfileFindprefix
  rw [find?_reverse_of_unique, List.find?_map]
  · congr 1
    refine List.find?_congr fun e he => ?_
    rw [Bool.eq_iff_iff, decide_eq_true_eq]
    exact hpred e he
  · intro a ha b hb hpa hpb
    obtain ⟨e, he, rfl⟩ := List.mem_map.mp ha
    obtain ⟨e', he', rfl⟩ := List.mem_map.mp hb
    have hname := ((hpred e he).mp hpa).trans ((hpred e' he').mp hpb).symm
    rw [hn.distinct e he e' he' hname]

/-- The list is that of the files, last one first, and what a links file adds. -/
theorem Tiled.cbfsInit (env : Env) (hmalloc : ∀ n, env.mallocTmp n = true) (hn : Named name es)
    (fuel : Nat) : corebootCbfsInit mem env (fuel + es.length + 1) =
      some (processLinksFile mem env
        (es.map fun e => CbfsFiles.newRomfile mem (2 ^ 32 - img.size + e)).reverse es.length) := by
  obtain ⟨hmagic, hsize, -, halign, hoffset⟩ := hf.fields
  have hinside := hf.inside
  unfold sizeofHeader at hinside
  have hstart : u32 (2 ^ 32 - img.size) = 2 ^ 32 - img.size := u32_eq (by omega)
  have hloop := ht.initLoop hf env hmalloc hn es (fun _ => id) _ 0 [] ht.tiles fuel
  unfold corebootCbfsInit
  simp only [hf.pointer, hmagic, hsize, halign, hoffset, hstart, ne_eq, not_true_eq_false, if_false,
    hloop, Option.bind_eq_bind, Option.bind_some, List.append_nil, Nat.zero_add]

theorem Tiled.processLinks_none (env : Env) (hn : Named name es)
    (hlinks : ∀ e ∈ es, name e ≠ linksName) (n : Nat) :
    processLinksFile mem env
        (es.map fun e => CbfsFiles.newRomfile mem (2 ^ 32 - img.size + e)).reverse n =
      (es.map fun e => CbfsFiles.newRomfile mem (2 ^ 32 - img.size + e)).reverse := by
  have hnone : CbfsFiles.romfileFind
      (es.map fun e => CbfsFiles.newRomfile mem (2 ^ 32 - img.size + e)).reverse linksName = none := by
    rw [ht.romfileFind hf hn (by decide), Option.map_eq_none_iff, List.find?_eq_none]
    intro e he
    simpa using hlinks e he
  rw [processLinksFile, romfileLoadfile, hnone]
  rfl

end Agree

/-- Where a reader finds a file, by address in the ROM. -/
structure Found where
  header : Nat
  data : Nat
  len : Nat
  deriving DecidableEq, Repr

/-- cbfstool's entry, where its ROM is. -/
def foundEntry (img : Image) (entry : Nat) : Found :=
  ⟨2 ^ 32 - img.size + entry, u32 (2 ^ 32 - img.size + (entry + fileOffset img.data entry)),
    fileLen img.data entry⟩

/-- The file that coreboot has mapped. -/
def foundFile (mem : Nat → Byte) (file : Nat) : Found :=
  ⟨file, u32 (file + fileOffset (fetch mem) file), fileLen (fetch mem) file⟩

def Romfile.found (f : Romfile) : Found := ⟨f.fhdr, f.data, f.size⟩

/-- Over files that tile the area, with names that fit, a power of two as
alignment and no links file, cbfstool, coreboot and SeaBIOS visit the same
entries in the same order and find the same file for every name. -/
theorem readers_agree (configRomSize : Nat) (env : Env) (hf : Flashed img mem)
    (ht : Tiled img mem name es top) (hn : Named name es) (hlinks : ∀ e ∈ es, name e ≠ linksName)
    (hmalloc : ∀ n, env.mallocTmp n = true) : ∃ n, ∀ fuel, n ≤ fuel →
    cbfsWalk listEntry fuel img (cbfsFindFirstEntry img) 0 [] = some (img, es, es.length) ∧
    (∀ test, cbfsGetFileBy configRomSize mem test fuel =
      some ((es.map (2 ^ 32 - img.size + ·)).find? fun file => test (file + sizeofFile))) ∧
    ∃ root, corebootCbfsInit mem env fuel = some root ∧
      root.reverse.map (·.fhdr) = es.map (2 ^ 32 - img.size + ·) ∧
      ∀ nm, 0 ∉ nm → ∃ (entry file : Option Nat) (count : Nat),
        cbfsWalk (findEntry fun e => streq img.data (e + sizeofFile) nm) fuel img
          (cbfsFindFirstEntry img) 0 none = some (img, entry, count) ∧
        cbfsGetFile configRomSize mem nm fuel = some file ∧
        entry.map (foundEntry img) = file.map (foundFile mem) ∧
        entry.map (foundEntry img) = (romfileFind root nm).map Romfile.found := by
  refine ⟨img.size + 1 + es.length, fun fuel hfuel => ?_⟩
  obtain ⟨k, rfl⟩ := Nat.exists_eq_add_of_le hfuel
  have hget : ∀ test, cbfsGetFileBy configRomSize mem test (img.size + 1 + es.length + k) =
      some ((es.map (2 ^ 32 - img.size + ·)).find? fun file => test (file + sizeofFile)) := by
    intro test
    rw [← ht.getFileBy hf configRomSize test k]
    congr 1
    omega
  refine ⟨?_, hget, (es.map fun e => newRomfile mem (2 ^ 32 - img.size + e)).reverse, ?_, ?_,
    fun nm hnm => ?_⟩
  · have hwalk := ht.walk_list hf es [] (fun _ => id) _ 0 ht.tiles (img.size + k)
    rw [List.nil_append, Nat.zero_add] at hwalk
    rw [← hwalk]
    congr 1
    omega
  · rw [← ht.processLinks_none hf env hn hlinks es.length,
      ← ht.cbfsInit hf env hmalloc hn (img.size + k)]
    congr 1
    omega
  · rw [List.reverse_reverse, List.map_map]
    refine List.map_congr_left fun e he => ?_
    rw [Function.comp_apply, ht.newRomfile hf hn he]
  · obtain ⟨count, hcount⟩ := ht.walk_find hf (fun e => streq img.data (e + sizeofFile) nm) es
      (fun _ => id) _ 0 ht.tiles (img.size + k)
    have hentry : es.find? (fun e => streq img.data (e + sizeofFile) nm) =
        es.find? fun e => name e = nm := by
      refine List.find?_congr fun e he => ?_
      rw [Bool.eq_iff_iff, decide_eq_true_eq, (ht.streq_iff hf he hnm).1, eq_comm]
    have hfile : (es.map (2 ^ 32 - img.size + ·)).find?
        (fun file => streq (fetch mem) (file + sizeofFile) nm) =
          (es.find? fun e => name e = nm).map (2 ^ 32 - img.size + ·) := by
      rw [List.find?_map]
      congr 1
      refine List.find?_congr fun e he => ?_
      rw [Bool.eq_iff_iff, decide_eq_true_eq, Function.comp_apply, Nat.add_assoc,
        (ht.streq_iff hf he hnm).2, eq_comm]
    have hmem : ∀ e, (es.find? fun e => name e = nm) = some e → e ∈ es :=
      fun e h => List.mem_of_find?_eq_some h
    refine ⟨es.find? fun e => name e = nm, _, count, ?_, (hget _).trans (congrArg some hfile), ?_,
      ?_⟩
    · rw [← hentry, ← hcount]
      congr 1
      omega
    · cases hfind : es.find? fun e => name e = nm with
      | none => rfl
      | some e =>
        obtain ⟨-, hlen, hoff⟩ := ht.fields hf (hmem e hfind)
        simp only [Option.map_some, foundEntry, foundFile, hlen, hoff, Nat.add_assoc]
    · rw [ht.romfileFind hf hn hnm]
      cases hfind : es.find? fun e => name e = nm with
      | none => rfl
      | some e =>
        simp only [Option.map_some, ht.newRomfile hf hn (hmem e hfind), foundEntry, Romfile.found,
          Nat.add_assoc]

/-- 256 bytes: a file with the line `a b`, which is called `links` or not, the
file `b`, the master header and the pointer to it. -/
def twoFiles (links : Bool) : Image where
  data i := ((cbfsFileMagic ++ [0, 0, 0, 3, 0, 0, 0, 0x50, 0, 0, 0, 0, 0, 0, 0, 40] ++
      (if links then linksName else lzmaSuffix.reverse) ++ List.replicate 11 0 ++
      [0x61, 0x20, 0x62, 0xff, 0xff, 0xff, 0xff, 0xff] ++
      cbfsFileMagic ++ [0, 0, 0, 8, 0, 0, 0, 0x50, 0, 0, 0, 0, 0, 0, 0, 40] ++
      (0x62 :: List.replicate 15 0) ++ List.replicate 104 0xff ++
      [0x4f, 0x52, 0x42, 0x43, 0x31, 0x31, 0x31, 0x32, 0, 0, 1, 0, 0, 0, 0, 0x40,
        0, 0, 0, 16, 0, 0, 0, 0, 0, 0, 0, 1, 0xff, 0xff, 0xff, 0xff] ++
      List.replicate 28 0xff ++ [0xc0, 0xff, 0xff, 0xff])[i]?.getD 0xff)
  size := 256
  header := 0xc0

def twoFilesRom (links : Bool) : Nat → Byte := fun a =>
  if 0xffffff00 ≤ a then (twoFiles links).data (a - 0xffffff00) else 0

def twoFilesName (links : Bool) (entry : Nat) : List Byte :=
  if entry = 0 then if links then linksName else lzmaSuffix.reverse else [0x62]

theorem twoFiles_flashed (links : Bool) : Flashed (twoFiles links) (twoFilesRom links) := by
  refine ⟨?_, show 256 ≤ 0xf0000000 by decide, show 256 < 0xc0 + 2 ^ 28 by decide, fun i hi => ?_, ?_,
    show 0xc0 + 32 ≤ 256 by decide, ?_⟩
  · cases links <;> decide +kernel
  · have hi : i < 256 := hi
    have haddr : 2 ^ 32 - (twoFiles links).size + i = 0xffffff00 + i := rfl
    rw [haddr, twoFilesRom, if_pos (Nat.le_add_right _ _), Nat.add_sub_cancel_left]
  · cases links <;> decide +kernel
  · cases links <;> decide +kernel

theorem twoFiles_tiled (links : Bool) :
    Tiled (twoFiles links) (twoFilesRom links) (twoFilesName links) [0, 0x30] 0x60 := by
  have hclear : ∀ i < 257, 0x60 ≤ i →
      hasMagic (fetch (twoFilesRom links)) (2 ^ 32 - 256 + i) = false := by
    cases links <;> decide +kernel
  refine ⟨⟨4, ?_⟩, ?_, ?_, ?_, ?_, ?_, fun a hlo hhi => hclear a (Nat.lt_succ_of_le hhi) hlo⟩
  · cases links <;> decide +kernel
  · cases links <;> decide +kernel
  · cases links <;> decide +kernel
  · cases links <;> exact ⟨by decide +kernel, by decide +kernel, by decide +kernel,
      by decide +kernel, show _ = _ by decide +kernel⟩
  · cases links <;> decide +kernel
  · intro e he
    rcases List.mem_pair.mp he with rfl | rfl <;> cases links <;>
      exact ⟨by decide +kernel, by decide +kernel, by decide +kernel, by decide +kernel,
        by decide +kernel, by decide +kernel⟩

theorem twoFiles_named (links : Bool) : Named (twoFilesName links) [0, 0x30] := by
  cases links <;> exact ⟨by decide, by decide, by decide⟩

theorem readers_agree_twoFiles : ∃ n, ∀ fuel, n ≤ fuel →
    cbfsWalk listEntry fuel (twoFiles false) (cbfsFindFirstEntry (twoFiles false)) 0 [] =
      some (twoFiles false, [0, 0x30], 2) ∧
    (∀ test, cbfsGetFileBy 0 (twoFilesRom false) test fuel =
      some (([0, 0x30].map (2 ^ 32 - (twoFiles false).size + ·)).find?
        fun file => test (file + sizeofFile))) ∧
    ∃ root, corebootCbfsInit (twoFilesRom false) ⟨fun _ => true, fun _ => true, fun _ _ => none⟩ fuel =
        some root ∧
      root.reverse.map (·.fhdr) = [0, 0x30].map (2 ^ 32 - (twoFiles false).size + ·) ∧
      ∀ nm, 0 ∉ nm → ∃ (entry file : Option Nat) (count : Nat),
        cbfsWalk (findEntry fun e => streq (twoFiles false).data (e + sizeofFile) nm) fuel
          (twoFiles false) (cbfsFindFirstEntry (twoFiles false)) 0 none =
            some (twoFiles false, entry, count) ∧
        cbfsGetFile 0 (twoFilesRom false) nm fuel = some file ∧
        entry.map (foundEntry (twoFiles false)) = file.map (foundFile (twoFilesRom false)) ∧
        entry.map (foundEntry (twoFiles false)) = (romfileFind root nm).map Romfile.found :=
  readers_agree 0 ⟨fun _ => true, fun _ => true, fun _ _ => none⟩ (twoFiles_flashed false)
    (twoFiles_tiled false) (twoFiles_named false) (by decide) fun _ => rfl

/-- With a links file SeaBIOS finds a name that is not in the image. -/
theorem readers_disagree : ¬ ∀ (img : Image) (mem : Nat → Byte) (name : Nat → List Byte)
    (es : List Nat) (top : Nat) (env : Env), Flashed img mem → Tiled img mem name es top →
      Named name es → (∀ n, env.mallocTmp n = true) → ∃ n, ∀ fuel, n ≤ fuel →
        ∃ root, corebootCbfsInit mem env fuel = some root ∧ ∀ nm, 0 ∉ nm →
          ∃ (entry : Option Nat) (count : Nat),
            cbfsWalk (findEntry fun e => streq img.data (e + sizeofFile) nm) fuel img
              (cbfsFindFirstEntry img) 0 none = some (img, entry, count) ∧
            entry.map (foundEntry img) = (romfileFind root nm).map Romfile.found := by
  intro h
  have hf := twoFiles_flashed true
  have ht := twoFiles_tiled true
  obtain ⟨n, hn⟩ := h _ _ _ _ _ ⟨fun _ => true, fun _ => true, fun _ _ => none⟩ hf ht
    (twoFiles_named true) fun _ => rfl
  obtain ⟨root, hroot, hall⟩ := hn (n + 2 + 1) (by omega)
  obtain ⟨entry, count, hwalk, hfound⟩ := hall [0x61] (by decide)
  have hinit := ht.cbfsInit hf ⟨fun _ => true, fun _ => true, fun _ _ => none⟩ (fun _ => rfl)
    (twoFiles_named true) n
  obtain rfl := Option.some.inj (hroot.symm.trans hinit)
  obtain ⟨count', hcount⟩ := ht.walk_find hf
    (fun e => streq (twoFiles true).data (e + sizeofFile) [0x61]) _ (fun _ => id) _ 0 ht.tiles n
  have hentry := Option.some.inj (hwalk.symm.trans hcount)
  simp only [Prod.mk.injEq, true_and] at hentry
  rw [hentry.1, show List.find? (fun e => streq (twoFiles true).data (e + sizeofFile) [0x61])
    [0, 0x30] = none by decide +kernel] at hfound
  -- the links file gives the file `b` the name `a`
  have hlink : romfileFind (processLinksFile (twoFilesRom true)
      ⟨fun _ => true, fun _ => true, fun _ _ => none⟩
      ([0, 0x30].map fun e => newRomfile (twoFilesRom true) (2 ^ 32 - (twoFiles true).size + e)).reverse
      2) [0x61] ≠ none := by
    decide +kernel
  exact hlink (Option.map_eq_none_iff.mp hfound.symm)

end ItxLlama.Seabios.CbfsFiles
