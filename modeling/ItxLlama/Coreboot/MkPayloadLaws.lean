import ItxLlama.Coreboot.MkPayload
import Mathlib.Data.List.Forall2

/-!
# What the payload holds

The records of the segments from the start on, then their bytes, each where its
record says. The counting passes leave just the room that the emitting pass takes.
-/

namespace ItxLlama.Coreboot.MkPayload

open Lib.Word Lib.Bytes
open SelfBoot hiding Byte

-- ---------------------------------------------------------------------------
-- Byte order
-- ---------------------------------------------------------------------------

theorem swab32_bytes (x : Nat) : ∃ b0 b1 b2 b3 : Nat, b0 < 256 ∧ b1 < 256 ∧ b2 < 256 ∧ b3 < 256 ∧
    x % 2 ^ 32 = b3 * 2 ^ 24 + b2 * 2 ^ 16 + b1 * 2 ^ 8 + b0 ∧
    swab32 x = b0 * 2 ^ 24 + b1 * 2 ^ 16 + b2 * 2 ^ 8 + b3 := by
  refine ⟨x % 2 ^ 8, x / 2 ^ 8 % 2 ^ 8, x / 2 ^ 16 % 2 ^ 8, x / 2 ^ 24 % 2 ^ 8, ?_, ?_, ?_, ?_, ?_,
    rfl⟩
  · exact Nat.mod_lt _ (by decide)
  · exact Nat.mod_lt _ (by decide)
  · exact Nat.mod_lt _ (by decide)
  · exact Nat.mod_lt _ (by decide)
  · omega

theorem swab32_lt (x : Nat) : swab32 x < 2 ^ 32 := by
  obtain ⟨b0, b1, b2, b3, h0, h1, h2, h3, -, h⟩ := swab32_bytes x
  omega

theorem byte_of_sum {q b0 b1 b2 b3 : Nat} (h1 : b1 < 256) (h2 : b2 < 256) (h3 : b3 < 256)
    (h0 : b0 < 256) :
    (2 ^ 32 * q + (b0 * 2 ^ 24 + b1 * 2 ^ 16 + b2 * 2 ^ 8 + b3)) % 2 ^ 8 = b3 ∧
    (2 ^ 32 * q + (b0 * 2 ^ 24 + b1 * 2 ^ 16 + b2 * 2 ^ 8 + b3)) / 2 ^ 8 % 2 ^ 8 = b2 ∧
    (2 ^ 32 * q + (b0 * 2 ^ 24 + b1 * 2 ^ 16 + b2 * 2 ^ 8 + b3)) / 2 ^ 16 % 2 ^ 8 = b1 ∧
    (2 ^ 32 * q + (b0 * 2 ^ 24 + b1 * 2 ^ 16 + b2 * 2 ^ 8 + b3)) / 2 ^ 24 % 2 ^ 8 = b0 := by
  refine ⟨by omega, by omega, by omega, by omega⟩

theorem be32_of_has (h : Has m a (le32Bytes x)) (hx : x % 2 ^ 32 = swab32 v) :
    be32 m a = v % 2 ^ 32 := by
  obtain ⟨b0, b1, b2, b3, hb0, hb1, hb2, hb3, hv, hswab⟩ := swab32_bytes v
  have h0 : m a = _ := h 0 (by decide : 0 < 4)
  have h1 := h 1 (by decide : 1 < 4)
  have h2 := h 2 (by decide : 2 < 4)
  have h3 := h 3 (by decide : 3 < 4)
  simp only [le32Bytes, List.getD_cons_zero, List.getD_cons_succ] at h0 h1 h2 h3
  rw [hswab] at hx
  have hsum := Nat.div_add_mod x (2 ^ 32)
  rw [hx] at hsum
  obtain ⟨hx0, hx1, hx2, hx3⟩ := @byte_of_sum (x / 2 ^ 32) b0 b1 b2 b3 hb1 hb2 hb3 hb0
  rw [hsum] at hx0 hx1 hx2 hx3
  unfold be32
  rw [h0, h1, h2, h3]
  simp only [BitVec.toNat_ofNat]
  rw [hx0, hx1, hx2, hx3, hv]

theorem be64_of_has (h : Has m a (le32Bytes (swab64 v) ++ le32Bytes (swab64 v / 2 ^ 32)))
    (hv : v < 2 ^ 64) : be64 m a = v := by
  obtain ⟨hlow, hhigh⟩ := has_append.mp h
  have hlt := swab32_lt (v / 2 ^ 32)
  have hlt' := swab32_lt (v % 2 ^ 32)
  have hfirst : be32 m a = v / 2 ^ 32 % 2 ^ 32 := be32_of_has hlow (by unfold swab64; omega)
  have hsecond : be32 m (a + 4) = v % 2 ^ 32 % 2 ^ 32 := be32_of_has hhigh (by unfold swab64; omega)
  unfold be64
  rw [hfirst, hsecond]
  omega

-- ---------------------------------------------------------------------------
-- Records
-- ---------------------------------------------------------------------------

theorem toBytes_length (s : RawSegment) : s.toBytes.length = sizeofSegment := rfl

/-- What a stored record is read as. -/
structure ReadsAs (s : RawSegment) (ps : PayloadSegment) : Prop where
  type : ps.type = payloadType s.type
  compression : s.compression = htonl v → v < 2 ^ 32 → ps.compression = v
  offset : s.offset = htonl v → v < 2 ^ 32 → ps.offset = v
  loadAddr : s.loadAddr = htonll v → v < 2 ^ 64 → ps.loadAddr = v
  len : s.len = htonl v → v < 2 ^ 32 → ps.len = v
  memLen : s.memLen = htonl v → v < 2 ^ 32 → ps.memLen = v

theorem readSegment_readsAs {s : RawSegment} (h : Has m a s.toBytes) (htype : s.type < 2 ^ 32) :
    ReadsAs s (readSegment m a) := by
  have hword : ∀ {x v b}, Has m b (le32Bytes x) → x = htonl v → v < 2 ^ 32 → be32 m b = v := by
    rintro x v b hx rfl hv
    rw [be32_of_has hx (Nat.mod_eq_of_lt (swab32_lt v)), Nat.mod_eq_of_lt hv]
  unfold RawSegment.toBytes at h
  obtain ⟨h, hmemLen⟩ := has_append.mp h
  obtain ⟨h, hlen⟩ := has_append.mp h
  obtain ⟨h, hloadAddr⟩ := has_append.mp h
  obtain ⟨h, hoffset⟩ := has_append.mp h
  obtain ⟨htype', hcompression⟩ := has_append.mp h
  exact {
    type := by rw [readSegment, htype'.le32, Nat.mod_eq_of_lt htype]
    compression := hword hcompression
    offset := hword hoffset
    loadAddr := by
      rintro v hv hlt
      rw [hv] at hloadAddr
      exact be64_of_has hloadAddr hlt
    len := hword hlen
    memLen := hword hmemLen }

-- ---------------------------------------------------------------------------
-- Emitting
-- ---------------------------------------------------------------------------

section Store

variable {b : Buffer} {bytes xs ys : List Byte}

theorem store_has (h : off + bytes.length ≤ b.size) : ∃ b', b.store off bytes = some b' ∧
    b'.size = b.size ∧ Has b'.data off bytes ∧
    ∀ a xs, Has b.data a xs → a + xs.length ≤ off ∨ off + bytes.length ≤ a → Has b'.data a xs := by
  refine ⟨_, if_pos h, rfl, fun i hi => ?_, fun a xs hxs hapart => hxs.congr fun i hi => ?_⟩
  · show (if _ then _ else _) = _
    rw [if_pos ⟨Nat.le_add_right _ _, Nat.add_lt_add_left hi _⟩, Nat.add_sub_cancel_left]
  · exact if_neg (by omega)

end Store

/-- The records and the bytes that are out; `total` records come before the bytes. -/
structure Emitted (total size : Nat) (records : List RawSegment) (bytes : List Byte) (s : Emit) :
    Prop where
  size : s.buf.size = size
  segments : s.segments = records.length
  doffset : s.doffset = sizeofSegment * total + bytes.length
  osize : s.osize = bytes.length
  records : Has s.buf.data 0 (records.flatMap RawSegment.toBytes)
  bytes : Has s.buf.data (sizeofSegment * total) bytes

theorem length_records (records : List RawSegment) :
    (records.flatMap RawSegment.toBytes).length = sizeofSegment * records.length := by
  induction records with
  | nil => rfl
  | cons s records ih =>
    rw [List.flatMap_cons, List.length_append, ih, toBytes_length, List.length_cons, Nat.mul_succ,
      Nat.add_comm]

section Emitted

variable {total size : Nat} {records : List RawSegment} {bytes : List Byte} {s : Emit}

theorem putSegment_frame {s' : Emit} (h : s.putSegment seg = some s') (d o : Nat) :
    { s with doffset := d, osize := o }.putSegment seg = some { s' with doffset := d, osize := o } := by
  unfold Emit.putSegment at h ⊢
  simp only [Option.bind_eq_bind] at h ⊢
  cases hstore : s.buf.store (sizeofSegment * s.segments) seg.toBytes with
  | none =>
    rw [hstore] at h
    exact nomatch h
  | some buf =>
    rw [hstore] at h
    cases h
    rfl

theorem Emitted.putSegment (h : Emitted total size records bytes s) (hroom : records.length < total)
    (hsize : sizeofSegment * total ≤ size) (seg : RawSegment) :
    ∃ s', s.putSegment seg = some s' ∧ s'.doffset = s.doffset ∧ s'.osize = s.osize ∧
      Emitted total size (records ++ [seg]) bytes s' := by
  have hend : sizeofSegment * records.length + sizeofSegment ≤ sizeofSegment * total := by
    rw [← Nat.mul_succ]
    exact Nat.mul_le_mul_left _ hroom
  obtain ⟨buf, hstore, hbuf, hseg, hframe⟩ :=
    @store_has s.buf seg.toBytes (sizeofSegment * s.segments) (by
    rw [h.segments, toBytes_length, h.size]
    exact Nat.le_trans hend hsize)
  rw [h.segments, toBytes_length] at hframe
  have hput : s.putSegment seg = some { s with buf := buf, segments := s.segments + 1 } := by
    rw [Emit.putSegment, hstore]
    rfl
  refine ⟨_, hput, rfl, rfl, ?_⟩
  exact {
    size := hbuf.trans h.size
    segments := by rw [List.length_append, h.segments]; rfl
    doffset := h.doffset
    osize := h.osize
    records := by
      rw [List.flatMap_append, has_append, length_records, Nat.zero_add, List.flatMap_singleton]
      refine ⟨hframe _ _ h.records (Or.inl ?_), h.segments ▸ hseg⟩
      rw [length_records, Nat.zero_add]
    bytes := hframe _ _ h.bytes (Or.inr hend) }

theorem Emitted.store (h : Emitted total size records bytes s) (hroom : records.length ≤ total)
    {more : List Byte} (hsize : sizeofSegment * total + (bytes.length + more.length) ≤ size) :
    ∃ buf, s.buf.store s.doffset more = some buf ∧
      Emitted total size records (bytes ++ more)
        { s with
          buf := buf
          doffset := s.doffset + more.length
          osize := s.osize + more.length } := by
  obtain ⟨buf, hstore, hbuf, hmore, hframe⟩ := @store_has s.buf more s.doffset (by
    rw [h.doffset, h.size, Nat.add_assoc]
    exact hsize)
  rw [h.doffset] at hframe hmore
  have hrecords := Nat.mul_le_mul_left sizeofSegment hroom
  refine ⟨buf, hstore, ?_⟩
  exact {
    size := hbuf.trans h.size
    segments := h.segments
    doffset := by rw [List.length_append, h.doffset, Nat.add_assoc]
    osize := by rw [List.length_append, h.osize]
    records := by
      refine hframe _ _ h.records (Or.inl ?_)
      rw [length_records, Nat.zero_add]
      exact Nat.le_trans hrecords (Nat.le_add_right _ _)
    bytes := has_append.mpr ⟨hframe _ _ h.bytes (Or.inl (Nat.le_refl _)), hmore⟩ }

theorem Emitted.block (h : Emitted total size records bytes s) (hroom : records.length < total)
    (more : List Byte) (hsize : sizeofSegment * total + (bytes.length + more.length) ≤ size)
    (seg : RawSegment) :
    ∃ buf s', s.buf.store s.doffset more = some buf ∧
      { s with buf := buf }.putSegment seg = some s' ∧
      Emitted total size (records ++ [seg]) (bytes ++ more)
        { s' with doffset := s.doffset + more.length, osize := s.osize + more.length } := by
  obtain ⟨buf, hstore, hmore⟩ := h.store (Nat.le_of_lt hroom) hsize
  obtain ⟨s', hput, hd, ho, hs'⟩ :=
    hmore.putSegment hroom (Nat.le_trans (Nat.le_add_right _ _) hsize) seg
  have hframe := putSegment_frame hput s.doffset s.osize
  have hd' : s'.doffset = s.doffset + more.length := hd
  have ho' : s'.osize = s.osize + more.length := ho
  refine ⟨buf, _, hstore, hframe, ?_⟩
  show Emitted total size (records ++ [seg]) (bytes ++ more)
    { s' with doffset := s.doffset + more.length, osize := s.osize + more.length }
  rw [← hd', ← ho']
  exact hs'

-- ---------------------------------------------------------------------------
-- The passes
-- ---------------------------------------------------------------------------

variable {header : Nat → Byte}

/-- The sections that become parameter segments. -/
def pinfos (header : Nat → Byte) (is : List Nat) : List Shdr :=
  (is.filter (isPinfo header)).map (shdr header)

def isLoad (ph : Phdr) : Bool := ph.type = ptLoad && ph.memsz ≠ 0

/-- The headers that become segments. -/
def loads (phs : List Phdr) : List Phdr := phs.filter isLoad

def sectionBytes (shs : List Shdr) : Nat := (shs.map Shdr.size).sum

def fileBytes (phs : List Phdr) : Nat := (phs.map Phdr.filesz).sum

theorem foldl_sections (is : List Nat) (count : Nat × Nat) :
    is.foldl (fun count i =>
      if isPinfo header i then (count.1 + 1, count.2 + (shdr header i).size) else count) count =
    (count.1 + (pinfos header is).length, count.2 + sectionBytes (pinfos header is)) := by
  induction is generalizing count with
  | nil => rfl
  | cons i is ih =>
    rw [List.foldl_cons, ih]
    unfold pinfos sectionBytes
    by_cases h : isPinfo header i = true
    · rw [if_pos h, List.filter_cons_of_pos h]
      simp only [List.map_cons, List.length_cons, List.sum_cons]
      rw [Nat.add_assoc, Nat.add_assoc, Nat.add_comm 1]
    · rw [if_neg h, List.filter_cons_of_neg h]

theorem foldl_countHeader (phs : List Phdr) (count : Nat × Nat) :
    phs.foldl countHeader count = (count.1 + (loads phs).length, count.2 + fileBytes (loads phs)) := by
  induction phs generalizing count with
  | nil => rfl
  | cons ph phs ih =>
    rw [List.foldl_cons, ih]
    unfold loads fileBytes countHeader
    by_cases hload : ph.type = ptLoad
    · by_cases hmem : ph.memsz = 0
      · have hskip : ¬ isLoad ph = true := by simp [isLoad, hmem]
        rw [if_neg (not_not.mpr hload), if_pos hmem, List.filter_cons_of_neg hskip]
      · have htake : isLoad ph = true := by simp [isLoad, hload, hmem]
        rw [if_neg (not_not.mpr hload), if_neg hmem, List.filter_cons_of_pos htake]
        simp only [List.map_cons, List.length_cons, List.sum_cons]
        rw [Nat.add_assoc, Nat.add_assoc, Nat.add_comm 1]
    · have hskip : ¬ isLoad ph = true := by simp [isLoad, hload]
      rw [if_pos hload, List.filter_cons_of_neg hskip]

end Emitted

end ItxLlama.Coreboot.MkPayload
