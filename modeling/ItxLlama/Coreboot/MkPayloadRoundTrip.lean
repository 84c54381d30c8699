import ItxLlama.Coreboot.MkPayloadLaws
import ItxLlama.Coreboot.SelfBootLoad

/-!
# Payloads read back

What `parse_elf_to_payload` makes of an ELF file, `build_self_segment_list` reads
as the segments of the file.
-/

namespace ItxLlama.Coreboot.MkPayload

open Lib.Word Lib.Bytes
open SelfBoot hiding Byte

theorem length_bytesAt (header : Nat → Byte) (a n : Nat) : (bytesAt header a n).length = n := by
  rw [bytesAt, List.length_map, List.length_range]

theorem has_bytesAt (h : Has m a (bytesAt header b n)) (hi : i < n) :
    m (a + i) = header (b + i) := by
  rw [h i (by rw [length_bytesAt]; exact hi), List.getD_eq_getElem _ _ (by rw [length_bytesAt]; exact hi)]
  unfold bytesAt
  rw [List.getElem_map, List.getElem_range]

-- ---------------------------------------------------------------------------
-- The emitting pass
-- ---------------------------------------------------------------------------

/-- Where some of the bytes behind the records lie. -/
def Lies (total : Nat) (bytes : List Byte) (off : Nat) (more : List Byte) : Prop :=
  ∃ before after, bytes = before ++ more ++ after ∧ off = sizeofSegment * total + before.length

theorem Lies.append (h : Lies total bytes off more) (extra : List Byte) :
    Lies total (bytes ++ extra) off more := by
  obtain ⟨before, after, rfl, hoff⟩ := h
  exact ⟨before, after ++ extra, by rw [← List.append_assoc], hoff⟩

/-- The record of a program header. -/
structure LoadRecord (header : Nat → Byte) (total : Nat) (bytes : List Byte) (ph : Phdr)
    (r : RawSegment) : Prop where
  type : if ph.filesz = 0 then r.type = payloadSegmentBss
    else r.type = payloadSegmentCode ∨ r.type = payloadSegmentData
  compression : r.compression = htonl cbfsCompressNone
  loadAddr : r.loadAddr = htonll ph.paddr
  memLen : r.memLen = htonl ph.memsz
  len : r.len = htonl ph.filesz
  offset : ∃ off, r.offset = htonl off ∧ Lies total bytes off (bytesAt header ph.offset ph.filesz)

theorem LoadRecord.append (h : LoadRecord header total bytes ph r) (extra : List Byte) :
    LoadRecord header total (bytes ++ extra) ph r := by
  obtain ⟨off, hoff, hlies⟩ := h.offset
  exact { h with offset := ⟨off, hoff, hlies.append extra⟩ }

section Emit

variable {header : Nat → Byte} {total size : Nat} {records : List RawSegment} {bytes : List Byte}
  {s : Emit}

theorem Emitted.pinfo (h : Emitted total size records bytes s) (hroom : records.length < total)
    (sh : Shdr) (hsize : sizeofSegment * total + (bytes.length + sh.size) ≤ size) :
    ∃ s' r, emitPinfo header s sh = some s' ∧ r.type = payloadSegmentParams ∧
      Emitted total size (records ++ [r]) (bytes ++ bytesAt header sh.offset sh.size) s' := by
  have hlen := length_bytesAt header sh.offset sh.size
  obtain ⟨buf, s', hstore, hput, hs'⟩ := h.block hroom (bytesAt header sh.offset sh.size)
    (hlen.symm ▸ hsize) { type := payloadSegmentParams, len := sh.size, offset := s.doffset }
  rw [hlen] at hs'
  refine ⟨_, _, ?_, rfl, hs'⟩
  rw [emitPinfo, hstore]
  simp only [Option.bind_eq_bind, Option.bind_some, hput]

theorem Emitted.sections (is : List Nat) (h : Emitted total size records bytes s)
    (hroom : records.length + (pinfos header is).length < total)
    (hsize : sizeofSegment * total + (bytes.length + sectionBytes (pinfos header is)) ≤ size) :
    ∃ s' new more, is.foldlM (fun s i =>
        if isPinfo header i then emitPinfo header s (shdr header i) else some s) s = some s' ∧
      Emitted total size (records ++ new) (bytes ++ more) s' ∧
      (∀ r ∈ new, r.type = payloadSegmentParams) ∧ new.length = (pinfos header is).length ∧
      more.length = sectionBytes (pinfos header is) := by
  induction is generalizing s records bytes with
  | nil =>
    refine ⟨s, [], [], rfl, ?_, ?_, rfl, rfl⟩
    · rw [List.append_nil, List.append_nil]
      exact h
    · simp
  | cons i is ih =>
    rw [List.foldlM_cons]
    unfold pinfos at *
    by_cases hi : isPinfo header i = true
    · rw [List.filter_cons_of_pos hi, List.map_cons] at *
      unfold sectionBytes at *
      rw [List.map_cons, List.sum_cons] at *
      rw [List.length_cons] at hroom
      obtain ⟨s₁, r, hemit, hr, h₁⟩ := h.pinfo (by omega) (shdr header i) (by omega)
      obtain ⟨s', new, more, hrest, h', hnew, hcount, hmore⟩ := ih h₁
        (by rw [List.length_append, List.length_singleton]; omega)
        (by rw [List.length_append, length_bytesAt]; omega)
      refine ⟨s', r :: new, bytesAt header (shdr header i).offset (shdr header i).size ++ more, ?_,
        ?_,
        List.forall_mem_cons.mpr ⟨hr, hnew⟩, by rw [List.length_cons, List.length_cons, hcount],
        by rw [List.length_append, length_bytesAt, hmore]⟩
      · rw [if_pos hi, hemit]
        exact hrest
      · rw [List.append_cons, ← List.append_assoc]
        exact h'
    · rw [List.filter_cons_of_neg hi] at *
      rw [if_neg hi]
      exact ih h hroom hsize

theorem Emitted.load (header : Nat → Byte) (h : Emitted total size records bytes s)
    (hroom : records.length < total)
    (ph : Phdr) (hload : isLoad ph = true)
    (hsize : sizeofSegment * total + (bytes.length + ph.filesz) ≤ size) (lzma : List Byte → List Byte) :
    ∃ s' r, emitHeader header (compress lzma) .none s ph = some s' ∧
      LoadRecord header total (bytes ++ bytesAt header ph.offset ph.filesz) ph r ∧
      Emitted total size (records ++ [r]) (bytes ++ bytesAt header ph.offset ph.filesz) s' := by
  simp only [isLoad, Bool.and_eq_true, decide_eq_true_eq, ne_eq] at hload
  have hlies : Lies total (bytes ++ bytesAt header ph.offset ph.filesz) s.doffset
      (bytesAt header ph.offset ph.filesz) := ⟨bytes, [], by rw [List.append_nil], h.doffset⟩
  have hlen := length_bytesAt header ph.offset ph.filesz
  unfold emitHeader
  rw [if_neg (not_not.mpr hload.1), if_neg hload.2]
  by_cases hbss : ph.filesz = 0
  · have hnone : bytesAt header ph.offset ph.filesz = [] := by
      rw [hbss]
      rfl
    rw [if_pos hbss]
    rw [hnone, List.append_nil] at hlies ⊢
    obtain ⟨s', hput, -, -, hs'⟩ := h.putSegment hroom (by omega) {
      type := payloadSegmentBss
      loadAddr := htonll ph.paddr
      memLen := htonl ph.memsz
      offset := htonl s.doffset }
    refine ⟨s', _, hput, ?_, hs'⟩
    exact {
      type := (if_pos hbss).mpr rfl
      compression := rfl
      loadAddr := rfl
      memLen := rfl
      len := by rw [hbss]; rfl
      offset := ⟨s.doffset, rfl, hnone.symm ▸ hlies⟩ }
  · rw [if_neg hbss]
    obtain ⟨buf, s', hstore, hput, hs'⟩ := h.block hroom (bytesAt header ph.offset ph.filesz)
      (hlen.symm ▸ hsize) {
        type := if ph.flags &&& pfX ≠ 0 then payloadSegmentCode else payloadSegmentData
        loadAddr := htonll ph.paddr
        memLen := htonl ph.memsz
        compression := htonl CompAlgo.none.toNat
        offset := htonl s.doffset
        len := htonl ph.filesz }
    rw [hlen] at hs'
    have hlarger : ¬ ph.filesz > ph.filesz := Nat.lt_irrefl _
    refine ⟨_, _, ?_, ?_, hs'⟩
    · unfold emitLoad
      simp only [compress, hlen, hstore, hlarger, decide_false, Option.bind_eq_bind,
        Option.bind_some,
        Bool.false_eq_true, if_false, hput]
    · exact {
        type := by
          rw [if_neg hbss]
          split
          · exact Or.inl rfl
          · exact Or.inr rfl
        compression := rfl
        loadAddr := rfl
        memLen := rfl
        len := rfl
        offset := ⟨s.doffset, rfl, hlies⟩ }

theorem Emitted.headers (header : Nat → Byte) (phs : List Phdr)
    (h : Emitted total size records bytes s)
    (hroom : records.length + (loads phs).length < total)
    (hsize : sizeofSegment * total + (bytes.length + fileBytes (loads phs)) ≤ size)
    (lzma : List Byte → List Byte) :
    ∃ s' new more, phs.foldlM (emitHeader header (compress lzma) .none) s = some s' ∧
      Emitted total size (records ++ new) (bytes ++ more) s' ∧
      List.Forall₂ (LoadRecord header total (bytes ++ more)) (loads phs) new ∧
      more.length = fileBytes (loads phs) := by
  induction phs generalizing s records bytes with
  | nil =>
    refine ⟨s, [], [], rfl, ?_, .nil, rfl⟩
    rw [List.append_nil, List.append_nil]
    exact h
  | cons ph phs ih =>
    rw [List.foldlM_cons]
    unfold loads at *
    by_cases hload : isLoad ph = true
    · rw [List.filter_cons_of_pos hload] at *
      unfold fileBytes at *
      rw [List.map_cons, List.sum_cons] at *
      rw [List.length_cons] at hroom
      obtain ⟨s₁, r, hemit, hr, h₁⟩ := h.load header (by omega) ph hload (by omega) lzma
      obtain ⟨s', new, more, hrest, h', hnew, hmore⟩ := ih h₁
        (by rw [List.length_append, List.length_singleton]; omega)
        (by rw [List.length_append, length_bytesAt]; omega)
      refine ⟨s', r :: new, bytesAt header ph.offset ph.filesz ++ more, ?_, ?_, ?_,
        by rw [List.length_append, length_bytesAt, hmore]⟩
      · rw [hemit]
        exact hrest
      · rw [List.append_cons, ← List.append_assoc]
        exact h'
      · rw [← List.append_assoc]
        exact .cons (hr.append more) hnew
    · have hskip : emitHeader header (compress lzma) .none s ph = some s := by
        unfold emitHeader
        by_cases htype : ph.type = ptLoad
        · have hmem : ph.memsz = 0 := by
            simpa [isLoad, htype] using hload
          rw [if_neg (not_not.mpr htype), if_pos hmem]
        · rw [if_pos htype]
      rw [List.filter_cons_of_neg hload] at *
      rw [hskip]
      exact ih h hroom hsize

end Emit

-- ---------------------------------------------------------------------------
-- The payload
-- ---------------------------------------------------------------------------

/-- The size that the counting passes give. -/
def payloadSize (header : Nat → Byte) : Nat :=
  let shs := pinfos header (List.range (eShnum header))
  let phs := loads (phdrs header)
  sizeofSegment * (1 + shs.length + phs.length) + (sectionBytes shs + fileBytes phs)

def entryRecord (header : Nat → Byte) : RawSegment :=
  { type := payloadSegmentEntry, loadAddr := htonll (eEntry header) }

/-- The records of the parameter segments, of the loaded ones and of the entry point, and the bytes. -/
structure Contents (header : Nat → Byte) (out : Buffer) (params body : List RawSegment)
    (bytes : List Byte) : Prop where
  size : out.size = sizeofSegment * (params.length + body.length + 1) + bytes.length
  small : out.size < 2 ^ 31
  count : params.length = (pinfos header (List.range (eShnum header))).length
  skipped : ∀ r ∈ params, r.type = payloadSegmentParams
  loaded : List.Forall₂ (LoadRecord header (params.length + body.length + 1) bytes)
    (loads (phdrs header)) body
  stored : Has out.data 0 ((params ++ body ++ [entryRecord header]).flatMap RawSegment.toBytes)
  file : Has out.data (sizeofSegment * (params.length + body.length + 1)) bytes

theorem counted_eq (header : Nat → Byte) : counted header =
    (1 + (pinfos header (List.range (eShnum header))).length + (loads (phdrs header)).length,
      sectionBytes (pinfos header (List.range (eShnum header))) + fileBytes (loads (phdrs header))) := by
  rw [counted, foldl_countHeader, countSections, foldl_sections, Nat.zero_add]

theorem parse_contents {header : Nat → Byte} {arch : Nat} (helf : iself header = true)
    (harch : archAccepts arch (eMachine header) = true) (hsize : payloadSize header < 2 ^ 31)
    (lzma : List Byte → List Byte) :
    ∃ out params body bytes, parseElfToPayload header arch (compress lzma) .none = some out ∧
      Contents header out params body bytes := by
  have hcounted := counted_eq header
  unfold payloadSize at hsize
  simp only at hsize
  generalize hshs : pinfos header (List.range (eShnum header)) = shs at hcounted hsize
  generalize hphs : loads (phdrs header) = phs at hcounted hsize
  have hempty : Emitted (1 + shs.length + phs.length)
      (sizeofSegment * (1 + shs.length + phs.length) + (sectionBytes shs + fileBytes phs)) [] []
      ⟨⟨fun _ => 0,
        sizeofSegment * (1 + shs.length + phs.length) + (sectionBytes shs + fileBytes phs)⟩, 0,
        sizeofSegment * (1 + shs.length + phs.length), 0⟩ :=
    ⟨rfl, rfl, rfl, rfl, Has.nil, Has.nil⟩
  obtain ⟨s₁, params, more, hsections, h₁, hparams, hcount, hmore⟩ :=
    hempty.sections (List.range (eShnum header)) (by rw [hshs, List.length_nil]; omega)
      (by rw [hshs, List.length_nil]; omega)
  rw [List.nil_append, List.nil_append] at h₁
  rw [hshs] at hcount hmore
  obtain ⟨s₂, body, file, hheaders, h₂, hbody, hfile⟩ :=
    h₁.headers header (phdrs header) (by rw [hphs, hcount]; omega)
      (Nat.le_of_eq (by rw [hphs, hmore])) lzma
  rw [hphs] at hbody hfile
  have hlen : body.length = phs.length := hbody.length_eq.symm
  obtain ⟨s₃, hentry, -, -, h₃⟩ := h₂.putSegment (by rw [List.length_append, hcount, hlen]; omega)
    (Nat.le_add_right _ _) { type := payloadSegmentEntry, loadAddr := htonll (eEntry header) }
  have htotal : 1 + shs.length + phs.length = params.length + body.length + 1 := by
    rw [hcount, hlen]
    omega
  have hout : sizeofSegment * s₃.segments + s₃.osize =
      sizeofSegment * (params.length + body.length + 1) + (more ++ file).length := by
    rw [h₃.segments, h₃.osize, List.length_append, List.length_append, List.length_singleton]
  rw [htotal] at hbody h₃ hsize
  refine ⟨{ s₃.buf with size := sizeofSegment * s₃.segments + s₃.osize }, params, body,
    more ++ file, ?_, ?_⟩
  · unfold parseElfToPayload
    unfold emitSections
    rw [hcounted, helf, harch]
    simp only [Bool.not_true, Bool.false_eq_true, if_false]
    rw [if_pos (by rw [htotal]; exact hsize), hsections]
    simp only [Option.bind_eq_bind, Option.bind_some, hheaders, hentry]
  · exact {
      size := hout
      small := by
        show sizeofSegment * s₃.segments + s₃.osize < 2 ^ 31
        rw [hout, List.length_append, hmore, hfile]
        exact hsize
      count := by rw [hcount, hshs]
      skipped := hparams
      loaded := by rw [hphs]; exact hbody
      stored := h₃.records
      file := h₃.bytes }

theorem parse_conditions {header : Nat → Byte} {arch : Nat}
    {comp : CompAlgo → List Byte → List Byte} {algo : CompAlgo}
    (h : parseElfToPayload header arch comp algo = some out) :
    iself header = true ∧ archAccepts arch (eMachine header) = true ∧
      payloadSize header < 2 ^ 31 := by
  have hcounted := counted_eq header
  unfold parseElfToPayload at h
  rw [hcounted] at h
  simp only [Bool.not_eq_true'] at h
  split at h
  · exact nomatch h
  · rename_i helf
    split at h
    · exact nomatch h
    · rename_i harch
      split at h
      · rename_i hsize
        exact ⟨by simpa using helf, by simpa using harch, hsize⟩
      · exact nomatch h

-- ---------------------------------------------------------------------------
-- Reading
-- ---------------------------------------------------------------------------

theorem forall₂_trans {R : α → β → Prop} {S : β → γ → Prop} {T : α → γ → Prop}
    (hRS : ∀ a b c, R a b → S b c → T a c) (h : List.Forall₂ R xs ys) (h' : List.Forall₂ S ys zs) :
    List.Forall₂ T xs zs := by
  induction h generalizing zs with
  | nil =>
    cases h'
    exact .nil
  | cons hab _ ih =>
    cases h' with
    | cons hbc hrest => exact .cons (hRS _ _ _ hab hbc) (ih hrest)

theorem exists_mem_left {R : α → β → Prop} (h : List.Forall₂ R xs ys) (hy : y ∈ ys) :
    ∃ x ∈ xs, R x y := by
  induction h with
  | nil => exact nomatch hy
  | cons hxy _ ih =>
    obtain rfl | hy := List.mem_cons.mp hy
    · exact ⟨_, List.mem_cons_self, hxy⟩
    · obtain ⟨x, hx, hxy⟩ := ih hy
      exact ⟨x, List.mem_cons_of_mem _ hx, hxy⟩

/-- `len` segments from number `k` on. -/
def readFrom (m : Nat → Byte) (k len : Nat) : List PayloadSegment :=
  (List.range' k len).map fun i => readSegment m (sizeofSegment * i)

theorem readFrom_append (m : Nat → Byte) (k a b : Nat) :
    readFrom m k (a + b) = readFrom m k a ++ readFrom m (k + a) b := by
  have hsplit := @List.range'_append k a b 1
  rw [Nat.one_mul] at hsplit
  rw [readFrom, ← hsplit, List.map_append]
  rfl

theorem readFrom_readsAs {records : List RawSegment} (htypes : ∀ r ∈ records, r.type < 2 ^ 32)
    (h : Has m (sizeofSegment * k) (records.flatMap RawSegment.toBytes)) :
    List.Forall₂ ReadsAs records (readFrom m k records.length) := by
  induction records generalizing k with
  | nil => exact .nil
  | cons r records ih =>
    obtain ⟨hr, hrest⟩ := List.forall_mem_cons.mp htypes
    rw [List.flatMap_cons] at h
    obtain ⟨hhead, htail⟩ := has_append.mp h
    rw [toBytes_length, ← Nat.mul_succ] at htail
    exact .cons (readSegment_readsAs hhead hr) (ih hrest htail)

/-- What the reader sees for a program header. -/
structure LoadRead (header : Nat → Byte) (total : Nat) (bytes : List Byte) (ph : Phdr)
    (ps : PayloadSegment) : Prop where
  type : if ph.filesz = 0 then ps.type = .bss else ps.type = .code ∨ ps.type = .data
  compression : ps.compression = cbfsCompressNone
  loadAddr : ps.loadAddr = ph.paddr
  memLen : ps.memLen = ph.memsz
  len : ps.len = ph.filesz
  offset : Lies total bytes ps.offset (bytesAt header ph.offset ph.filesz)

/-- The fields of a program header are words. -/
structure Phdr.Words (ph : Phdr) : Prop where
  paddr : ph.paddr < 2 ^ 32
  memsz : ph.memsz < 2 ^ 32
  filesz : ph.filesz < 2 ^ 32

theorem phdr_words (h : ph ∈ phdrs header) : ph.Words := by
  obtain ⟨i, -, rfl⟩ := List.mem_map.mp h
  exact ⟨le32_lt _ _, le32_lt _ _, le32_lt _ _⟩

theorem LoadRecord.read {r : RawSegment} (h : LoadRecord header total bytes ph r)
    (hps : ReadsAs r ps)
    (hwords : ph.Words) (hsmall : sizeofSegment * total + bytes.length < 2 ^ 31) :
    LoadRead header total bytes ph ps := by
  obtain ⟨off, hoff, hlies⟩ := h.offset
  have hlt : off < 2 ^ 32 := by
    obtain ⟨before, after, rfl, rfl⟩ := hlies
    rw [List.length_append, List.length_append] at hsmall
    omega
  exact {
    type := by
      have htype := h.type
      split at htype
      · rw [if_pos ‹_›, hps.type, htype]
        rfl
      · rw [if_neg ‹_›, hps.type]
        obtain htype | htype := htype
        · exact Or.inl (htype.symm ▸ rfl)
        · exact Or.inr (htype.symm ▸ rfl)
    compression := hps.compression h.compression (by decide)
    loadAddr := hps.loadAddr h.loadAddr (Nat.lt_trans hwords.paddr (by decide))
    memLen := hps.memLen h.memLen hwords.memsz
    len := hps.len h.len hwords.filesz
    offset := (hps.offset hoff hlt).symm ▸ hlies }

-- ---------------------------------------------------------------------------
-- The segment list
-- ---------------------------------------------------------------------------

theorem build_params {params : List PayloadSegment} (h : ∀ ps ∈ params, ps.type = .params)
    (firstSegment : Nat) (heap : Nat → Segment) (n : Nat) (segs : List Segment)
    (rest : List PayloadSegment) :
    buildSelfSegmentList firstSegment heap n segs (params ++ rest) =
      buildSelfSegmentList firstSegment heap n segs rest := by
  induction params with
  | nil => rfl
  | cons ps params ih =>
    obtain ⟨hps, hrest⟩ := List.forall_mem_cons.mp h
    rw [List.cons_append, buildSelfSegmentList, hps]
    exact ih hrest

theorem build_append {firstSegment : Nat} {heap : Nat → Segment} {list : SegmentList}
    {payload : List PayloadSegment}
    (h : buildSelfSegmentList firstSegment heap n segs payload = some list) (rest : List PayloadSegment) :
    buildSelfSegmentList firstSegment heap n segs (payload ++ rest) = some list := by
  induction payload generalizing n segs with
  | nil => exact nomatch h
  | cons ps payload ih =>
    have hnext : ∀ {next}, payload.head? = some next → (payload ++ rest).head? = some next := by
      intro next hnext
      rw [List.head?_append, hnext]
      rfl
    have hload : (payload.head?.bind fun next => (newSegment firstSegment (heap n) ps).bind fun new =>
          buildSelfSegmentList firstSegment heap (n + 1) (insertSegment new next segs) payload) =
            some list →
        ((payload ++ rest).head?.bind fun next => (newSegment firstSegment (heap n) ps).bind fun new =>
          buildSelfSegmentList firstSegment heap (n + 1) (insertSegment new next segs)
            (payload ++ rest)) =
            some list := by
      intro hsome
      obtain ⟨next, hhead, hsome⟩ := Option.bind_eq_some_iff.mp hsome
      obtain ⟨new, hnew, hsome⟩ := Option.bind_eq_some_iff.mp hsome
      rw [hnext hhead, hnew]
      exact ih hsome
    rw [List.cons_append]
    unfold buildSelfSegmentList at h ⊢
    cases htype : ps.type with
    | params =>
      rw [htype] at h
      exact ih h
    | entry =>
      rw [htype] at h
      exact h
    | other type =>
      rw [htype] at h
      exact h
    | code =>
      rw [htype] at h
      exact hload h
    | data =>
      rw [htype] at h
      exact hload h
    | bss =>
      rw [htype] at h
      exact hload h

/-- An ELF file that can be loaded as its program headers say. -/
structure WellFormed (header : Nat → Byte) : Prop where
  ident : iself header = true
  sizes : ∀ ph ∈ phdrs header, ph.type = ptLoad → ph.filesz ≤ ph.memsz

/-- The segment is that of the program header, and its file bytes are at its source address. -/
structure LoadedFrom (header rom : Nat → Byte) (ph : Phdr) (seg : Segment) : Prop where
  dst : seg.dst = ph.paddr
  memsz : seg.memsz = ph.memsz
  filesz : seg.filesz = ph.filesz
  plain : ph.filesz ≠ 0 → seg.compression = cbfsCompressNone
  bytes : ∀ i < ph.filesz, rom (u32 (seg.src + i)) = header (ph.offset + i)

theorem LoadRead.kind (h : LoadRead header total bytes ph ps) :
    (ps.type = .code ∨ ps.type = .data) ∧ ps.compression = cbfsCompressNone ∨ ps.type = .bss := by
  have htype := h.type
  split at htype
  · exact Or.inr htype
  · exact Or.inl ⟨htype, h.compression⟩

theorem LoadRead.fileLen (h : LoadRead header total bytes ph ps) (hle : ph.filesz ≤ ph.memsz) :
    ps.fileLen = ph.filesz := by
  have htype := h.type
  unfold PayloadSegment.fileLen
  split at htype
  case isTrue hzero =>
    rw [htype, hzero]
  case isFalse =>
    have hmin : min ps.len ps.memLen = ph.filesz := by
      rw [h.len, h.memLen]
      exact Nat.min_eq_left hle
    obtain htype | htype := htype
    · rw [htype]
      exact hmin
    · rw [htype]
      exact hmin

theorem LoadRead.loadedFrom {rom : Nat → Byte} (h : LoadRead header total bytes ph ps)
    (hmade : Made firstSegment ps seg) (hwords : ph.Words) (hle : ph.filesz ≤ ph.memsz)
    (hfile : Has (fun x => rom (u32 (firstSegment + x))) (sizeofSegment * total) bytes) :
    LoadedFrom header rom ph seg := by
  have hfilesz : seg.filesz = ph.filesz := hmade.filesz.trans (h.fileLen hle)
  have hplain : ph.filesz ≠ 0 → seg.compression = cbfsCompressNone ∧
      seg.src = u32 (firstSegment + ps.offset) := by
    intro hne
    exact hmade.plain.resolve_left (hfilesz.symm ▸ hne)
  exact {
    dst := by rw [hmade.dst, h.loadAddr, u32_eq hwords.paddr]
    memsz := hmade.memsz.trans h.memLen
    filesz := hfilesz
    plain := fun hne => (hplain hne).1
    bytes := by
      intro i hi
      obtain ⟨-, hsrc⟩ := hplain (Nat.ne_of_gt (Nat.lt_of_le_of_lt (Nat.zero_le i) hi))
      obtain ⟨before, after, rfl, hoff⟩ := h.offset
      obtain ⟨hlow, -⟩ := has_append.mp hfile
      obtain ⟨-, hhere⟩ := has_append.mp hlow
      rw [← hoff] at hhere
      have hbyte : rom (u32 (firstSegment + (ps.offset + i))) = header (ph.offset + i) :=
        has_bytesAt hhere hi
      have haddr : u32 (seg.src + i) = u32 (firstSegment + (ps.offset + i)) := by
        rw [hsrc]
        unfold u32
        omega
      rw [haddr, hbyte] }

/-- The payload in the flash: its parameter segments, the segments of the file and the entry point. -/
structure Reads (header m : Nat → Byte) (params body : List PayloadSegment) (entry : PayloadSegment)
    (total : Nat) (bytes : List Byte) : Prop where
  params : ∀ ps ∈ params, ps.type = .params
  body : List.Forall₂ (LoadRead header total bytes) (loads (phdrs header)) body
  entryType : entry.type = .entry
  entryAddr : entry.loadAddr = eEntry header
  file : Has m (sizeofSegment * total) bytes

theorem eEntry_lt (header : Nat → Byte) : eEntry header < 2 ^ 32 := le32_lt _ _

theorem words_of_loads (h : ph ∈ loads (phdrs header)) :
    ph.Words := phdr_words (List.mem_of_mem_filter h)

theorem type_of_loads (h : ph ∈ loads phs) : ph.type = ptLoad := by
  have hload := List.of_mem_filter h
  simp only [isLoad, Bool.and_eq_true, decide_eq_true_eq] at hload
  exact hload.1

theorem LoadRecord.type_lt {r : RawSegment} (h : LoadRecord header total bytes ph r) :
    r.type < 2 ^ 32 := by
  have htype := h.type
  split at htype
  · rw [htype]
    decide
  · obtain htype | htype := htype
    · rw [htype]
      decide
    · rw [htype]
      decide

theorem Contents.reads {header m : Nat → Byte} {out : Buffer} {params body : List RawSegment}
    {bytes : List Byte}
    (h : Contents header out params body bytes) (hm : ∀ x < out.size, m x = out.data x) :
    ∃ params' body' entry,
      readFrom m 0 (params.length + (body.length + 1)) = params' ++ (body' ++ [entry]) ∧
      Reads header m params' body' entry (params.length + body.length + 1) bytes := by
  have hsize := h.size
  have hsmall : sizeofSegment * (params.length + body.length + 1) + bytes.length < 2 ^ 31 :=
    hsize ▸ h.small
  have hstored : Has m 0 ((params ++ body ++ [entryRecord header]).flatMap RawSegment.toBytes) := by
    refine h.stored.congr fun i hi => ?_
    rw [length_records, List.length_append, List.length_append, List.length_singleton] at hi
    rw [Nat.zero_add]
    exact hm i (by omega)
  rw [List.flatMap_append, List.flatMap_append] at hstored
  obtain ⟨hfront, hentry⟩ := has_append.mp hstored
  obtain ⟨hparams, hbody⟩ := has_append.mp hfront
  rw [length_records, Nat.zero_add] at hbody
  rw [List.length_append, length_records, length_records, Nat.zero_add, ← Nat.mul_add,
    List.flatMap_singleton] at hentry
  have hentry' := readSegment_readsAs hentry (by decide : payloadSegmentEntry < 2 ^ 32)
  refine ⟨readFrom m 0 params.length, readFrom m params.length body.length,
    readSegment m (sizeofSegment * (params.length + body.length)), ?_, ?_⟩
  · rw [readFrom_append, readFrom_append, Nat.zero_add]
    rfl
  · exact {
      params := by
        intro ps hps
        have hfirst : Has m (sizeofSegment * 0) (params.flatMap RawSegment.toBytes) := hparams
        have hread := readFrom_readsAs
          (fun r hr => h.skipped r hr ▸ (by decide : payloadSegmentParams < 2 ^ 32)) hfirst
        obtain ⟨r, hr, hreads⟩ := exists_mem_left hread hps
        rw [hreads.type, h.skipped r hr]
        rfl
      body := by
        have hread := readFrom_readsAs
          (fun r hr => (exists_mem_left h.loaded hr).elim fun _ hph => hph.2.type_lt) hbody
        have hwords := (List.forall₂_and_left (loads (phdrs header)) body).mpr
          ⟨fun ph hph => words_of_loads hph, h.loaded⟩
        exact forall₂_trans (fun ph r ps hrecord hreads => hrecord.2.read hreads hrecord.1 hsmall)
          hwords hread
      entryType := hentry'.type
      entryAddr := hentry'.loadAddr rfl (Nat.lt_trans (eEntry_lt header) (by decide))
      file := h.file.congr fun i hi => hm _ (by omega) }

/-- The payload made of an ELF file without compression: it exists where its size fits,
and wherever it is stored, it is read back as the segments and the entry point of the file. -/
theorem payload_reads_back {header : Nat → Byte} (h : WellFormed header) (arch : Nat)
    (lzma : List Byte → List Byte) :
    (archAccepts arch (eMachine header) = true → payloadSize header < 2 ^ 31 →
      ∃ out, parseElfToPayload header arch (compress lzma) .none = some out) ∧
    ∀ out, parseElfToPayload header arch (compress lzma) .none = some out →
      out.size < 2 ^ 31 ∧
      ∀ (rom : Nat → Byte) (firstSegment : Nat) (heap : Nat → Segment) (n : Nat),
        (∀ x < out.size, rom (u32 (firstSegment + x)) = out.data x) →
        (pinfos header (List.range (eShnum header))).length + (loads (phdrs header)).length < n →
        ∃ segs new, buildSelfSegmentList firstSegment heap 0 [] (readSegments rom firstSegment n) =
            some ⟨segs, eEntry header, 1⟩ ∧
          segs.Perm new ∧ List.Forall₂ (LoadedFrom header rom) (loads (phdrs header)) new := by
  refine ⟨fun harch hsize => ?_, fun out hparse => ?_⟩
  · obtain ⟨out, -, -, -, hparse, -⟩ := parse_contents h.ident harch hsize lzma
    exact ⟨out, hparse⟩
  obtain ⟨-, harch, hsize⟩ := parse_conditions hparse
  obtain ⟨out', params, body, bytes, hparse', hcontents⟩ := parse_contents h.ident harch hsize lzma
  obtain rfl := Option.some.inj (hparse.symm.trans hparse')
  refine ⟨hcontents.small, fun rom firstSegment heap n hrom hn => ?_⟩
  obtain ⟨params', body', entry, hread, hreads⟩ :=
    @Contents.reads header (fun x => rom (u32 (firstSegment + x))) out params body bytes hcontents hrom
  have hcount := hcontents.count
  have hbodyLen : body.length = (loads (phdrs header)).length := hcontents.loaded.length_eq.symm
  have hsegments : readSegments rom firstSegment n = params' ++ (body' ++ [entry]) ++
      readFrom (fun x => rom (u32 (firstSegment + x))) (0 + (params.length + (body.length + 1)))
        (n - (params.length + (body.length + 1))) := by
    rw [← hread, ← readFrom_append,
      Nat.add_sub_of_le (by omega), readSegments, List.range_eq_range']
    rfl
  -- the loader's list, with the segments in the order of the file
  obtain ⟨segs, new, hbuild, hperm, hmade⟩ := buildSelfSegmentList_spec
    (fun ps hps => (exists_mem_left hreads.body hps).elim fun _ hph => hph.2.kind) hreads.entryType
    firstSegment heap 0 []
  rw [hreads.entryAddr, u32_eq (eEntry_lt header)] at hbuild
  refine ⟨segs, new, ?_, by rwa [List.append_nil] at hperm, ?_⟩
  · rw [hsegments]
    refine build_append ?_ _
    rw [build_params hreads.params]
    exact hbuild
  · have hsizes := (List.forall₂_and_left (loads (phdrs header)) body').mpr
      ⟨fun ph hph => (⟨words_of_loads hph,
        h.sizes ph (List.mem_of_mem_filter hph) (type_of_loads hph)⟩ :
        ph.Words ∧ ph.filesz ≤ ph.memsz), hreads.body⟩
    exact forall₂_trans (fun ph ps seg hph hseg => hph.2.loadedFrom hseg hph.1.1 hph.1.2
      hreads.file) hsizes hmade

/-- An ELF file with one byte at address 0x1000 and another byte of zero. -/
def smallElf : Nat → Byte := fun i =>
  [0x7f, 0x45, 0x4c, 0x46, 1, 1, 1, 0, 0, 0, 0, 0, 0, 0, 0, 0, 2, 0, 3, 0, 1, 0, 0, 0, 0, 0x10, 0,
    0, 52, 0, 0, 0,
    0, 0, 0, 0, 0, 0, 0, 0, 52, 0, 32, 0, 1, 0, 40, 0, 0, 0, 0, 0,
    1, 0, 0, 0, 84, 0, 0, 0, 0, 0x10, 0, 0, 0, 0x10, 0, 0, 1, 0, 0, 0, 2, 0, 0, 0, 5, 0, 0, 0, 1, 0,
      0, 0, 0xf4].getD i 0

theorem payload_reads_back_small :
    ∃ out, parseElfToPayload smallElf archX86 (compress id) .none = some out ∧
    ∃ segs new, buildSelfSegmentList 0 (fun _ => ⟨0, 0, 0, 0, 0⟩) 0 [] (readSegments out.data 0 2) =
        some ⟨segs, 0x1000, 1⟩ ∧
      segs.Perm new ∧ List.Forall₂ (LoadedFrom smallElf out.data) (loads (phdrs smallElf)) new := by
  have helf : WellFormed smallElf := ⟨by decide, by decide⟩
  obtain ⟨hmade, hread⟩ := payload_reads_back helf archX86 id
  obtain ⟨out, hout⟩ := hmade (by decide) (by decide)
  obtain ⟨hsmall, hback⟩ := hread out hout
  refine ⟨out, hout, hback out.data 0 (fun _ => ⟨0, 0, 0, 0, 0⟩) 2 (fun x hx => ?_) (by decide)⟩
  rw [Nat.zero_add, u32_eq (Nat.lt_trans (Nat.lt_trans hx hsmall) (by decide))]

end ItxLlama.Coreboot.MkPayload
