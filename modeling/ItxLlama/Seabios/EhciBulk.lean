import ItxLlama.Lib.Registers
import ItxLlama.Lib.Word

/-!
# Bulk transfers on EHCI

`fillTDbuffer` and `ehci_send_bulk` of `hw/usb-ehci.c`: a transfer is cut into
transfer descriptors of at most five pages. Every descriptor but the last moves
whole packets.
-/

namespace ItxLlama.Seabios.Ehci

open Lib.Word Lib.Wrap Lib.Registers

/-- `struct ehci_qtd`, without the upper halves of the page pointers. -/
structure Qtd where
  qtdNext : BitVec 32
  altNext : BitVec 32
  token : BitVec 32
  buf : List Nat
  deriving DecidableEq, Repr

def qtdLengthMask : BitVec 32 := 0x7fff0000
def qtdPidOut : BitVec 32 := 0x000
def qtdPidIn : BitVec 32 := 0x100
def qtdStsActive : BitVec 32 := 0x80
def qtdStsHalt : BitVec 32 := 0x40
def ehciPtrTerm : BitVec 32 := 1

def ehciExplen (len : Nat) : BitVec 32 := BitVec.ofNat 32 len <<< 16 &&& qtdLengthMask

def ehciMaxerr (err : Nat) : BitVec 32 := BitVec.ofNat 32 err <<< 10 &&& 0xc00

def alignDown32 (x a : Nat) : Nat := (BitVec.ofNat 32 x &&& ~~~(BitVec.ofNat 32 a - 1)).toNat

/-- The loop of `fillTDbuffer`, with room for so many page pointers: the bytes it
takes, and the pointers. -/
def fillPages (maxpacket buf : Nat) : (room dest bytes : Nat) → Nat × List Nat
  | _, dest, 0 => (sub32 dest buf, [])
  -- more data than can transfer in a single qtd
  | 0, dest, _ + 1 => (alignDown32 (sub32 dest buf) maxpacket, [])
  | room + 1, dest, bytes + 1 =>
    let max := 0x1000 - dest % 0x1000
    let count := if bytes + 1 > max then max else bytes + 1
    let rest := fillPages maxpacket buf room (u32 (dest + count)) (bytes + 1 - count)
    (rest.1, dest :: rest.2)

def fillTDbuffer (td : Qtd) (maxpacket buf bytes : Nat) : Qtd × Nat :=
  let r := fillPages maxpacket buf td.buf.length buf bytes
  ({ td with buf := r.2 ++ td.buf.drop r.2.length }, r.1)

/-- What `ehci_wait_td` returns for a descriptor; `none` where it goes on waiting. -/
def ehciWaitTd (td : Qtd) : Option Int :=
  if td.token &&& qtdStsActive ≠ 0 then none
  else if td.token &&& qtdStsHalt ≠ 0 then some (-2)
  else some 0

/-- The controller has moved all bytes of a descriptor. -/
def Qtd.complete (td : Qtd) : Qtd :=
  { td with token := td.token &&& ~~~(qtdStsActive ||| qtdLengthMask) }

def stackqtds : Nat := 4

/-- The descriptors on the stack, cleared. -/
def clearedQtd : Qtd := ⟨0, 0, 0, List.replicate 5 0⟩

def clearedQtds : List Qtd := List.replicate stackqtds clearedQtd

/-- A descriptor as it is given to the controller, and the bytes that are counted for it. -/
structure Queued where
  td : Qtd
  transfer : Nat
  deriving DecidableEq, Repr

structure BulkRun where
  ret : Int
  queued : List Queued
  deriving DecidableEq, Repr

/-- The loop after the data: every descriptor once more. -/
def waitAll : List Qtd → Option Int
  | [] => some 0
  | td :: tds =>
    match ehciWaitTd td with
    | none => none
    | some ret => if ret ≠ 0 then some (-1) else waitAll tds

/-- The loop over the data. `tdpos` stays 0 in it. -/
def bulkLoop (maxpacket : Nat) (dir : Bool) :
    (fuel : Nat) → (tds : List Qtd) → (data datasize : Nat) → Option BulkRun
  | 0, _, _, _ => none
  | fuel + 1, tds, data, datasize =>
    if datasize = 0 then (waitAll tds).map fun ret => ⟨ret, []⟩
    else
      let filled := fillTDbuffer (tds.getD 0 clearedQtd) maxpacket data datasize
      let transfer := filled.2
      let td := { filled.1 with
        qtdNext := 1
        altNext := ehciPtrTerm
        token := ehciExplen transfer ||| qtdStsActive ||| (if dir then qtdPidIn else qtdPidOut) |||
          ehciMaxerr 3 }
      match ehciWaitTd td.complete with
      | none => none
      | some ret =>
        if ret ≠ 0 then some ⟨-1, [⟨td, transfer⟩]⟩
        else
          (bulkLoop maxpacket dir fuel (tds.set 0 td.complete) (u32 (data + transfer))
            (datasize - transfer)).map fun run => { run with queued := ⟨td, transfer⟩ :: run.queued }

def ehciSendBulk (fuel maxpacket : Nat) (dir : Bool) (data datasize : Nat) : Option BulkRun :=
  bulkLoop maxpacket dir fuel clearedQtds data datasize

-- ---------------------------------------------------------------------------
-- The controller's side
-- ---------------------------------------------------------------------------

/-- Total bytes to transfer. -/
def Qtd.length (td : Qtd) : Nat := (td.token >>> 16 &&& 0x7fff).toNat

/-- Where byte `k` of a descriptor lies: the offset of the first pointer goes on through the
pages. -/
def Qtd.byteAddr (td : Qtd) (k : Nat) : Nat :=
  let offset := td.buf.getD 0 0 % 0x1000 + k
  td.buf.getD (offset / 0x1000) 0 / 0x1000 * 0x1000 + offset % 0x1000

theorem alignDown32_eq (hx : x < 2 ^ 32) (hk : k < 32) :
    alignDown32 x (2 ^ k) = alignDown x (2 ^ k) := by
  have hfield : IsField (~~~(BitVec.ofNat 32 (2 ^ k) - 1)) k 32 := by
    have hmask : BitVec.ofNat 32 (2 ^ k) - 1 = BitVec.ofNat 32 (2 ^ k - 1) := by
      have hpos := Nat.two_pow_pos k
      have hlt : 2 ^ k < 2 ^ 32 := Nat.pow_lt_pow_right (by decide) hk
      apply BitVec.eq_of_toNat_eq
      have hone : (1 : BitVec 32).toNat = 1 := rfl
      rw [BitVec.toNat_sub, BitVec.toNat_ofNat, BitVec.toNat_ofNat, hone]
      omega
    intro i
    rw [hmask, BitVec.getLsbD_not, getLsbD_low, Bool.eq_iff_iff]
    simp only [Bool.and_eq_true, Bool.not_eq_true', Bool.and_eq_false_iff, decide_eq_true_eq,
      decide_eq_false_iff_not]
    omega
  rw [alignDown32, hfield.and_toNat, BitVec.toNat_ofNat, Nat.mod_mod, Nat.mod_eq_of_lt hx,
    alignDown]
  have hdiv := Nat.div_add_mod x (2 ^ k)
  rw [Nat.mul_comm] at hdiv
  omega

theorem explen_toNat (h : len < 2 ^ 15) : (ehciExplen len).toNat = len * 2 ^ 16 := by
  have hfield : IsField qtdLengthMask 16 31 := isField_of_bounded (by decide) (by decide)
  rw [ehciExplen, hfield.and_toNat, BitVec.toNat_shiftLeft, BitVec.toNat_ofNat, Nat.shiftLeft_eq]
  omega

theorem isField_length : IsField qtdLengthMask 16 31 :=
  isField_of_bounded (by decide) (by decide)

theorem length_token (h : len < 2 ^ 15) (hother : other &&& qtdLengthMask = 0#32) :
    Qtd.length ⟨next, alt, ehciExplen len ||| other, buf⟩ = len := by
  have hlow : IsField (0x7fff : BitVec 32) 0 15 := isField_of_bounded (by decide) (by decide)
  have hlen : (ehciExplen len ||| other) &&& qtdLengthMask = ehciExplen len := by
    apply BitVec.eq_of_getLsbD_eq
    intro i hi
    have hbit := congrArg (BitVec.getLsbD · i) hother
    simp only [ehciExplen, BitVec.getLsbD_and, BitVec.getLsbD_or, BitVec.getLsbD_zero] at hbit ⊢
    rw [Bool.and_or_distrib_right, hbit, Bool.or_false, Bool.and_assoc, Bool.and_self]
  have hlength : Qtd.length ⟨next, alt, ehciExplen len ||| other, buf⟩ =
    ((ehciExplen len ||| other) >>> 16 &&& 0x7fff).toNat := rfl
  have hmasked := congrArg BitVec.toNat hlen
  rw [isField_length.and_toNat, explen_toNat h] at hmasked
  rw [hlength, hlow.and_toNat, BitVec.toNat_ushiftRight, Nat.shiftRight_eq_div_pow]
  omega

-- ---------------------------------------------------------------------------
-- The pages of one descriptor
-- ---------------------------------------------------------------------------

def pagePtr (dest j : Nat) : Nat := if j = 0 then dest else u32 (dest / 0x1000 * 0x1000 + 0x1000 * j)

/-- How many pages `n` bytes from `dest` touch. -/
def pageCount (dest n : Nat) : Nat := if n = 0 then 0 else (dest % 0x1000 + n - 1) / 0x1000 + 1

def pageList (dest n : Nat) : List Nat := (List.range (pageCount dest n)).map (pagePtr dest)

/-- The bytes that fit behind so many page pointers. -/
def capacity (room dest : Nat) : Nat := if room = 0 then 0 else room * 0x1000 - dest % 0x1000

theorem pageList_page (hn : dest % 0x1000 + n ≤ 0x1000) (hpos : 0 < n) :
    pageList dest n = [dest] := by
  have hcount : pageCount dest n = 1 := by
    rw [pageCount, if_neg (Nat.ne_of_gt hpos)]
    omega
  rw [pageList, hcount]
  rfl

theorem pageList_next (hn : 0x1000 ≤ dest % 0x1000 + n) :
    pageList dest n = dest :: pageList (u32 (dest + (0x1000 - dest % 0x1000)))
      (n - (0x1000 - dest % 0x1000)) := by
  have hcount : pageCount dest n = pageCount (u32 (dest + (0x1000 - dest % 0x1000)))
      (n - (0x1000 - dest % 0x1000)) + 1 := by
    unfold pageCount u32
    rw [if_neg (by omega)]
    split <;> omega
  rw [pageList, hcount, List.range_succ_eq_map, List.map_cons, List.map_map]
  refine congrArg₂ List.cons rfl (List.map_congr_left fun j _ => ?_)
  show pagePtr dest (j + 1) = pagePtr _ j
  unfold pagePtr u32
  by_cases hj : j = 0
  · subst hj
    rw [if_neg (by decide), if_pos rfl]
    omega
  · rw [if_neg (Nat.succ_ne_zero j), if_neg hj]
    omega

theorem fillPages_eq (maxpacket buf : Nat) (room : Nat) (hdest : dest < 2 ^ 32) (bytes : Nat) :
    fillPages maxpacket buf room dest bytes =
      (if bytes ≤ capacity room dest then sub32 (u32 (dest + bytes)) buf
        else alignDown32 (sub32 (u32 (dest + capacity room dest)) buf) maxpacket,
      pageList dest (min bytes (capacity room dest))) := by
  induction room generalizing dest bytes with
  | zero =>
    have hcap : capacity 0 dest = 0 := rfl
    rw [hcap, Nat.min_zero, Nat.add_zero, u32_eq hdest]
    cases bytes with
    | zero => rw [fillPages, if_pos (Nat.le_refl _), Nat.add_zero, u32_eq hdest]; rfl
    | succ bytes => rw [fillPages, if_neg (Nat.not_succ_le_zero _)]; rfl
  | succ room ih =>
    have hcap : capacity (room + 1) dest =
        0x1000 - dest % 0x1000 + capacity room (u32 (dest + (0x1000 - dest % 0x1000))) := by
      unfold capacity u32
      rw [if_neg (Nat.succ_ne_zero room)]
      split <;> omega
    cases bytes with
    | zero =>
      rw [fillPages, if_pos (Nat.zero_le _), Nat.zero_min, Nat.add_zero, u32_eq hdest]
      rfl
    | succ bytes =>
      rw [fillPages]
      by_cases hmax : bytes + 1 > 0x1000 - dest % 0x1000
      · -- the page is filled up
        have hnext : u32 (dest + (0x1000 - dest % 0x1000)) < 2 ^ 32 := Nat.mod_lt _ (by decide)
        have hadd (n : Nat) : u32 (u32 (dest + (0x1000 - dest % 0x1000)) + n) =
            u32 (dest + (0x1000 - dest % 0x1000 + n)) := by
          unfold u32
          omega
        have hsplit : 0x1000 - dest % 0x1000 + (bytes + 1 - (0x1000 - dest % 0x1000)) = bytes + 1 := by
          omega
        have hle (c : Nat) : bytes + 1 - (0x1000 - dest % 0x1000) ≤ c ↔
            bytes + 1 ≤ 0x1000 - dest % 0x1000 + c := by omega
        have hmin (c : Nat) : min (bytes + 1) (0x1000 - dest % 0x1000 + c) -
            (0x1000 - dest % 0x1000) = min (bytes + 1 - (0x1000 - dest % 0x1000)) c := by omega
        have hpages := @pageList_next dest (min (bytes + 1) (0x1000 - dest % 0x1000 +
          capacity room (u32 (dest + (0x1000 - dest % 0x1000))))) (by omega)
        simp only [if_pos hmax]
        rw [ih hnext, hcap, hadd, hadd, hsplit, hpages, hmin]
        simp only [hle]
      · have hrest : fillPages maxpacket buf room (u32 (dest + (bytes + 1))) 0 =
            (sub32 (u32 (dest + (bytes + 1))) buf, []) := by
          cases room <;> rfl
        have hfits : bytes + 1 ≤ capacity (room + 1) dest := by omega
        simp only [if_neg hmax]
        rw [Nat.sub_self, hrest, if_pos hfits, Nat.min_eq_left hfits,
          pageList_page (by omega) (Nat.succ_pos _)]

-- ---------------------------------------------------------------------------
-- One descriptor
-- ---------------------------------------------------------------------------

theorem pageList_length : (pageList dest n).length = pageCount dest n := by
  rw [pageList, List.length_map, List.length_range]

theorem pageList_getD (h : j < pageCount dest n) (rest : List Nat) :
    (pageList dest n ++ rest).getD j 0 = pagePtr dest j := by
  rw [List.getD_append _ _ _ _ (by rwa [pageList_length]), pageList, List.getD_eq_getElem _ _
    (by rwa [List.length_map, List.length_range]), List.getElem_map, List.getElem_range]

/-- The bytes that the page pointers cover lie behind each other. -/
theorem byteAddr_eq (hdest : dest < 2 ^ 32) (h : k < n) {td : Qtd}
    (hbuf : td.buf = pageList dest n ++ rest) : td.byteAddr k = u32 (dest + k) := by
  have hcount : pageCount dest n = (dest % 0x1000 + n - 1) / 0x1000 + 1 :=
    if_neg (Nat.ne_zero_of_lt h)
  have hfirst : td.buf.getD 0 0 = dest := by
    rw [hbuf, pageList_getD (by omega)]
    rfl
  have hpage : td.buf.getD ((dest % 0x1000 + k) / 0x1000) 0 =
      pagePtr dest ((dest % 0x1000 + k) / 0x1000) := by
    rw [hbuf, pageList_getD]
    omega
  unfold Qtd.byteAddr
  simp only [hfirst, hpage]
  unfold pagePtr u32
  split <;> omega

/-- What `fillTDbuffer` leaves: whole packets, unless they are all the bytes. -/
structure Filled (td td' : Qtd) (maxpacket dest bytes transfer n : Nat) (rest : List Nat) :
    Prop where
  result : td' = { td with buf := pageList dest n ++ rest }
  size : (pageList dest n ++ rest).length = 5
  pos : 0 < transfer
  covered : transfer ≤ n
  length : n < 2 ^ 15
  packets : transfer = bytes ∨ transfer < bytes ∧ maxpacket ∣ transfer

theorem capacity_five (dest : Nat) : capacity 5 dest = 0x5000 - dest % 0x1000 := rfl

theorem fillTDbuffer_filled {td : Qtd} (hbuf : td.buf.length = 5) (hk : k ≤ 10)
    (hdest : dest < 2 ^ 32) (hpos : 0 < bytes) :
    ∃ n rest, Filled td (fillTDbuffer td (2 ^ k) dest bytes).1 (2 ^ k) dest bytes
      (fillTDbuffer td (2 ^ k) dest bytes).2 n rest := by
  have hfill : fillTDbuffer td (2 ^ k) dest bytes =
      ({ td with buf := pageList dest (min bytes (capacity 5 dest)) ++
          td.buf.drop (pageList dest (min bytes (capacity 5 dest))).length },
        if bytes ≤ capacity 5 dest then sub32 (u32 (dest + bytes)) dest
        else alignDown32 (sub32 (u32 (dest + capacity 5 dest)) dest) (2 ^ k)) := by
    rw [fillTDbuffer, hbuf, fillPages_eq _ _ _ hdest]
  have hcap := capacity_five dest
  have hsize : (pageList dest (min bytes (capacity 5 dest)) ++
      td.buf.drop (pageList dest (min bytes (capacity 5 dest))).length).length = 5 := by
    have hcount : pageCount dest (min bytes (capacity 5 dest)) ≤ 5 := by
      unfold pageCount
      split <;> omega
    rw [List.length_append, List.length_drop, hbuf, pageList_length]
    omega
  refine ⟨min bytes (capacity 5 dest),
    td.buf.drop (pageList dest (min bytes (capacity 5 dest))).length, ?_⟩
  rw [hfill]
  by_cases hle : bytes ≤ capacity 5 dest
  · simp only [if_pos hle]
    rw [sub32_add (by omega) hdest]
    exact ⟨rfl, hsize, hpos, by omega, by omega, .inl rfl⟩
  · -- out of pages: whole packets only
    have hpow : 2 ^ k ≤ 2 ^ 10 := Nat.pow_le_pow_right (by decide) hk
    have hlt := lt_alignDown_add (capacity 5 dest) (Nat.two_pow_pos k)
    have hdown := alignDown_le (capacity 5 dest) (2 ^ k)
    simp only [if_neg hle]
    rw [sub32_add (by omega) hdest, alignDown32_eq (by omega) (by omega)]
    exact ⟨rfl, hsize, by omega, by omega, by omega, .inr ⟨by omega, dvd_alignDown _ _⟩⟩

-- ---------------------------------------------------------------------------
-- The transfer
-- ---------------------------------------------------------------------------

/-- What is asked of a queued descriptor. -/
structure Queued.Right (q : Queued) : Prop where
  pos : 0 < q.transfer
  length : q.td.length = q.transfer
  pages : ∀ j, j ≤ (q.td.buf.getD 0 0 % 0x1000 + q.transfer - 1) / 0x1000 → j < q.td.buf.length ∧
    q.td.buf.getD j 0 / 0x1000 * 0x1000 = u32 (q.td.buf.getD 0 0 / 0x1000 * 0x1000 + 0x1000 * j)

/-- The bytes of the descriptors, as the controller finds them. -/
def bytesOf (qs : List Queued) : List Nat :=
  qs.flatMap fun q => (List.range q.td.length).map q.td.byteAddr

def bufferAddrs (data size : Nat) : List Nat := (List.range size).map fun k => u32 (data + k)

structure BulkRight (maxpacket data size : Nat) (run : BulkRun) : Prop where
  ret : run.ret = 0
  covers : bytesOf run.queued = bufferAddrs data size
  right : ∀ q ∈ run.queued, q.Right
  packets : ∀ q ∈ run.queued.dropLast, 0 < q.transfer ∧ maxpacket ∣ q.transfer

theorem bytesOf_cons (q : Queued) (qs : List Queued) :
    bytesOf (q :: qs) = bytesOf [q] ++ bytesOf qs := by
  rw [bytesOf, List.flatMap_cons, bytesOf, List.flatMap_singleton, bytesOf]

theorem eq_nil_of_bytesOf (h : ∀ q ∈ qs, Queued.Right q) (hnil : bytesOf qs = []) : qs = [] := by
  cases qs with
  | nil => rfl
  | cons q qs =>
    obtain ⟨hpos, hlength, -⟩ := h q List.mem_cons_self
    rw [bytesOf, List.flatMap_cons] at hnil
    have hlen := congrArg List.length (List.append_eq_nil_iff.mp hnil).1
    rw [List.length_map, List.length_range, hlength] at hlen
    exact absurd hlen (Nat.ne_of_gt hpos)

theorem bufferAddrs_add (data m n : Nat) :
    bufferAddrs data (m + n) = bufferAddrs data m ++ bufferAddrs (u32 (data + m)) n := by
  rw [bufferAddrs, List.range_add, List.map_append, List.map_map]
  refine congrArg _ (List.map_congr_left fun k _ => ?_)
  show u32 (data + (m + k)) = u32 (u32 (data + m) + k)
  unfold u32
  omega

/-- The token of a descriptor that has been queued, but for its length. -/
def bulkToken (dir : Bool) : BitVec 32 :=
  qtdStsActive ||| (if dir then qtdPidIn else qtdPidOut) ||| ehciMaxerr 3

theorem complete_token (n : Nat) (other : BitVec 32) :
    (ehciExplen n ||| other) &&& ~~~(qtdStsActive ||| qtdLengthMask) =
      other &&& ~~~(qtdStsActive ||| qtdLengthMask) := by
  apply BitVec.eq_of_getLsbD_eq
  intro i hi
  simp only [ehciExplen, BitVec.getLsbD_and, BitVec.getLsbD_or, BitVec.getLsbD_not, hi, decide_true,
    Bool.true_and]
  cases qtdLengthMask.getLsbD i <;> simp

theorem ehciWaitTd_complete (n : Nat) (dir : Bool) :
    ehciWaitTd (Qtd.complete ⟨next, alt, ehciExplen n ||| bulkToken dir, buf⟩) = some 0 := by
  have htoken : (Qtd.complete ⟨next, alt, ehciExplen n ||| bulkToken dir, buf⟩).token =
      bulkToken dir &&& ~~~(qtdStsActive ||| qtdLengthMask) := complete_token n (bulkToken dir)
  have hbits (b : Bool) : bulkToken b &&& ~~~(qtdStsActive ||| qtdLengthMask) &&& qtdStsActive = 0 ∧
      bulkToken b &&& ~~~(qtdStsActive ||| qtdLengthMask) &&& qtdStsHalt = 0 := by
    cases b <;> decide
  rw [ehciWaitTd, htoken, if_neg (not_not.mpr (hbits dir).1), if_neg (not_not.mpr (hbits dir).2)]

/-- The descriptors between two rounds: only the first one is used. -/
structure Ready (tds : List Qtd) (td : Qtd) : Prop where
  rest : tds = td :: List.replicate 3 clearedQtd
  buf : td.buf.length = 5
  idle : ehciWaitTd td = some 0

theorem Ready.waitAll (h : Ready tds td) : waitAll tds = some 0 := by
  have hcleared : ehciWaitTd clearedQtd = some 0 := by decide
  rw [h.rest]
  simp only [List.replicate, Ehci.waitAll, h.idle, hcleared]
  rfl

theorem Filled.right (h : Filled td td' maxpacket dest bytes transfer n rest)
    (hdest : dest < 2 ^ 32)
    (dir : Bool) :
    Queued.Right ⟨⟨1, ehciPtrTerm, ehciExplen transfer ||| bulkToken dir, td'.buf⟩, transfer⟩ ∧
      bytesOf [⟨⟨1, ehciPtrTerm, ehciExplen transfer ||| bulkToken dir, td'.buf⟩, transfer⟩] =
        bufferAddrs dest transfer := by
  have hcovered := h.covered
  have hpos := h.pos
  have hn := h.length
  have hother : bulkToken dir &&& qtdLengthMask = 0#32 := by
    cases dir <;> decide
  have hlength : Qtd.length ⟨1, ehciPtrTerm, ehciExplen transfer ||| bulkToken dir, td'.buf⟩ = transfer :=
    length_token (by omega) hother
  have hbuf : td'.buf = pageList dest n ++ rest := by rw [h.result]
  have hcount : pageCount dest n = (dest % 0x1000 + n - 1) / 0x1000 + 1 := if_neg (by omega)
  have hfirst : td'.buf.getD 0 0 = dest := by
    rw [hbuf, pageList_getD (by omega)]
    rfl
  refine ⟨⟨hpos, hlength, fun j hj => ?_⟩, ?_⟩
  · simp only [hfirst] at hj ⊢
    have hlt : j < pageCount dest n := by omega
    rw [hbuf, pageList_getD hlt, h.size]
    have hsize := h.size
    rw [List.length_append, pageList_length] at hsize
    refine ⟨by omega, ?_⟩
    unfold pagePtr u32
    split <;> omega
  · rw [bytesOf, List.flatMap_singleton]
    simp only [hlength]
    refine List.map_congr_left fun k hk => ?_
    exact byteAddr_eq hdest (Nat.lt_of_lt_of_le (List.mem_range.mp hk) hcovered) hbuf

theorem bulkLoop_right (hk : k ≤ 10) (dir : Bool) (h : Ready tds td) (hdata : data < 2 ^ 32)
    (fuel : Nat) (hfuel : size < fuel) :
    ∃ run, bulkLoop (2 ^ k) dir fuel tds data size = some run ∧
      BulkRight (2 ^ k) data size run := by
  induction fuel generalizing tds td data size with
  | zero => cases hfuel
  | succ fuel ih =>
    rw [bulkLoop]
    by_cases hzero : size = 0
    · subst hzero
      rw [if_pos rfl, h.waitAll]
      exact ⟨⟨0, []⟩, rfl, rfl, rfl, fun q hq => absurd hq List.not_mem_nil,
        fun q hq => absurd hq List.not_mem_nil⟩
    · obtain ⟨n, rest, hfilled⟩ :=
        fillTDbuffer_filled h.buf hk hdata (Nat.pos_of_ne_zero hzero)
      obtain ⟨hright, hbytes⟩ := hfilled.right hdata dir
      have hhead : tds.getD 0 clearedQtd = td := by rw [h.rest]; rfl
      have htoken (x : BitVec 32) : x ||| qtdStsActive ||| (if dir then qtdPidIn else qtdPidOut) |||
          ehciMaxerr 3 = x ||| bulkToken dir := by
        rw [bulkToken, BitVec.or_assoc, BitVec.or_assoc, BitVec.or_assoc]
      rw [if_neg hzero]
      simp only [hhead, htoken, ehciWaitTd_complete]
      generalize fillTDbuffer td (2 ^ k) data size = filled at hfilled hright hbytes ⊢
      obtain ⟨td', transfer⟩ := filled
      dsimp only at hfilled hright hbytes ⊢
      have hpos := hfilled.pos
      have hready : Ready (tds.set 0 (Qtd.complete
          ⟨1, ehciPtrTerm, ehciExplen transfer ||| bulkToken dir, td'.buf⟩))
          (Qtd.complete ⟨1, ehciPtrTerm, ehciExplen transfer ||| bulkToken dir, td'.buf⟩) :=
        ⟨by rw [h.rest]; rfl, by rw [← hfilled.size, hfilled.result]; rfl, ehciWaitTd_complete _ _⟩
      have hle : transfer ≤ size := by
        obtain heq | ⟨hlt, -⟩ := hfilled.packets
        · exact Nat.le_of_eq heq
        · exact Nat.le_of_lt hlt
      obtain ⟨run, hrun, hrest⟩ := ih hready (Nat.mod_lt (data + transfer) (by decide))
        (Nat.lt_of_lt_of_le (Nat.sub_lt (Nat.pos_of_ne_zero hzero) hpos) (Nat.le_of_lt_succ hfuel))
      refine ⟨{ run with queued := ⟨_, transfer⟩ :: run.queued }, ?_, hrest.ret, ?_,
        List.forall_mem_cons.mpr ⟨hright, hrest.right⟩, ?_⟩
      · rw [if_neg (by decide)]
        exact congrArg (Option.map _) hrun
      · rw [bytesOf_cons, hbytes, hrest.covers]
        exact (bufferAddrs_add data transfer (size - transfer)).symm.trans
          (congrArg _ (Nat.add_sub_cancel' hle))
      · cases hqueued : run.queued with
        | nil => exact fun q hq => absurd hq List.not_mem_nil
        | cons q qs =>
          rw [List.dropLast_cons_of_ne_nil (List.cons_ne_nil q qs)]
          refine List.forall_mem_cons.mpr ⟨⟨hpos, ?_⟩, hqueued ▸ hrest.packets⟩
          obtain heq | ⟨-, hdvd⟩ := hfilled.packets
          · -- it was all the bytes, so nothing is behind it
            have hcovers := hrest.covers
            rw [heq, Nat.sub_self] at hcovers
            rw [eq_nil_of_bytesOf hrest.right hcovers] at hqueued
            cases hqueued
          · exact hdvd

/-- A bulk transfer of any size from any address ends, and its descriptors move the buffer. -/
theorem ehciSendBulk_right (dir : Bool) (hdata : data < 2 ^ 32) (hmax : maxpacket ≤ 1024)
    (hpow : ∃ k, maxpacket = 2 ^ k) (fuel : Nat) (hfuel : size < fuel) :
    ∃ run, ehciSendBulk fuel maxpacket dir data size = some run ∧
      BulkRight maxpacket data size run := by
  obtain ⟨k, rfl⟩ := hpow
  have hk : k ≤ 10 := (Nat.pow_le_pow_iff_right (by decide)).mp hmax
  have hready : Ready clearedQtds clearedQtd := ⟨rfl, rfl, by decide⟩
  exact bulkLoop_right hk dir hready hdata fuel hfuel

theorem ehciSendBulk_right_twoPages :
    ∃ run, ehciSendBulk 0x6000 512 true 0x10234 0x5fff = some run ∧
      BulkRight 512 0x10234 0x5fff run :=
  ehciSendBulk_right true (by decide) (by decide) ⟨9, by decide⟩ 0x6000 (by decide)

end ItxLlama.Seabios.Ehci
