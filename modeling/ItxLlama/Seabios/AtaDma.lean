import ItxLlama.Seabios.DiskTransfer
import Mathlib.Data.Nat.Bitwise

/-!
# The descriptor table of an ATA transfer

`ata_try_dma` of `hw/ata.c` with the words it stores, and what the bus master
reads in them: 16 bits of byte count, where 0 is 64 KiB, and a flag for the
end of the table.
-/

namespace ItxLlama.Seabios

open Lib.Word

/-- `struct sff_dma_prd`, as it lies in memory. -/
structure PrdEntry where
  bufFl : Nat
  count : Nat
  deriving DecidableEq, Repr

/-- The entries stored for `bytes` bytes from `dest`, where `room` more fit,
and whether the loop came to its end. -/
def prdLoop (dest bytes : Nat) : (room : Nat) → List PrdEntry × Bool
  | 0 => ([], bytes = 0)
  | room + 1 =>
    if bytes = 0 then ([], true)
    else
      let max := 0x10000 - dest % 0x10000
      let count := if bytes > max then max else bytes
      let bytes := bytes - count
      -- last descriptor
      let count := if bytes = 0 then count ||| 1 <<< 31 else count
      let rest := prdLoop (u32 (dest + count)) bytes room
      (⟨dest, count⟩ :: rest.1, rest.2)

/-- The return value, what lies in the table, and the writes to the bus
master's registers. -/
structure DmaSetup where
  ret : Int
  table : List PrdEntry := []
  outs : List (Nat × Nat) := []
  deriving DecidableEq, Repr

def bmCmd : Nat := 0
def bmCmdMemwrite : Nat := 0x08
def bmStatus : Nat := 2
def bmTable : Nat := 4

/-- `oldcmd` is what the command register reads, `origdma` where the table is. -/
def ataTryDmaSetup (op : DiskOp) (iswrite : Bool) (blocksize iomaster oldcmd origdma : Nat) :
    DmaSetup :=
  let dest := op.buf
  if dest % 2 = 1 then { ret := -1 }
  else if iomaster = 0 then { ret := -1 }
  else
    let bytes := u32 (op.count * blocksize)
    if bytes = 0 then { ret := -1 }
    else
      let stored := prdLoop dest bytes 16
      -- too many descriptors
      if stored.2 = false then { ret := -1, table := stored.1 }
      else
        { ret := 0
          table := stored.1
          outs :=
            [(iomaster + bmTable, origdma),
              (iomaster + bmCmd, (oldcmd &&& 0xf6) ||| (if iswrite then 0x00 else bmCmdMemwrite)),
              (iomaster + bmStatus, bmStatusError ||| bmStatusIrq)] }

-- ---------------------------------------------------------------------------
-- The bus master's side
-- ---------------------------------------------------------------------------

def PrdEntry.bytes (e : PrdEntry) : Nat :=
  let n := e.count % 2 ^ 16
  if n = 0 then 2 ^ 16 else n

def PrdEntry.last (e : PrdEntry) : Bool := e.count.testBit 31

/-- The count word with only what the bus master reads of it; 65536 bytes leave the low half 0. -/
def PrdEntry.stored (e : PrdEntry) : Nat := e.bytes + if e.last then 2 ^ 31 else 0

/-- A table that stands for `bytes` bytes from `dest`. -/
inductive PrdRun : Nat → Nat → List PrdEntry → Prop
  | nil : PrdRun dest 0 []
  | cons {e : PrdEntry} : e.bufFl = dest → e.bytes ≤ bytes → dest % 2 ^ 16 + e.bytes ≤ 2 ^ 16 →
      e.last = decide (e.bytes = bytes) → e.count = e.stored →
      PrdRun (dest + e.bytes) (bytes - e.bytes) es → PrdRun dest bytes (e :: es)

structure PrdTable (buf bytes : Nat) (table : List PrdEntry) : Prop where
  size : table.length ≤ 16
  covers : table.flatMap (fun e => List.range' e.bufFl e.bytes) = List.range' buf bytes
  encoded : ∀ e ∈ table, 1 ≤ e.bytes ∧ e.bytes ≤ 2 ^ 16 ∧ e.count = e.stored
  inside : ∀ e ∈ table, e.bufFl / 2 ^ 16 = (e.bufFl + e.bytes - 1) / 2 ^ 16
  last : ∃ init e, table = init ++ [e] ∧ e.last = true ∧ ∀ x ∈ init, x.last = false

theorem PrdEntry.bytes_spec (e : PrdEntry) : 1 ≤ e.bytes ∧ e.bytes ≤ 2 ^ 16 := by
  simp only [PrdEntry.bytes]
  split <;> omega

theorem count_last (h : count ≤ 2 ^ 16) : count ||| 1 <<< 31 = 2 ^ 31 + count := by
  have hor := Nat.two_pow_add_eq_or_of_lt (i := 31) (Nat.lt_of_le_of_lt h (by decide)) 1
  rw [Nat.mul_one, Nat.or_comm] at hor
  exact hor.symm

theorem PrdEntry.bytes_plain (hpos : 0 < n) (h : n ≤ 2 ^ 16) : PrdEntry.bytes ⟨dest, n⟩ = n := by
  simp only [PrdEntry.bytes]
  split <;> omega

theorem PrdEntry.bytes_last (hpos : 0 < n) (h : n ≤ 2 ^ 16) :
    PrdEntry.bytes ⟨dest, 2 ^ 31 + n⟩ = n := by
  simp only [PrdEntry.bytes]
  split <;> omega

theorem PrdEntry.last_plain (h : n ≤ 2 ^ 16) : PrdEntry.last ⟨dest, n⟩ = false :=
  Nat.testBit_lt_two_pow (Nat.lt_of_le_of_lt h (by decide))

theorem PrdEntry.last_last (h : n ≤ 2 ^ 16) : PrdEntry.last ⟨dest, 2 ^ 31 + n⟩ = true := by
  have hlow : n.testBit 31 = false := Nat.testBit_lt_two_pow (Nat.lt_of_le_of_lt h (by decide))
  rw [PrdEntry.last, Nat.testBit_two_pow_add_eq, hlow]
  rfl

-- ---------------------------------------------------------------------------
-- The loop
-- ---------------------------------------------------------------------------

theorem prdLoop_length (dest bytes room : Nat) : (prdLoop dest bytes room).1.length ≤ room := by
  induction room generalizing dest bytes with
  | zero => exact Nat.le_refl 0
  | succ room ih =>
    simp only [prdLoop]
    split
    · exact Nat.zero_le _
    · exact Nat.succ_le_succ (ih _ _)

theorem prdLoop_zero (dest room : Nat) : prdLoop dest 0 room = ([], true) := by
  cases room <;> rfl

theorem chunk_eq (dest bytes : Nat) :
    (if bytes > 0x10000 - dest % 0x10000 then 0x10000 - dest % 0x10000 else bytes) =
      min bytes (2 ^ 16 - dest % 2 ^ 16) := by
  split <;> omega

theorem prdLoop_succ (hpos : 0 < bytes) (hfit : dest + bytes < 2 ^ 32) (room : Nat) :
    ∃ e : PrdEntry, e.bufFl = dest ∧ e.bytes = min bytes (2 ^ 16 - dest % 2 ^ 16) ∧
      e.last = decide (e.bytes = bytes) ∧ e.count = e.stored ∧
      prdLoop dest bytes (room + 1) =
        (e :: (prdLoop (dest + e.bytes) (bytes - e.bytes) room).1,
          (prdLoop (dest + e.bytes) (bytes - e.bytes) room).2) := by
  simp only [prdLoop, if_neg (Nat.ne_of_gt hpos), chunk_eq]
  generalize hn : min bytes (2 ^ 16 - dest % 2 ^ 16) = n
  have hn0 : 0 < n := by omega
  have hn16 : n ≤ 2 ^ 16 := by omega
  by_cases hlast : bytes - n = 0
  · refine ⟨⟨dest, 2 ^ 31 + n⟩, rfl, PrdEntry.bytes_last hn0 hn16, ?_, ?_, ?_⟩
    · rw [PrdEntry.last_last hn16, PrdEntry.bytes_last hn0 hn16]
      exact (decide_eq_true (by omega)).symm
    · rw [PrdEntry.stored, PrdEntry.last_last hn16, PrdEntry.bytes_last hn0 hn16, if_pos rfl,
        Nat.add_comm]
    · rw [PrdEntry.bytes_last hn0 hn16, if_pos hlast, count_last hn16, hlast, prdLoop_zero,
        prdLoop_zero]
  · refine ⟨⟨dest, n⟩, rfl, PrdEntry.bytes_plain hn0 hn16, ?_, ?_, ?_⟩
    · rw [PrdEntry.last_plain hn16, PrdEntry.bytes_plain hn0 hn16]
      exact (decide_eq_false (by omega)).symm
    · rw [PrdEntry.stored, PrdEntry.last_plain hn16, PrdEntry.bytes_plain hn0 hn16]
      rfl
    · rw [PrdEntry.bytes_plain hn0 hn16, if_neg hlast, u32, Nat.mod_eq_of_lt (by omega)]

theorem prdLoop_run (hfit : dest + bytes < 2 ^ 32) (hok : (prdLoop dest bytes room).2 = true) :
    PrdRun dest bytes (prdLoop dest bytes room).1 := by
  induction room generalizing dest bytes with
  | zero =>
    obtain rfl : bytes = 0 := of_decide_eq_true hok
    exact .nil
  | succ room ih =>
    rcases Nat.eq_zero_or_pos bytes with rfl | hpos
    · rw [prdLoop_zero]
      exact .nil
    · obtain ⟨e, hbuf, hbytes, hlast, hcount, hloop⟩ := prdLoop_succ hpos hfit room
      rw [hloop] at hok ⊢
      exact .cons hbuf (by omega) (by omega) hlast hcount (ih (by omega) hok)

/-- The loop comes to its end unless the buffer reaches over too many 64 KiB
boundaries. -/
theorem prdLoop_fits (hfit : dest + bytes < 2 ^ 32) : (prdLoop dest bytes room).2 = true ↔
    bytes = 0 ∨ dest % 2 ^ 16 + bytes ≤ room * 2 ^ 16 := by
  induction room generalizing dest bytes with
  | zero =>
    simp only [prdLoop, decide_eq_true_eq]
    omega
  | succ room ih =>
    rcases Nat.eq_zero_or_pos bytes with rfl | hpos
    · simp [prdLoop_zero]
    · obtain ⟨e, -, hbytes, -, -, hloop⟩ := prdLoop_succ hpos hfit room
      rw [hloop, ih (by omega)]
      omega

theorem PrdRun.covers (h : PrdRun dest bytes es) :
    es.flatMap (fun e => List.range' e.bufFl e.bytes) = List.range' dest bytes := by
  induction h with
  | nil => rfl
  | @cons dest bytes es e hbuf hle _ _ _ _ ih =>
    rw [List.flatMap_cons, ih, hbuf, List.range'_append_1, Nat.add_sub_cancel' hle]

theorem PrdRun.inside (h : PrdRun dest bytes es) :
    ∀ e ∈ es, e.bufFl / 2 ^ 16 = (e.bufFl + e.bytes - 1) / 2 ^ 16 := by
  induction h with
  | nil => simp
  | @cons dest bytes es e hbuf _ hin _ _ _ ih =>
    refine List.forall_mem_cons.mpr ⟨?_, ih⟩
    have := e.bytes_spec.1
    rw [hbuf]
    omega

theorem PrdRun.encoded (h : PrdRun dest bytes es) :
    ∀ e ∈ es, 1 ≤ e.bytes ∧ e.bytes ≤ 2 ^ 16 ∧ e.count = e.stored := by
  induction h with
  | nil => simp
  | @cons dest bytes es e _ _ _ _ hcount _ ih =>
    exact List.forall_mem_cons.mpr ⟨⟨e.bytes_spec.1, e.bytes_spec.2, hcount⟩, ih⟩

theorem PrdRun.last (h : PrdRun dest bytes es) (hpos : 0 < bytes) :
    ∃ init e, es = init ++ [e] ∧ e.last = true ∧ ∀ x ∈ init, x.last = false := by
  induction h with
  | nil => exact absurd hpos (Nat.lt_irrefl 0)
  | @cons dest bytes es e hbuf hle hin hlast _ hrest ih =>
    by_cases hall : e.bytes = bytes
    · rw [hall, Nat.sub_self] at hrest
      cases hrest with
      | nil => exact ⟨[], e, rfl, hlast.trans (decide_eq_true hall), by simp⟩
      | cons _ hle =>
        rename_i e' _ _ _ _ _
        have := e'.bytes_spec.1
        omega
    · obtain ⟨init, l, rfl, hl, hinit⟩ := ih (by omega)
      exact ⟨e :: init, l, rfl, hl,
        List.forall_mem_cons.mpr ⟨hlast.trans (decide_eq_false hall), hinit⟩⟩

theorem PrdRun.table (h : PrdRun dest bytes es) (hpos : 0 < bytes) (hsize : es.length ≤ 16) :
    PrdTable dest bytes es :=
  ⟨hsize, h.covers, h.encoded, h.inside, h.last hpos⟩

-- ---------------------------------------------------------------------------
-- The setup
-- ---------------------------------------------------------------------------

/-- The bus master is programmed with a table for the whole buffer, just where the buffer is even
and its pieces are no more than the table holds, or left alone. -/
theorem ataTryDmaSetup_table (h : op.buf + op.count * blocksize < 2 ^ 32) (iswrite : Bool)
    (iomaster oldcmd origdma : Nat) :
    let r := ataTryDmaSetup op iswrite blocksize iomaster oldcmd origdma
    if op.buf % 2 = 0 ∧ iomaster ≠ 0 ∧ 0 < op.count * blocksize ∧
        op.buf % 2 ^ 16 + op.count * blocksize ≤ 2 ^ 20
    then r.ret = 0 ∧ PrdTable op.buf (op.count * blocksize) r.table
    else r.ret = -1 ∧ r.outs = [] := by
  have hbytes : u32 (op.count * blocksize) = op.count * blocksize := Nat.mod_eq_of_lt (by omega)
  have hfits : (prdLoop op.buf (op.count * blocksize) 16).2 = true ↔ _ := prdLoop_fits h
  simp only [ataTryDmaSetup, hbytes]
  by_cases hodd : op.buf % 2 = 1
  · rw [if_pos hodd, if_neg (by omega)]
    exact ⟨rfl, rfl⟩
  by_cases hmaster : iomaster = 0
  · rw [if_neg hodd, if_pos hmaster, if_neg (fun hr => hr.2.1 hmaster)]
    exact ⟨rfl, rfl⟩
  by_cases hpos : op.count * blocksize = 0
  · rw [if_neg hodd, if_neg hmaster, if_pos hpos, if_neg (by omega)]
    exact ⟨rfl, rfl⟩
  rw [if_neg hodd, if_neg hmaster, if_neg hpos]
  cases hok : (prdLoop op.buf (op.count * blocksize) 16).2 with
  | false =>
    rw [hok] at hfits
    rw [if_pos rfl, if_neg fun hr => Bool.false_ne_true (hfits.mpr (.inr hr.2.2.2))]
    exact ⟨rfl, rfl⟩
  | true =>
    have hroom := (hfits.mp hok).resolve_left hpos
    have hrun := prdLoop_run h hok
    rw [if_neg (fun h => Bool.noConfusion h),
      if_pos ⟨by omega, hmaster, Nat.pos_of_ne_zero hpos, by omega⟩]
    exact ⟨rfl, hrun.table (Nat.pos_of_ne_zero hpos) (prdLoop_length _ _ 16)⟩

def boundariesOp : DiskOp := { lba := 0, buf := 0xfe00, count := 130, command := cmdRead }

theorem ataTryDmaSetup_table_boundaries :
    let r := ataTryDmaSetup boundariesOp false 512 0xc000 0 0x7000
    r.table = [⟨0xfe00, 0x200⟩, ⟨0x10000, 0x10000⟩, ⟨0x20000, 0x80000200⟩] ∧
      r.ret = 0 ∧ PrdTable boundariesOp.buf (boundariesOp.count * 512) r.table := by
  have hbelow : boundariesOp.buf + boundariesOp.count * 512 < 2 ^ 32 := by decide
  have htable := ataTryDmaSetup_table hbelow false 0xc000 0 0x7000
  simp only at htable
  rw [if_pos (by decide)] at htable
  exact ⟨by decide +kernel, htable⟩

/-- The descriptor that the bus master reads. -/
def PrdEntry.decode (e : PrdEntry) : SffDmaPrd := ⟨e.bufFl, e.bytes, e.last⟩

theorem buildPrd_eq (dest bytes room : Nat) : buildPrd dest bytes room =
    if (prdLoop dest bytes room).2 then some ((prdLoop dest bytes room).1.map PrdEntry.decode)
    else none := by
  induction room generalizing dest bytes with
  | zero => by_cases h : bytes = 0 <;> simp [buildPrd, prdLoop, h]
  | succ room ih =>
    by_cases h : bytes = 0
    · simp [buildPrd, prdLoop, h]
    · simp only [buildPrd, prdLoop, if_neg h, chunk_eq, ih]
      generalize hn : min bytes (2 ^ 16 - dest % 2 ^ 16) = n
      have hn0 : 0 < n := by omega
      have hn16 : n ≤ 2 ^ 16 := by omega
      by_cases hlast : bytes - n = 0
      · simp only [hlast, if_true, prdLoop_zero, count_last hn16, List.map_cons, List.map_nil,
          PrdEntry.decode, PrdEntry.bytes_last hn0 hn16, PrdEntry.last_last hn16]
        rfl
      · simp only [hlast, if_false, List.map_cons, PrdEntry.decode,
          PrdEntry.bytes_plain hn0 hn16, PrdEntry.last_plain hn16]
        split <;> rfl

theorem ataTryDma_eq (hcount : op.count < 2 ^ 16) (iswrite : Bool) (iomaster oldcmd origdma : Nat) :
    let r := ataTryDmaSetup op iswrite diskSectorSize iomaster oldcmd origdma
    ataTryDma op iomaster = if r.ret = 0 then some (r.table.map PrdEntry.decode) else none := by
  have hbytes : u32 (op.count * diskSectorSize) = op.count * diskSectorSize :=
    Nat.mod_eq_of_lt (by rw [diskSectorSize]; omega)
  simp only [ataTryDma, ataTryDmaSetup, hbytes, buildPrd_eq]
  split
  · simp
  split
  · simp
  split
  · simp
  split <;> simp_all

end ItxLlama.Seabios
