import ItxLlama.Lib.FirstFit
import ItxLlama.Libpayload.Malloc

/-!
# The blocks of libpayload's heap

The headers from `hstart` on spell out a list of blocks, and on such a list
`alloc` is first fit and `free` a release that joins neighbours.
-/

namespace ItxLlama.Libpayload

open Lib.Bytes
open Lib.FirstFit
open Lib.Signed
open Lib.Stores
open Lib.Word

-- ---------------------------------------------------------------------------
-- Headers
-- ---------------------------------------------------------------------------

section Headers

variable {s t k i : Nat} {b : Block}

/-- A mask of high bits sees nothing of the bits below. -/
theorem and_high (hs : s < 2 ^ i) : (t <<< i ||| s) &&& (k <<< i) = (t &&& k) <<< i := by
  have hzero : s &&& k <<< i = 0 := by
    apply Nat.eq_of_testBit_eq
    intro j
    rw [Nat.testBit_and, Nat.testBit_shiftLeft, Nat.zero_testBit]
    by_cases hj : i ≤ j
    · have hlt : s < 2 ^ j := Nat.lt_of_lt_of_le hs (Nat.pow_le_pow_right Nat.two_pos hj)
      rw [Nat.testBit_lt_two_pow hlt, Bool.false_and]
    · simp [hj]
  rw [Nat.and_or_distrib_right, hzero, Nat.or_zero, Nat.shiftLeft_and_distrib]

def header (b : Block) : Nat := if b.free then freeBlock b.size else usedBlock b.size

theorem header_eq (hb : b.size < 2 ^ 31) :
    header b = (if b.free then 0x55 else 0x54) <<< sizeBits ||| b.size := by
  have hsize : uint64 b.size &&& maxSize = b.size := by
    rw [uint64_eq (by omega)]
    exact (Nat.and_two_pow_sub_one_eq_mod _ 57).trans (Nat.mod_eq_of_lt (by omega))
  unfold header
  split
  · rw [freeBlock, mkHeader, hsize]
    rfl
  · rw [usedBlock, mkHeader, hsize]
    rfl

theorem sizeOf_header (hb : b.size < 2 ^ 31) : sizeOf (header b) = b.size := by
  have hlt : b.size < 2 ^ sizeBits := Nat.lt_of_lt_of_le hb (by decide)
  rw [header_eq hb, sizeOf, ← Nat.shiftLeft_add_eq_or_of_lt hlt]
  refine (Nat.and_two_pow_sub_one_eq_mod _ sizeBits).trans ?_
  rw [Nat.shiftLeft_eq, Nat.mul_add_mod', Nat.mod_eq_of_lt hlt]

theorem and_header (hb : b.size < 2 ^ 31) (k : Nat) :
    header b &&& k <<< sizeBits = ((if b.free then 0x55 else 0x54) &&& k) <<< sizeBits := by
  rw [header_eq hb, and_high (Nat.lt_of_lt_of_le hb (by decide))]

theorem hasMagic_header (hb : b.size < 2 ^ 31) : hasMagic (header b) = true := by
  unfold hasMagic
  rw [show magic = 0x54 <<< sizeBits from rfl, and_header hb]
  cases b.free <;> rfl

theorem hasFlag_header (hb : b.size < 2 ^ 31) : hasFlag (header b) = b.free := by
  unfold hasFlag
  rw [show flagFree = 1 <<< sizeBits from rfl, and_header hb]
  cases b.free <;> rfl

theorem isFree_header (hb : b.size < 2 ^ 31) : isFree (header b) = b.free := by
  unfold isFree
  rw [show magic ||| flagFree = 0x55 <<< sizeBits from rfl, and_header hb]
  cases b.free <;> rfl

theorem header_lt (hb : b.size < 2 ^ 31) : header b < 2 ^ 64 := by
  rw [header_eq hb]
  refine Nat.or_lt_two_pow ?_ (by omega)
  cases b.free <;> decide

end Headers

-- ---------------------------------------------------------------------------
-- The list in memory
-- ---------------------------------------------------------------------------

section Lists

variable {m m' : Mem} {bs rest : List Block} {b : Block} {hend ptr len fuel a x v : Nat}

/-- The header of each block is in memory. -/
def Headers (m : Mem) (bs : List Block) : Prop := ∀ b ∈ bs, le64 m b.addr = header b

theorem le64_setHdr (hv : v < 2 ^ 64) : le64 (setHdr m a v) a = v :=
  (run_le64 m a v).trans (Nat.mod_eq_of_lt hv)

theorem setHdr_other (h : x < a ∨ a + hdrSize ≤ x) : setHdr m a v x = m x := Store.run_other h

theorem Headers.frame (hm : Headers m bs)
    (h : ∀ b ∈ bs, ∀ x, b.addr ≤ x → x < b.addr + hdrSize → m' x = m x) : Headers m' bs := by
  intro b hb
  rw [← hm b hb]
  refine le64_congr fun i hi => h b hb _ (by omega) ?_
  simp only [hdrSize]
  omega

/-- The headers written where a block is taken. -/
def take (m : Mem) (len : Nat) (b : Block) : Mem :=
  if hdrSize + len < b.size then
    setHdr (setHdr m b.addr (usedBlock len)) (b.addr + (hdrSize + len))
      (freeBlock (b.size - (hdrSize + len) : Nat))
  else setHdr m b.addr (usedBlock b.size)

/-- `alloc` looks at one block after the other and takes the first that fits. -/
theorem allocLoop_eq (hcut : Cut hdrSize ptr bs hend) (hne : bs ≠ []) (hpos : ∀ b ∈ bs, 0 < b.size)
    (hm : Headers m bs) (hsize : hend - ptr < 2 ^ 31) (hend_lt : hend < 2 ^ 32)
    (hlen : len < 2 ^ 31) (hfuel : bs.length ≤ fuel) :
    allocLoop hend len fuel m ptr = some ((firstFit hdrSize len bs).elim (m, none)
      fun r => (take m len r.1, some (r.1.addr + hdrSize))) := by
  induction bs generalizing ptr fuel with
  | nil => exact absurd rfl hne
  | cons b bs ih =>
    obtain ⟨rfl, -, hrest⟩ := hcut
    have hle := Lib.Tiling.Tiles.le hrest
    have h8 : hdrSize = 8 := rfl
    have hfin : b.fin hdrSize = b.addr + 8 + b.size := rfl
    have hb : b.size < 2 ^ 31 := by omega
    obtain ⟨hbpos, hpos⟩ := List.forall_mem_cons.mp hpos
    obtain ⟨hbm, hm⟩ := List.forall_mem_cons.mp hm
    have hint : int32 b.size = b.size := int32_eq (by omega) (by omega)
    match fuel, hfuel with
    | fuel + 1, hfuel =>
      simp only [allocLoop, hbm, hasMagic_header hb, sizeOf_header hb, hasFlag_header hb, hint,
        not_true_eq_false, false_or]
      clear hbm
      rw [if_neg (by omega)]
      unfold firstFit
      by_cases hfit : b.free = true ∧ len ≤ b.size
      · rw [if_pos ⟨hfit.1, by omega⟩, if_pos hfit, int32_eq (by omega) (by omega),
          u32_eq (by omega)]
        simp only [Option.elim_some, take]
        by_cases hroom : hdrSize + len < b.size
        · rw [if_pos (by omega), if_pos hroom,
            show ((b.addr : Int) + (hdrSize + len)) = (b.addr + (hdrSize + len) : Nat) by omega,
            uint32_eq (by omega),
            show ((b.size : Int) - (hdrSize + len)) = (b.size - (hdrSize + len) : Nat) by omega]
        · rw [if_neg (by omega), if_neg hroom]
      · rw [if_neg fun h => hfit ⟨h.1, by omega⟩, if_neg hfit,
          show ((b.addr : Int) + hdrSize + b.size) = (b.fin hdrSize : Nat) by omega,
          uint32_eq (by omega)]
        cases bs with
        | nil =>
          rw [if_neg (Nat.not_lt.mpr (Nat.le_of_eq (Eq.symm hrest)))]
          rfl
        | cons c bs =>
          have hc : c.addr = b.fin hdrSize := hrest.1
          have hcle := Lib.Tiling.Tiles.le hrest.2.2
          have hcfin : c.fin hdrSize = c.addr + 8 + c.size := rfl
          rw [if_pos (by omega), ih hrest (by simp) hpos hm (by omega) (by simpa using hfuel)]
          cases firstFit hdrSize len (c :: bs) <;> rfl

/-- The header of a free block covers `x`. -/
def FreeHeader (bs : List Block) (x : Nat) : Prop :=
  ∃ b ∈ bs, b.free = true ∧ b.addr ≤ x ∧ x < b.addr + hdrSize

theorem freeHeader_ge (hcut : Cut hdrSize ptr bs hend) (h : FreeHeader bs x) : ptr ≤ x := by
  obtain ⟨b, hb, -, hlo, -⟩ := h
  exact (Lib.Tiling.Tiles.bounds hcut hb).1.trans hlo

theorem FreeHeader.cons (h : FreeHeader bs x) : FreeHeader (b :: bs) x := by
  obtain ⟨c, hc, hin⟩ := h
  exact ⟨c, List.mem_cons_of_mem _ hc, hin⟩

/-- What the inner loop leaves: the joined block `c'`, and the blocks after it. -/
structure Absorbed (hend : Nat) (c : Block) (bs : List Block) (m : Mem) (m' : Mem) (c' : Block)
    (rest : List Block) : Prop where
  addr : c'.addr = c.addr
  joined : coalesce hdrSize (some c) bs = c' :: coalesce hdrSize none rest
  shorter : rest.length ≤ bs.length
  cut : Cut hdrSize (c'.fin hdrSize) rest hend
  pos : ∀ b ∈ rest, 0 < b.size
  headers : Headers m' rest
  free : c'.free = c.free
  from_ : ∀ x, FreeHeader rest x → FreeHeader bs x
  frame : ∀ x, ¬FreeHeader bs x → m' x = m x

theorem absorb_eq {c : Block} (hcut : Cut hdrSize (c.fin hdrSize) bs hend)
    (hpos : ∀ b ∈ bs, 0 < b.size) (hm : Headers m bs) (hsize : hend - c.addr < 2 ^ 31)
    (hend_lt : hend < 2 ^ 32) (hfuel : bs.length < fuel) :
    ∃ m' c' rest, absorb hend fuel m (c.fin hdrSize) c.size = some (m', c'.fin hdrSize, c'.size) ∧
      Absorbed hend c bs m m' c' rest := by
  induction bs generalizing c m fuel with
  | nil =>
    match fuel, hfuel with
    | fuel + 1, _ =>
      refine ⟨m, c, [], if_neg (Nat.not_lt.mpr (Nat.le_of_eq (Eq.symm hcut))), ?_⟩
      exact ⟨rfl, rfl, Nat.le_refl _, hcut, hpos, hm, rfl, fun _ h => h, fun _ _ => rfl⟩
  | cons b bs ih =>
    obtain ⟨hb, -, hrest⟩ := hcut
    have hle := Lib.Tiling.Tiles.le hrest
    have h8 : hdrSize = 8 := rfl
    have hfin : b.fin hdrSize = b.addr + 8 + b.size := rfl
    have hcfin : c.fin hdrSize = c.addr + 8 + c.size := rfl
    have hbs : b.size < 2 ^ 31 := by omega
    obtain ⟨hbpos, hpos'⟩ := List.forall_mem_cons.mp hpos
    obtain ⟨hbm, hm'⟩ := List.forall_mem_cons.mp hm
    match fuel, hfuel with
    | fuel + 1, hfuel =>
      simp only [absorb, ← hb, hbm, isFree_header hbs, sizeOf_header hbs]
      clear hbm
      rw [if_pos (by omega)]
      cases hfree : b.free with
      | false =>
        refine ⟨m, c, b :: bs, by simp [hb], ?_⟩
        refine ⟨rfl, ?_, Nat.le_refl _, ⟨hb, by omega, hrest⟩, hpos, hm, rfl, fun _ h => h,
          fun _ _ => rfl⟩
        simp [coalesce, hfree]
      | true =>
        rw [if_neg (by simp)]
        let j : Block := { c with size := c.size + hdrSize + b.size }
        have hj : j.fin hdrSize = b.fin hdrSize := by
          simp only [j, Block.fin] at hb ⊢
          omega
        have hm0 : Headers (setHdr m b.addr 0) bs := Headers.frame hm' fun d hd x hlo _ => by
          have := (Lib.Tiling.Tiles.bounds hrest hd).1
          exact setHdr_other (.inr (by omega))
        obtain ⟨m', c', rest, heq, habs⟩ := @ih (setHdr m b.addr 0) fuel j (hj ▸ hrest) hpos' hm0
          hsize (by simpa using hfuel)
        refine ⟨m', c', rest, ?_, ?_⟩
        · have hjsize : c.size + (b.size + hdrSize) = j.size := by
            simp only [j]
            omega
          rw [u32_eq (by omega), u32_eq (by omega), hjsize,
            show b.addr + (hdrSize + b.size) = j.fin hdrSize by omega]
          exact heq
        · refine { habs with joined := ?_, shorter := ?_, from_ := ?_, frame := ?_ }
          · rw [← habs.joined]
            simp [coalesce, hfree, j]
          · have := habs.shorter
            simp only [List.length_cons]
            omega
          · intro x hx
            exact (habs.from_ x hx).cons
          · intro x hx
            rw [habs.frame x fun h => hx h.cons]
            refine setHdr_other ?_
            by_contra hin
            exact hx ⟨b, List.mem_cons_self, hfree, by omega, by omega⟩

/-- `_consolidate` joins free neighbours and touches nothing but headers of free
blocks. -/
theorem consolidateLoop_eq (hcut : Cut hdrSize ptr bs hend) (hpos : ∀ b ∈ bs, 0 < b.size)
    (hm : Headers m bs) (hsize : hend - ptr < 2 ^ 31) (hend_lt : hend < 2 ^ 32)
    (hfuel : bs.length < fuel) : ∃ m', consolidateLoop hend fuel m ptr = some m' ∧
      Headers m' (coalesce hdrSize none bs) ∧ ∀ x, ¬FreeHeader bs x → m' x = m x := by
  induction hn : bs.length using Nat.strong_induction_on generalizing bs m ptr fuel with
  | _ n ih =>
  match fuel, hfuel with
  | fuel + 1, hfuel =>
  cases bs with
  | nil =>
    refine ⟨m, if_neg (Nat.not_lt.mpr (Nat.le_of_eq (Eq.symm hcut))), ?_, fun _ _ => rfl⟩
    exact fun b hb => nomatch hb
  | cons b bs =>
    obtain ⟨rfl, -, hrest⟩ := hcut
    have hle := Lib.Tiling.Tiles.le hrest
    have h8 : hdrSize = 8 := rfl
    have hfin : b.fin hdrSize = b.addr + 8 + b.size := rfl
    have hb : b.size < 2 ^ 31 := by omega
    obtain ⟨hbpos, hpos'⟩ := List.forall_mem_cons.mp hpos
    obtain ⟨hbm, hm'⟩ := List.forall_mem_cons.mp hm
    have hbm' := hbm
    simp only [consolidateLoop, hbm, isFree_header hb, sizeOf_header hb]
    clear hbm
    rw [if_pos (by omega), u32_eq (by omega), show b.addr + (hdrSize + b.size) = b.fin hdrSize by omega]
    simp only [List.length_cons] at hn hfuel
    cases hfree : b.free with
    | false =>
      rw [if_pos (by simp)]
      have hfuel' : bs.length < fuel := by omega
      obtain ⟨m', heq, hheaders, hframe⟩ := ih bs.length (by omega) hrest hpos' hm' (by omega)
        hfuel' rfl
      refine ⟨m', heq, ?_, fun x hx => hframe x fun h => hx h.cons⟩
      have hcoalesce : coalesce hdrSize none (b :: bs) = b :: coalesce hdrSize none bs := by
        simp [coalesce, hfree]
      rw [hcoalesce]
      refine List.forall_mem_cons.mpr ⟨?_, hheaders⟩
      rw [← hbm']
      refine le64_congr fun i hi => hframe _ fun h => ?_
      have := freeHeader_ge hrest h
      omega
    | true =>
      rw [if_neg (by simp), u32_eq (by omega)]
      obtain ⟨m₁, c, rest, heq, habs⟩ := @absorb_eq m bs hend (fuel + 1) b hrest hpos' hm' hsize
        hend_lt (by omega)
      have hcle := Lib.Tiling.Tiles.le habs.cut
      have hcfin : c.fin hdrSize = c.addr + 8 + c.size := rfl
      have hcaddr := habs.addr
      have hcsize : c.size < 2 ^ 31 := by omega
      have hcfree : c.free = true := habs.free.trans hfree
      have hheader : header c = freeBlock c.size := if_pos hcfree
      have hm₂ : Headers (setHdr m₁ b.addr (header c)) rest :=
        habs.headers.frame fun d hd x hlo _ => by
        have := (Lib.Tiling.Tiles.bounds habs.cut hd).1
        exact setHdr_other (.inr (by omega))
      have hshort := habs.shorter
      have hfuel' : rest.length < fuel := by omega
      obtain ⟨m', heq', hheaders, hframe⟩ := ih rest.length (by omega) habs.cut habs.pos hm₂
        (by omega) hfuel' rfl
      refine ⟨m', ?_, ?_, ?_⟩
      · simp only [heq, Option.bind_eq_bind, Option.bind_some, ← hheader]
        exact heq'
      · have hcoalesce : coalesce hdrSize none (b :: bs) = c :: coalesce hdrSize none rest := by
          rw [← habs.joined]
          simp [coalesce, hfree]
        rw [hcoalesce]
        refine List.forall_mem_cons.mpr ⟨?_, hheaders⟩
        rw [hcaddr, ← le64_setHdr (m := m₁) (a := b.addr) (header_lt hcsize)]
        refine le64_congr fun i hi => hframe _ fun h => ?_
        have := freeHeader_ge habs.cut h
        omega
      · intro x hx
        rw [hframe x fun h => hx (habs.from_ x h).cons, setHdr_other,
          habs.frame x fun h => hx h.cons]
        by_contra hin
        exact hx ⟨b, List.mem_cons_self, hfree, by omega, by omega⟩

end Lists

-- ---------------------------------------------------------------------------
-- The heap
-- ---------------------------------------------------------------------------

variable {heap : Heap} {m m' : Mem} {bs bs' : List Block} {b c : Block} {len ptr x : Nat}

/-- The memory's headers cut up the heap, and no two neighbours are free. -/
structure Holds (heap : Heap) (m : Mem) (bs : List Block) : Prop where
  wf : WellFormed hdrSize heap.hstart heap.hend bs
  headers : Headers m bs

/-- The memory with the heap set up. -/
def ready (heap : Heap) (m : Mem) : Mem :=
  if hasMagic (le64 m heap.hstart) then m
  else setup m heap.hstart (int32 (heap.hend - heap.hstart - hdrSize))

namespace Holds

variable (h : Holds heap m bs)
include h

theorem bounds (hb : b ∈ bs) : heap.hstart ≤ b.addr ∧ b.fin hdrSize ≤ heap.hend :=
  have hin := Lib.Tiling.Tiles.bounds h.wf.cut hb
  ⟨hin.1, hin.2.2⟩

theorem size_lt (hb : b ∈ bs) : b.size < 2 ^ 31 := by
  have hin := h.bounds hb
  have hsize := heap.size_lt
  simp only [Block.fin] at hin
  omega

theorem addr_inj (hb : b ∈ bs) (hc : c ∈ bs) (heq : b.addr = c.addr) : b = c := by
  by_contra hne
  have hapart := cut_apart h.wf.cut hb hc hne
  simp only [Block.fin, hdrSize] at hapart
  omega

theorem ne_nil : bs ≠ [] := by
  rintro rfl
  have hroom := heap.room
  have hcut : heap.hstart = heap.hend := h.wf.cut
  omega

theorem length_lt : bs.length < heap.hend - heap.hstart := by
  have hroom := heap.room
  have hlen := length_le h.wf.cut (by decide) h.wf.pos
  omega

theorem ready_eq : ready heap m = m := by
  refine if_pos ?_
  cases bs with
  | nil => exact absurd rfl h.ne_nil
  | cons b bs =>
    have hb : b.addr = heap.hstart := h.wf.cut.1
    rw [← hb, h.headers b List.mem_cons_self]
    exact hasMagic_header (h.size_lt List.mem_cons_self)

theorem unique (h' : Holds heap m bs') : bs = bs' := by
  have hcut := h.wf.cut
  have hcut' := h'.wf.cut
  have hread : ∀ b ∈ bs, ∀ c ∈ bs', b.addr = c.addr → b = c := by
    intro b hb c hc heq
    have hheader : header b = header c := by
      rw [← h.headers b hb, ← h'.headers c hc, heq]
    have hsize := sizeOf_header (h.size_lt hb)
    have hflag := hasFlag_header (h.size_lt hb)
    rw [hheader, sizeOf_header (h'.size_lt hc)] at hsize
    rw [hheader, hasFlag_header (h'.size_lt hc)] at hflag
    cases b
    cases c
    simp_all
  clear h h'
  generalize heap.hstart = bot at hcut hcut'
  induction bs generalizing bs' bot with
  | nil =>
    cases bs' with
    | nil => rfl
    | cons c bs' =>
      obtain ⟨rfl, -, hrest⟩ := hcut'
      have hle := Lib.Tiling.Tiles.le hrest
      have hnil : c.addr = heap.hend := hcut
      simp only [Block.fin, hdrSize] at hle
      omega
  | cons b bs ih =>
    cases bs' with
    | nil =>
      obtain ⟨rfl, -, hrest⟩ := hcut
      have hle := Lib.Tiling.Tiles.le hrest
      have hnil : b.addr = heap.hend := hcut'
      simp only [Block.fin, hdrSize] at hle
      omega
    | cons c bs' =>
      obtain rfl := hread b List.mem_cons_self c List.mem_cons_self (hcut.1.trans hcut'.1.symm)
      have hread' : ∀ d ∈ bs, ∀ e ∈ bs', d.addr = e.addr → d = e := fun d hd e he =>
        hread d (List.mem_cons_of_mem _ hd) e (List.mem_cons_of_mem _ he)
      rw [ih hread' _ hcut.2.2 hcut'.2.2]

/-- The length that `alloc` looks for is found or not found as first fit says. -/
theorem allocLoop_eq (hlen : len < 2 ^ 31) :
    allocLoop heap.hend len (heap.hend - heap.hstart) m heap.hstart =
      some ((firstFit hdrSize len bs).elim (m, none)
        fun r => (take m len r.1, some (r.1.addr + hdrSize))) :=
  Libpayload.allocLoop_eq h.wf.cut h.ne_nil h.wf.pos h.headers heap.size_lt heap.hend_lt hlen
    (Nat.le_of_lt h.length_lt)

end Holds

/-- The heap as one free block. -/
def whole (heap : Heap) : Block := ⟨heap.hstart, heap.hend - heap.hstart - hdrSize, true⟩

theorem holds_whole (h : hasMagic (le64 m heap.hstart) = false) :
    Holds heap (ready heap m) [whole heap] := by
  have hroom := heap.room
  have hsize := heap.size_lt
  have hint : int32 (heap.hend - heap.hstart - hdrSize) = (whole heap).size := by
    simp only [whole, hdrSize]
    rw [int32_eq (by omega) (by omega)]
    omega
  have hlt : (whole heap).size < 2 ^ 31 := by
    simp only [whole]
    omega
  constructor
  case wf =>
    constructor
    case cut =>
      refine ⟨rfl, ?_, ?_⟩
      · simp only [Block.fin]
        omega
      · simp only [whole, Block.fin, hdrSize, Lib.Tiling.tiles_nil]
        omega
    case pos =>
      intro b hb
      cases List.mem_singleton.mp hb
      simp only [whole, hdrSize]
      omega
    case settled => exact List.isChain_singleton _
  case headers =>
    intro b hb
    cases List.mem_singleton.mp hb
    rw [ready, if_neg (by simp [h]), hint]
    exact le64_setHdr (header_lt hlt)

theorem take_other (hle : len ≤ b.size) (hx : x < b.addr ∨ b.fin hdrSize ≤ x) :
    take m len b x = m x := by
  simp only [Block.fin, hdrSize] at hx
  unfold take
  split
  · rw [setHdr_other (by simp only [hdrSize] at *; omega),
      setHdr_other (by simp only [hdrSize] at *; omega)]
  · exact setHdr_other (by simp only [hdrSize] at *; omega)

theorem take_headers (hb : b.size < 2 ^ 31) (hle : len ≤ b.size) :
    Headers (take m len b) (split hdrSize len b) := by
  unfold take split
  split
  · have hfree : header ⟨b.addr + (hdrSize + len), b.size - (hdrSize + len), true⟩ =
        freeBlock (b.size - (hdrSize + len) : Nat) := rfl
    have hused : header ⟨b.addr, len, false⟩ = usedBlock len := rfl
    have hfree_lt : header ⟨b.addr + (hdrSize + len), b.size - (hdrSize + len), true⟩ < 2 ^ 64 :=
      header_lt (by simp only; omega)
    have hused_lt : header ⟨b.addr, len, false⟩ < 2 ^ 64 := header_lt (by simp only; omega)
    intro c hc
    rcases List.mem_pair.mp hc with rfl | rfl
    · rw [← hfree, ← hused]
      refine Eq.trans ?_ (le64_setHdr (m := m) (a := b.addr) hused_lt)
      refine le64_congr fun i hi => setHdr_other ?_
      simp only [hdrSize]
      omega
    · rw [← hfree, ← hused]
      exact le64_setHdr hfree_lt
  · intro c hc
    cases List.mem_singleton.mp hc
    have hused : header ⟨b.addr, b.size, false⟩ = usedBlock b.size := rfl
    rw [← hused]
    exact le64_setHdr (header_lt hb)

theorem Holds.take (h : Holds heap m bs) (hlen : 0 < len)
    (hf : firstFit hdrSize len bs = some (b, bs')) : Holds heap (take m len b) bs' where
  wf := h.wf.firstFit hlen hf
  headers := by
    obtain ⟨pre, post, rfl, rfl, hfree, hle, -⟩ := firstFit_some hf
    have hmem : b ∈ pre ++ b :: post := List.mem_append_right _ List.mem_cons_self
    obtain ⟨hpre, -, hpost⟩ := cut_middle.mp h.wf.cut
    have hkeep (c : Block) (hc : c ∈ pre ++ b :: post)
        (hapart : c.fin hdrSize ≤ b.addr ∨ b.fin hdrSize ≤ c.addr) :
        le64 (Libpayload.take m len b) c.addr = header c := by
      rw [← h.headers c hc]
      refine le64_congr fun i hi => take_other hle ?_
      simp only [Block.fin, hdrSize] at hapart ⊢
      omega
    intro c hc
    rw [List.append_assoc, List.mem_append, List.mem_append] at hc
    rcases hc with hc | hc | hc
    · exact hkeep c (List.mem_append_left _ hc) (.inl (hpre.bounds hc).2.2)
    · exact take_headers (h.size_lt hmem) hle c hc
    · exact hkeep c (List.mem_append_right _ (List.mem_cons_of_mem _ hc)) (.inr (hpost.bounds hc).1)

-- ---------------------------------------------------------------------------
-- alloc and free
-- ---------------------------------------------------------------------------

theorem alignLen_lt (len : Nat) : alignLen len < 2 ^ 32 :=
  Nat.lt_of_le_of_lt (alignDown_le _ _) (Nat.mod_lt _ (by decide))

theorem le_alignLen (hlen : len < 2 ^ 32) (h : alignLen len ≠ 0) : len ≤ alignLen len := by
  simp only [alignLen, alignDown, u32, hdrSize] at *
  omega

/-- What `alloc` asks first fit for. -/
def Served (len : Nat) : Prop := 0 < alignLen len ∧ alignLen len < 2 ^ 31

instance (len : Nat) : Decidable (Served len) := inferInstanceAs (Decidable (_ ∧ _))

theorem alloc_eq (h : Holds heap (ready heap m) bs) (len : Nat) :
    alloc heap m len = some (if Served len
    then (firstFit hdrSize (alignLen len) bs).elim (ready heap m, none)
      fun r => (take (ready heap m) (alignLen len) r.1, some (r.1.addr + hdrSize))
    else (m, none)) := by
  have hlt := alignLen_lt len
  have hmax : maxSize = 2 ^ 57 - 1 := by decide
  unfold alloc
  by_cases hserved : Served len
  · obtain ⟨hpos, hfits⟩ := id hserved
    simp only [int32_eq (x := (alignLen len : Int)) (by omega) (by omega), if_pos hserved]
    rw [if_neg (by rw [uint64_eq (by omega)]; omega)]
    exact h.allocLoop_eq hfits
  · rw [if_neg hserved, if_pos]
    simp only [Served, not_and, Nat.not_lt] at hserved
    rcases Nat.eq_zero_or_pos (alignLen len) with hzero | hpos
    · rw [hzero]
      exact .inl rfl
    · rw [int32_high (hserved hpos) hlt, uint64]
      exact .inr (by omega)

theorem alloc_some (h : Holds heap (ready heap m) bs)
    (ha : alloc heap m len = some (m', some ptr)) : ∃ b bs', Served len ∧
      firstFit hdrSize (alignLen len) bs = some (b, bs') ∧ ptr = b.addr + hdrSize ∧
      m' = take (ready heap m) (alignLen len) b := by
  rw [alloc_eq h] at ha
  split at ha
  · cases hf : firstFit hdrSize (alignLen len) bs with
    | none => simp [hf] at ha
    | some r =>
      simp only [hf, Option.elim_some, Option.some.injEq, Prod.mk.injEq] at ha
      exact ⟨r.1, r.2, ‹_›, rfl, ha.2.symm, ha.1.symm⟩
  · simp at ha

theorem alloc_none (h : Holds heap (ready heap m) bs)
    (ha : alloc heap m len = some (m', none)) : m' = m ∨ m' = ready heap m := by
  rw [alloc_eq h] at ha
  split at ha
  · cases hf : firstFit hdrSize (alignLen len) bs with
    | none =>
      simp only [hf, Option.elim_none, Option.some.injEq, Prod.mk.injEq, and_true] at ha
      exact .inr ha.symm
    | some r => simp [hf] at ha
  · simp only [Option.some.injEq, Prod.mk.injEq, and_true] at ha
    exact .inl ha.symm

theorem ready_other (hx : x < heap.hstart ∨ heap.hstart + hdrSize ≤ x) : ready heap m x = m x := by
  unfold ready
  split
  · rfl
  · exact setHdr_other hx

theorem mem_used : b ∈ used bs ↔ b ∈ bs ∧ b.free = false := by
  simp [used, List.mem_filter]

theorem Holds.release (h : Holds heap m bs) (hb : b ∈ bs) :
    Headers (setHdr m b.addr (freeBlock b.size)) (release b.addr bs) := by
  intro c hc
  obtain ⟨d, hd, haddr, hsize, hother⟩ := mem_release hc
  by_cases hbd : d.addr = b.addr
  · obtain rfl := h.addr_inj hd hb hbd
    obtain ⟨e, he, rfl⟩ := List.mem_map.mp hc
    have hed : e = d := h.addr_inj he hd (by split at haddr <;> exact haddr)
    rw [if_pos (by rw [hed])]
    subst hed
    have hheader : header { e with free := true } = freeBlock e.size := rfl
    rw [← hheader]
    exact le64_setHdr (header_lt (show e.size < 2 ^ 31 from h.size_lt hd))
  · obtain rfl := hother hbd
    rw [← h.headers c hd]
    refine le64_congr fun i hi => setHdr_other ?_
    have hapart := cut_apart h.wf.cut hd hb fun heq => hbd (congrArg Block.addr heq)
    simp only [Block.fin, hdrSize] at hapart ⊢
    omega

theorem free_eq (h : Holds heap m bs) (hb : b ∈ used bs) (hregs : freeAligned m
    (b.addr + hdrSize) regs = some (m, regs, false)) :
    ∃ m', free heap ⟨m, regs⟩ (b.addr + hdrSize) = some ⟨m', regs⟩ ∧
      Holds heap m' (coalesce hdrSize none (release b.addr bs)) ∧
      ∀ x, ¬FreeHeader (release b.addr bs) x → m' x = m x := by
  obtain ⟨hmem, hfree⟩ := mem_used.mp hb
  have hbounds := h.bounds hmem
  have hend := heap.hend_lt
  have hpos := h.wf.pos b hmem
  have hsize := h.size_lt hmem
  have hfin : b.fin hdrSize = b.addr + 8 + b.size := rfl
  have hheader : le64 m b.addr = header b := h.headers b hmem
  have hptr : uint32 ((b.addr + hdrSize : Nat) - hdrSize : Int) = b.addr := by
    rw [show ((b.addr + hdrSize : Nat) - hdrSize : Int) = b.addr by omega]
    exact uint32_eq (by omega)
  obtain ⟨m', heq, hheaders, hframe⟩ := consolidateLoop_eq
    (release_cut.mpr h.wf.cut) (fun c hc => by
      obtain ⟨d, hd, -, hds, -⟩ := mem_release hc
      rw [hds]
      exact h.wf.pos d hd) (h.release hmem) heap.size_lt hend
    (show (release b.addr bs).length < heap.hend - heap.hstart by
      rw [release, List.length_map]
      exact h.length_lt)
  refine ⟨m', ?_, ⟨h.wf.give_back, hheaders⟩, fun x hx => ?_⟩
  · simp only [free, hregs, Option.bind_eq_bind, Option.bind_some, Bool.false_eq_true, if_false,
      hptr,
      hheader, hasMagic_header hsize, hasFlag_header hsize, sizeOf_header hsize, hfree, consolidate,
      heq, not_true_eq_false]
    rw [if_neg (by omega)]
  · rw [hframe x hx, setHdr_other]
    by_contra hin
    exact hx ⟨_, release_mem hmem rfl, rfl, by simp only; omega, by simp only; omega⟩

end ItxLlama.Libpayload
