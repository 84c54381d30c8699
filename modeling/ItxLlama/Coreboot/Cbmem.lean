import ItxLlama.Lib.Tiling
import ItxLlama.Lib.Word
import Mathlib.Logic.Relation

/-!
# The CBMEM table of contents

`lib/cbmem.c`: the table at the start of the region, and what `cbmem_init`,
`cbmem_add` and `cbmem_find` do to it. A pointer is a number and NULL is 0;
pointers have 32 bits, the table's addresses 64.
-/

namespace ItxLlama.Coreboot

open Lib.Word Lib.Tiling

def cbmemTocReserved : Nat := 512
def maxCbmemEntries : Nat := 16
def cbmemMagic : Nat := 0x434f5245
def cbmemIdFreespace : Nat := 0x46524545
def cbmemIdNone : Nat := 0

structure CbmemEntry where
  magic : Nat
  id : Nat
  base : Nat
  size : Nat
  deriving DecidableEq, Repr, Inhabited

def CbmemEntry.fin (e : CbmemEntry) : Nat := e.base + e.size

/-- `cbmem_base` and `cbmem_size`, which `cbmem_locate_table` gives out, and
the slots of the table. -/
structure Cbmem where
  base : Nat
  size : Nat
  toc : List CbmemEntry
  deriving DecidableEq, Repr

def getCbmemToc (c : Cbmem) : Nat := u32 c.base

/-- Slot 0 of a new table; `memset` clears the others. -/
def cbmemToc (base size : Nat) : List CbmemEntry :=
  ⟨cbmemMagic, cbmemIdFreespace, u64 (base + cbmemTocReserved), size - cbmemTocReserved⟩ ::
    .replicate (maxCbmemEntries - 1) ⟨0, 0, 0, 0⟩

/-- It does not come back from a region below 64 KiB. -/
def cbmemInit (base size : Nat) : Option Cbmem :=
  if size < 64 * 1024 then none else some ⟨base, size, cbmemToc base size⟩

def cbmemFind (c : Cbmem) (id : Nat) : Nat :=
  if getCbmemToc c = 0 then 0
  else match c.toc.find? (·.id == id) with
    | some e => u32 e.base
    | none => 0

/-- `ALIGN` of a 64-bit value. -/
def align64 (x a : Nat) : Nat := alignDown (u64 (x + (a - 1))) a

def cbmemAdd (c : Cbmem) (id size : Nat) : Nat × Cbmem :=
  if cbmemFind c id ≠ 0 then (cbmemFind c id, c)
  else if getCbmemToc c = 0 then (0, c)
  else
    let free := c.toc.headD default
    if free.magic ≠ cbmemMagic then (0, c)
    else if size > free.size then (0, c)
    else
      let size := if align64 size 512 < free.size then align64 size 512 else free.size
      let i := c.toc.findIdx (·.id == cbmemIdNone)
      if i ≥ maxCbmemEntries then (0, c)
      else
        let toc := c.toc.set i ⟨cbmemMagic, id, free.base, size⟩
        let toc := toc.set 0 { free with base := u64 (free.base + size), size := free.size - size }
        (u32 (toc.getD i default).base, { c with toc })

-- ---------------------------------------------------------------------------
-- What the table says
-- ---------------------------------------------------------------------------

def Cbmem.free (c : Cbmem) : CbmemEntry := c.toc.headD default

def Cbmem.regions (c : Cbmem) : List CbmemEntry := c.toc.tail.filter (·.id != cbmemIdNone)

def Cbmem.Known (c : Cbmem) (id : Nat) : Prop := ∃ e ∈ c.regions, e.id = id

/-- The regions and the free space split what lies behind the table. -/
structure Cbmem.Covered (c : Cbmem) : Prop where
  disjoint : (c.free :: c.regions).Pairwise fun d e => d.fin ≤ e.base ∨ e.fin ≤ d.base
  inside : ∀ e ∈ c.regions, c.base + cbmemTocReserved ≤ e.base ∧ e.fin ≤ c.base + c.size
  cover : ∀ x, (∃ e ∈ c.free :: c.regions, e.base ≤ x ∧ x < e.fin) ↔
    c.base + cbmemTocReserved ≤ x ∧ x < c.base + c.size

def ValidId (id : Nat) : Prop := id ≠ cbmemIdNone ∧ id ≠ cbmemIdFreespace

/-- One call of `cbmem_add`. -/
inductive CbmemStep : Cbmem → Cbmem → Prop
  | add (id size : Nat) (hid : ValidId id) (hi : id < 2 ^ 32) (hs : size < 2 ^ 64) :
    CbmemStep c (cbmemAdd c id size).2

abbrev CbmemRun : Cbmem → Cbmem → Prop := Relation.ReflTransGen CbmemStep

/-- What a table at `c` owes to a call of `cbmem_add`. -/
structure Cbmem.Serves (c : Cbmem) (id size : Nat) : Prop where
  added : ¬ c.Known id → (cbmemAdd c id size).1 ≠ 0 →
    ∃ e ∈ (cbmemAdd c id size).2.regions,
      e.id = id ∧ e.base = (cbmemAdd c id size).1 ∧ size ≤ e.size
  found : (cbmemAdd c id size).1 ≠ 0 →
    cbmemFind (cbmemAdd c id size).2 id = (cbmemAdd c id size).1
  same : c.Known id → ∀ c', CbmemRun c c' →
    cbmemFind c' id = cbmemFind c id ∧ (cbmemAdd c' id size).1 = cbmemFind c id
  failed : (cbmemAdd c id size).1 = 0 → (cbmemAdd c id size).2 = c

/-- The table is right after every sequence of calls. -/
def CbmemSound (base size : Nat) : Prop :=
  ∃ c₀, cbmemInit base size = some c₀ ∧ ∀ c, CbmemRun c₀ c →
    c.Covered ∧ ∀ id size, ValidId id → id < 2 ^ 32 → size < 2 ^ 64 → c.Serves id size

-- ---------------------------------------------------------------------------
-- The invariant
-- ---------------------------------------------------------------------------

/-- The regions `es` are in the slots behind `free`, in address order. -/
structure Cbmem.Holds (c : Cbmem) (free : CbmemEntry) (es : List CbmemEntry) : Prop where
  toc : c.toc = free :: (es ++ .replicate (maxCbmemEntries - 1 - es.length) ⟨0, 0, 0, 0⟩)
  length : es.length ≤ maxCbmemEntries - 1
  magic : free.magic = cbmemMagic
  freespace : free.id = cbmemIdFreespace
  ids : ∀ e ∈ es, ValidId e.id
  tiles : Tiles CbmemEntry.base CbmemEntry.fin (c.base + cbmemTocReserved) es free.base
  room : free.fin = c.base + c.size
  below : c.base + c.size < 2 ^ 32

section Holds

variable {c : Cbmem} {free e : CbmemEntry} {es : List CbmemEntry} {id size : Nat}

theorem Cbmem.Holds.free_eq (h : c.Holds free es) : c.free = free := by
  simp [Cbmem.free, h.toc]

theorem Cbmem.Holds.regions_eq (h : c.Holds free es) : c.regions = es := by
  have hes : es.filter (·.id != cbmemIdNone) = es :=
    List.filter_eq_self.mpr fun e he => by simpa using (h.ids e he).1
  rw [Cbmem.regions, h.toc, List.tail_cons, List.filter_append, hes]
  simp [cbmemIdNone]

theorem Cbmem.Holds.covered (h : c.Holds free es) : c.Covered := by
  have htiles : Tiles CbmemEntry.base CbmemEntry.fin (c.base + cbmemTocReserved) (es ++ [free])
      (c.base + c.size) :=
    tiles_append.mpr ⟨_, h.tiles, rfl, Nat.le_add_right _ _, h.room⟩
  refine ⟨?_, ?_, fun x => ?_⟩
  · rw [h.free_eq, h.regions_eq]
    obtain ⟨hes, -, hfree⟩ := List.pairwise_append.mp htiles.pairwise
    exact List.pairwise_cons.mpr
      ⟨fun e he => .inr (hfree e he free (by simp)), hes.imp fun h => .inl h⟩
  · rw [h.regions_eq]
    intro e he
    obtain ⟨hb, -, ht⟩ := htiles.bounds (List.mem_append_left _ he)
    exact ⟨hb, ht⟩
  · rw [h.free_eq, h.regions_eq, ← htiles.covers x]
    simp [or_comm]

theorem Cbmem.Holds.toc_eq_zero (h : c.Holds free es) : getCbmemToc c = 0 ↔ c.base = 0 := by
  have := h.below
  rw [getCbmemToc, u32_eq (by omega)]

theorem Cbmem.Holds.base_lt (h : c.Holds free es) (he : e ∈ es) :
    cbmemTocReserved ≤ e.base ∧ u32 e.base = e.base := by
  obtain ⟨hb, hs, ht⟩ := h.tiles.bounds he
  have hfin : free.base ≤ free.fin := Nat.le_add_right _ _
  have := h.room
  have := h.below
  exact ⟨by omega, u32_eq (by omega)⟩

theorem Cbmem.Holds.find_toc (h : c.Holds free es) (hid : ValidId id) :
    c.toc.find? (·.id == id) = es.find? (·.id == id) := by
  have hne : ¬ cbmemIdNone = id := Ne.symm hid.1
  rw [h.toc, List.find?_cons_of_neg (by simpa [h.freespace] using Ne.symm hid.2),
    List.find?_append]
  simp [show ¬ 0 = id from hne]

theorem Cbmem.Holds.find_none (h : c.Holds free es) (hid : ValidId id) (hn : ¬ c.Known id) :
    cbmemFind c id = 0 := by
  have hf : es.find? (·.id == id) = none := by
    rw [Cbmem.Known, h.regions_eq] at hn
    simpa using hn
  simp [cbmemFind, h.find_toc hid, hf]

theorem Cbmem.Holds.find_some (h : c.Holds free es) (hid : ValidId id) (hbase : c.base ≠ 0)
    (hf : es.find? (·.id == id) = some e) : cbmemFind c id = e.base := by
  simp [cbmemFind, h.toc_eq_zero, hbase, h.find_toc hid, hf,
    (h.base_lt (List.mem_of_find?_eq_some hf)).2]

theorem cbmemAdd_found (hf : cbmemFind c id ≠ 0) : cbmemAdd c id size = (cbmemFind c id, c) := by
  rw [cbmemAdd, if_pos hf]

/-- The size an entry gets: what is asked for in blocks of 512 bytes, or all
that is left. -/
theorem Cbmem.Holds.taken (h : c.Holds free es) (hle : size ≤ free.size) :
    ∃ taken, (if align64 size 512 < free.size then align64 size 512 else free.size) = taken ∧
      size ≤ taken ∧ taken ≤ free.size := by
  have hroom := h.room
  have hbelow := h.below
  have hsum : u64 (size + (512 - 1)) = size + (512 - 1) :=
    u64_eq (by unfold CbmemEntry.fin at hroom; omega)
  have hup : size ≤ align64 size 512 := by
    rw [align64, hsum]
    exact le_alignUp size (by decide)
  refine ⟨_, rfl, ?_, ?_⟩ <;> split <;> omega

theorem Cbmem.Holds.findIdx (h : c.Holds free es) :
    c.toc.findIdx (·.id == cbmemIdNone) = es.length + 1 := by
  have hes : es.findIdx (·.id == cbmemIdNone) = es.length :=
    List.findIdx_eq_length.mpr fun e he => by simpa using (h.ids e he).1
  have hfree : (free.id == cbmemIdNone) = false := by rw [h.freespace]; decide
  rw [h.toc, List.findIdx_cons, hfree, cond_false, List.findIdx_append, hes,
    if_neg (Nat.lt_irrefl _)]
  cases maxCbmemEntries - 1 - es.length <;>
    simp [List.replicate_succ, List.findIdx_cons, cbmemIdNone]

theorem Cbmem.Holds.append (h : c.Holds free es) (hid : ValidId id) (hlen : es.length < 15)
    (hle : size ≤ free.size) :
    Cbmem.Holds
      { c with
        toc := (c.toc.set (es.length + 1) ⟨cbmemMagic, id, free.base, size⟩).set 0
          { free with base := u64 (free.base + size), size := free.size - size } }
      { free with base := u64 (free.base + size), size := free.size - size }
      (es ++ [⟨cbmemMagic, id, free.base, size⟩]) := by
  have hroom := h.room
  have hbelow := h.below
  have hbase : u64 (free.base + size) = free.base + size :=
    u64_eq (by unfold CbmemEntry.fin at hroom; omega)
  obtain ⟨n, hn⟩ : ∃ n, maxCbmemEntries - 1 - es.length = n + 1 :=
    ⟨14 - es.length, by simp only [maxCbmemEntries]; omega⟩
  have hn' : maxCbmemEntries - 1 - (es.length + 1) = n := by omega
  constructor
  case toc => simp [h.toc, hn, hn', List.replicate_succ]
  case length => simp [maxCbmemEntries]; omega
  case magic => exact h.magic
  case freespace => exact h.freespace
  case ids =>
    intro e he
    rcases List.mem_append.mp he with he | he
    · exact h.ids e he
    · rw [List.mem_singleton.mp he]
      exact hid
  case tiles =>
    rw [hbase]
    exact tiles_append.mpr ⟨_, h.tiles, rfl, Nat.le_add_right _ _, rfl⟩
  case room =>
    unfold CbmemEntry.fin at hroom ⊢
    simp only [hbase]
    omega
  case below => exact hbelow

/-- What a call of `cbmem_add` does to the table. -/
inductive Cbmem.Added (c : Cbmem) (free : CbmemEntry) (es : List CbmemEntry) (id size : Nat) :
    Nat × Cbmem → Prop
  | found (e : CbmemEntry) (hbase : c.base ≠ 0) (hf : es.find? (·.id == id) = some e) :
    Added c free es id size (e.base, c)
  | failed (hn : c.base ≠ 0 → ¬ c.Known id) : Added c free es id size (0, c)
  | new (c' : Cbmem) (free' : CbmemEntry) (taken : Nat) (hn : ¬ c.Known id) (hbase : c.base ≠ 0)
    (hsize : size ≤ taken)
      (hpos : free.base ≠ 0) (hc : c'.base = c.base ∧ c'.size = c.size)
      (hc' : c'.Holds free' (es ++ [⟨cbmemMagic, id, free.base, taken⟩])) :
    Added c free es id size (free.base, c')

theorem Cbmem.Holds.find_eq_some (h : c.Holds free es) (hk : c.Known id) :
    ∃ e, es.find? (·.id == id) = some e := by
  obtain ⟨e, he, heid⟩ := hk
  rw [h.regions_eq] at he
  exact Option.isSome_iff_exists.mp (List.find?_isSome.mpr ⟨e, he, by simpa using heid⟩)

theorem Cbmem.Holds.add (h : c.Holds free es) (hid : ValidId id) (size : Nat) :
    c.Added free es id size (cbmemAdd c id size) := by
  by_cases hbase : c.base = 0
  · have hf : cbmemFind c id = 0 := by simp [cbmemFind, h.toc_eq_zero, hbase]
    rw [cbmemAdd, if_neg (by simpa using hf), if_pos (h.toc_eq_zero.mpr hbase)]
    exact .failed fun hb => absurd hbase hb
  by_cases hk : c.Known id
  · obtain ⟨e, he⟩ := h.find_eq_some hk
    have hpos := (h.base_lt (List.mem_of_find?_eq_some he)).1
    have hf := h.find_some hid hbase he
    rw [cbmemAdd_found (by rw [hf]; unfold cbmemTocReserved at hpos; omega), hf]
    exact .found e hbase he
  have hfree : c.toc.headD default = free := h.free_eq
  rw [cbmemAdd, if_neg (by simpa using h.find_none hid hk), if_neg (mt h.toc_eq_zero.mp hbase)]
  simp only [hfree]
  rw [if_neg (not_not.mpr h.magic)]
  split
  · exact .failed fun _ => hk
  next hle =>
  obtain ⟨taken, heq, hsize, htaken⟩ := h.taken (Nat.le_of_not_lt hle)
  rw [heq, h.findIdx]
  split
  · exact .failed fun _ => hk
  next hlen =>
  have hlen' : es.length < 15 := by unfold maxCbmemEntries at hlen; omega
  have hroom := h.room
  have hbelow := h.below
  have hb := h.tiles.le
  have hu : u32 free.base = free.base := u32_eq (by unfold CbmemEntry.fin at hroom; omega)
  have hslot : ((c.toc.set (es.length + 1) ⟨cbmemMagic, id, free.base, taken⟩).set 0
      { free with base := u64 (free.base + taken), size := free.size - taken }).getD (es.length + 1)
      default = ⟨cbmemMagic, id, free.base, taken⟩ := by
    have hl : es.length + 1 < c.toc.length := by
      rw [h.toc]
      simp only [List.length_cons, List.length_append, List.length_replicate, maxCbmemEntries]
      omega
    simp [List.getD_eq_getElem?_getD, hl]
  rw [hslot]
  simp only [hu]
  exact .new _ _ taken hk hbase hsize (by unfold cbmemTocReserved at hb; omega) ⟨rfl, rfl⟩
    (h.append hid hlen' htaken)

theorem Cbmem.Holds.step (h : c.Holds free es) (hs : CbmemStep c c') :
    ∃ free' new, c'.Holds free' (es ++ new) ∧ c'.base = c.base ∧ c'.size = c.size := by
  cases hs with
  | add id size hid hi hs =>
    cases heq : cbmemAdd c id size with
    | mk p c'' =>
    have ha := h.add hid size
    rw [heq] at ha
    cases ha with
    | found e _ _ => exact ⟨free, [], by simpa using h, rfl, rfl⟩
    | failed _ => exact ⟨free, [], by simpa using h, rfl, rfl⟩
    | new _ free' taken _ _ _ _ hc hc' => exact ⟨free', _, hc', hc⟩

theorem Cbmem.Holds.run (h : c.Holds free es) (hr : CbmemRun c c') :
    ∃ free' new, c'.Holds free' (es ++ new) ∧ c'.base = c.base ∧ c'.size = c.size := by
  induction hr with
  | refl => exact ⟨free, [], by simpa using h, rfl, rfl⟩
  | tail _ hs ih =>
    obtain ⟨free₁, new₁, h₁, hb₁, hs₁⟩ := ih
    obtain ⟨free₂, new₂, h₂, hb₂, hs₂⟩ := h₁.step hs
    exact ⟨free₂, new₁ ++ new₂, by simpa using h₂, hb₂.trans hb₁, hs₂.trans hs₁⟩

/-- Later regions go behind a known one, so it is still the first with its id. -/
theorem Cbmem.Holds.find_stable (h : c.Holds free es) (hid : ValidId id) (hk : c.Known id)
    (hr : CbmemRun c c') :
    cbmemFind c' id = cbmemFind c id ∧ (cbmemAdd c' id size).1 = cbmemFind c id := by
  obtain ⟨e, he⟩ := h.find_eq_some hk
  obtain ⟨free', new, h', hbase, -⟩ := h.run hr
  have he' : (es ++ new).find? (·.id == id) = some e := by rw [List.find?_append, he]; rfl
  by_cases hb : c.base = 0
  · have hf : cbmemFind c id = 0 := by simp [cbmemFind, h.toc_eq_zero, hb]
    have hf' : cbmemFind c' id = 0 := by simp [cbmemFind, h'.toc_eq_zero, hbase, hb]
    rw [hf, cbmemAdd, if_neg (by simpa using hf'), if_pos (h'.toc_eq_zero.mpr (hbase.trans hb))]
    exact ⟨hf', rfl⟩
  · have hf := h.find_some hid hb he
    have hf' := h'.find_some hid (hbase ▸ hb) he'
    have hpos := (h.base_lt (List.mem_of_find?_eq_some he)).1
    rw [hf, cbmemAdd_found (by rw [hf']; unfold cbmemTocReserved at hpos; omega)]
    exact ⟨hf', hf'⟩

theorem Cbmem.Holds.serves (h : c.Holds free es) (hid : ValidId id) : c.Serves id size := by
  have ha := h.add hid size
  refine ⟨fun hn hne => ?_, fun hne => ?_, fun hk c' hr => h.find_stable hid hk hr, fun h0 => ?_⟩
  all_goals cases heq : cbmemAdd c id size with | mk p c' => ?_
  all_goals simp only [heq] at *
  · cases ha with
    | found e _ he =>
      have := List.mem_of_find?_eq_some he
      exact absurd ⟨e, h.regions_eq ▸ this, by simpa using List.find?_some he⟩ hn
    | failed _ => exact absurd rfl hne
    | new _ free' taken _ _ hsize _ _ hc' =>
      refine ⟨⟨cbmemMagic, id, free.base, taken⟩, ?_, rfl, rfl, hsize⟩
      rw [hc'.regions_eq]
      simp
  · cases ha with
    | found e hb he => exact h.find_some hid hb he
    | failed _ => exact absurd rfl hne
    | new _ free' taken hn hb _ _ hc hc' =>
      rw [Cbmem.Known, h.regions_eq] at hn
      have hnone : es.find? (·.id == id) = none := by simpa using hn
      exact hc'.find_some (e := ⟨cbmemMagic, id, free.base, taken⟩) hid (hc.1 ▸ hb)
        (by simp [List.find?_append, hnone])
  · cases ha with
    | found e _ he =>
      have := (h.base_lt (List.mem_of_find?_eq_some he)).1
      unfold cbmemTocReserved at this
      omega
    | failed _ => rfl
    | new _ free' taken _ _ _ hpos _ _ => exact absurd h0 hpos

end Holds

theorem cbmemInit_holds (hsize : 64 * 1024 ≤ size) (hbelow : base + size < 2 ^ 32) :
    ∃ c free, cbmemInit base size = some c ∧ c.Holds free [] := by
  have hb : u64 (base + cbmemTocReserved) = base + cbmemTocReserved :=
    u64_eq (by unfold cbmemTocReserved; omega)
  refine ⟨_, _, if_neg (by omega), rfl, by simp, rfl, rfl, by simp, ?_, ?_, hbelow⟩
  · exact hb.symm
  · simp only [CbmemEntry.fin, hb]
    unfold cbmemTocReserved
    omega

/-- In a region that ends below 4 GiB the table is right after every
sequence of calls. -/
theorem cbmem_sound (hsize : 64 * 1024 ≤ size) (hbelow : base + size < 2 ^ 32) :
    CbmemSound base size := by
  obtain ⟨c₀, free, hinit, h₀⟩ := cbmemInit_holds hsize hbelow
  refine ⟨c₀, hinit, fun c hr => ?_⟩
  obtain ⟨free', es, h, -⟩ := h₀.run hr
  exact ⟨h.covered, fun id size hid _ _ => h.serves hid⟩

theorem cbmem_sound_64KiB : CbmemSound 0x7fff0000 0x10000 :=
  cbmem_sound (by decide) (by decide)

/-- In a region that ends at 4 GiB an empty entry behind a full table has
address 2^32, which is NULL as a pointer. -/
theorem cbmem_not_sound_4GiB : ¬ CbmemSound 0xffff0000 0x10000 := by
  rintro ⟨c₀, hinit, h⟩
  obtain rfl : ⟨0xffff0000, 0x10000, cbmemToc 0xffff0000 0x10000⟩ = c₀ :=
    Option.some.inj hinit
  have hrun := Relation.ReflTransGen.single
    (CbmemStep.add (c := ⟨0xffff0000, 0x10000, cbmemToc 0xffff0000 0x10000⟩) 1 0xfe00
      ⟨by decide, by decide⟩ (by decide) (by decide))
  have hf := ((h _ hrun).2 2 0 ⟨by decide, by decide⟩ (by decide) (by decide)).failed (by decide)
  exact absurd hf (by decide)

end ItxLlama.Coreboot
