import ItxLlama.Coreboot.DynamicCbmem

/-!
# Dynamic CBMEM over a warm boot

Entries lie downwards from the aligned top without a gap, so `cbmem_initialize`
takes the root it finds, as long as every addition fits below the last entry
and the root's own entry stays. Its hooks then add entries of their own.
-/

namespace ItxLlama.Coreboot.Dynamic

open Lib.Bytes Lib.Word Lib.Tiling

-- ---------------------------------------------------------------------------
-- Reads and writes
-- ---------------------------------------------------------------------------

@[simp] theorem Mem.read_write (m : Mem) (addr value : Nat) :
    (m.write addr value).read addr = value := by
  simp [Mem.read, Mem.write]

theorem Mem.read_write_of_ne {m : Mem} (ha : a < 2 ^ 32) (hb : b < 2 ^ 32) (hne : a ≠ b) :
    (m.write b value).read a = m.read a := by
  rw [Mem.read, Mem.write, u32_eq ha, u32_eq hb, Function.update_of_ne hne, Mem.read, u32_eq ha]

theorem Mem.read_writeByte {m : Mem} {b : Byte} (ha : a < 2 ^ 32) (hlt : addr < a) :
    (m.writeByte addr b).read a = m.read a := by
  have hword : u32 addr / 4 * 4 ≤ addr := (Nat.div_mul_le_self _ _).trans (Nat.mod_le _ _)
  exact Mem.read_write_of_ne ha (by omega) (by omega)

/-- Words behind the copy stay. -/
theorem Mem.read_memcpy {m : Mem} {bytes : List Byte} (ha : a < 2 ^ 32)
    (hle : dst + bytes.length ≤ a) : (m.memcpy dst bytes).read a = m.read a := by
  induction bytes generalizing m dst with
  | nil => rfl
  | cons b bytes ih =>
    rw [List.length_cons] at hle
    rw [Mem.memcpy, ih (by omega)]
    exact Mem.read_writeByte ha (by omega)

/-- An entry as its struct has it, its magic apart. -/
structure Entry where
  id : Nat
  start : Nat
  size : Nat
  deriving DecidableEq, Repr

def Entry.fin (e : Entry) : Nat := e.start + e.size

def entryAt (m : Mem) (entry : Nat) :
    Entry := ⟨entryId m entry, entryStart m entry, entrySize m entry⟩

theorem read_cbmemEntryAssign {m : Mem} {id : Nat} (hentry : entry + 16 ≤ 2 ^ 32) (ha : a < 2 ^ 32)
    (hout : a < entry ∨ entry + 16 ≤ a) :
    (cbmemEntryAssign m entry id start size).read a = m.read a := by
  unfold cbmemEntryAssign
  rw [Mem.read_write_of_ne ha (by omega) (by omega), Mem.read_write_of_ne ha (by omega) (by omega),
    Mem.read_write_of_ne ha (by omega) (by omega), Mem.read_write_of_ne ha (by omega) (by omega)]

theorem entryAt_cbmemEntryAssign {m : Mem} {id : Nat} (hentry : entry + 16 ≤ 2 ^ 32) :
    entryMagic (cbmemEntryAssign m entry id start size) entry = cbmemEntryMagic ∧
      entryAt (cbmemEntryAssign m entry id start size) entry = ⟨id, start, size⟩ := by
  unfold cbmemEntryAssign entryAt entryMagic entryId entryStart entrySize
  refine ⟨?_, ?_⟩
  · rw [Mem.read_write_of_ne (by omega) (by omega) (by omega),
      Mem.read_write_of_ne (by omega) (by omega) (by omega),
      Mem.read_write_of_ne (by omega) (by omega) (by omega), Mem.read_write]
  · rw [Mem.read_write, Mem.read_write_of_ne (a := entry + 4) (by omega) (by omega) (by omega),
      Mem.read_write_of_ne (a := entry + 4) (by omega) (by omega) (by omega), Mem.read_write,
      Mem.read_write_of_ne (a := entry + 8) (by omega) (by omega) (by omega), Mem.read_write]

theorem entryAt_congr {m m' : Mem} (h : ∀ a, entry ≤ a → a < entry + 16 → m'.read a = m.read a) :
    entryMagic m' entry = entryMagic m entry ∧ entryAt m' entry = entryAt m entry := by
  unfold entryAt entryMagic entryId entryStart entrySize
  rw [h entry (by omega) (by omega), h (entry + 4) (by omega) (by omega),
    h (entry + 8) (by omega) (by omega), h (entry + 12) (by omega) (by omega)]
  exact ⟨rfl, rfl⟩

-- ---------------------------------------------------------------------------
-- What the root says
-- ---------------------------------------------------------------------------

section Spec

variable (top : Nat)

def entries (m : Mem) : List Entry :=
  if getRoot top m = 0 then []
  else (List.range (numEntries m (getRoot top m))).map fun i =>
    entryAt m (entryAddr (getRoot top m) i)

/-- Where `cbmem_entry_find` finds an id, and how large. -/
def lookup (m : Mem) (id : Nat) : Option (Nat × Nat) :=
  let entry := cbmemEntryFind top m id
  if entry = 0 then none else some (entryStart m entry, entrySize m entry)

inductive Op
  | add (id size64 : Nat)
  | remove (entry : Nat)

def exec (m : Mem) : Op → Mem
  | .add id size64 => (cbmemEntryAdd top m id size64).2
  | .remove entry => (cbmemEntryRemove top m entry).2

/-- What calls that meet `cond` make of a root that was set up empty, with hooks that meet `ok`. -/
inductive Reach (cond : Mem → Op → Prop) (ok : Stage → Mem → Prop) : Mem → Prop
  | empty (stage : Stage) (m : Mem) (h : ok stage (placeRoot top m)) :
    Reach cond ok (cbmemInitializeEmpty top stage m).2
  | step (op : Op) (hm : Reach cond ok m) (h : cond m op) : Reach cond ok (exec top m op)

/-- The next stage, whichever it is, takes over the root, and its hooks, if they meet `ok`, leave
the ids in the table where they are. -/
structure Recovers (ok : Stage → Mem → Prop) (m : Mem) : Prop where
  contiguous : ∃ bot, Tiles Entry.start Entry.fin bot (entries top m).reverse (getTopAligned top)
  accepted : ∀ stage, (cbmemInitialize top stage m).1 = 0
  same : ∀ stage, ok stage (lockRoot top stage m) → ∀ id place, lookup top m id = some place →
    lookup top (cbmemInitialize top stage m).2.2 id = some place

/-- A new entry, if there is one, is as large as asked for and apart from the others. -/
def Spans (m : Mem) (id size64 : Nat) : Prop :=
  let r := cbmemEntryAdd top m id size64
  cbmemEntryFind top m id = 0 → r.1 ≠ 0 → ∃ e, entryAt r.2 r.1 = e ∧
    entries top r.2 = entries top m ++ [e] ∧ e.id = id ∧ size64 ≤ e.size ∧ e.fin ≤ 2 ^ 32 ∧
    ∀ d ∈ entries top m, e.fin ≤ d.start ∨ d.fin ≤ e.start

def SurvivesWarmBoot (cond : Mem → Op → Prop) (ok : Stage → Mem → Prop) : Prop :=
  ∀ m, Reach top cond ok m →
    Recovers top ok m ∧ ∀ id size64, cond m (.add id size64) → Spans top m id size64

/-- A new entry fits below the last one, and the root's own entry is not
taken out. -/
def Fits (m : Mem) : Op → Prop
  | .add id size64 => cbmemEntryFind top m id = 0 → size64 ≤ uintMax →
      locked m (getRoot top m) = 0 →
      numEntries m (getRoot top m) ≠ maxEntries m (getRoot top m) →
      alignUp size64 dynCbmemAlignSize ≤ cbmemBase top m
  | .remove entry => ¬ (numEntries m (getRoot top m) = 1 ∧ entryNum (getRoot top m) entry = 0)

/-- The words of the root's page stay. -/
def KeepsRoot (m m' : Mem) : Prop :=
  ∀ a, getTopAligned top - rootMinSize ≤ a → a < getTopAligned top → m'.read a = m.read a

/-- Every migration function's entry fits, and what the function stores is not in the root's page. -/
def MigrationsFit : List Migration → Mem → Prop
  | [], _ => True
  | migration :: migrations, m =>
    Fits top m (.add migration.id migration.size) ∧
      KeepsRoot top (cbmemAdd top m migration.id migration.size).2 (migration.call top m) ∧
      MigrationsFit migrations (migration.call top m)

/-- The entries that the hooks add fit; the cache-as-ram variables, where they have an entry
already, have as much room in it as they need. -/
structure HooksFit (stage : Stage) (m : Mem) : Prop where
  gdt : stage.preRam = false → Fits top m (.add cbmemIdGdt (alignUp gdt.length 512))
  car : stage.preRam = true → stage.carMigrated = false →
    Fits top m (.add cbmemIdCarGlobals stage.carData.length)
  carRoom : stage.preRam = true → stage.carMigrated = false → ∀ start size,
    lookup top m cbmemIdCarGlobals = some (start, size) → stage.carData.length ≤ size
  migrations : stage.preRam = true → stage.carMigrated = false →
    (cbmemAdd top m cbmemIdCarGlobals stage.carData.length).1 ≠ 0 →
    MigrationsFit top stage.migrations
      ((cbmemAdd top m cbmemIdCarGlobals stage.carData.length).2.memcpy
        (cbmemAdd top m cbmemIdCarGlobals stage.carData.length).1 stage.carData)

end Spec

-- ---------------------------------------------------------------------------
-- The root region
-- ---------------------------------------------------------------------------

/-- The root page below the aligned top holds the entries `es`. -/
structure Rooted (top : Nat) (m : Mem) (es : List Entry) : Prop where
  root : getRoot top m = getTopAligned top - 4096
  max : maxEntries m (getTopAligned top - 4096) = 254
  num : numEntries m (getTopAligned top - 4096) = es.length
  size : rootSize m (getTopAligned top - 4096) = 4096
  length : es.length ≤ 254
  slot : ∀ i (h : i < es.length),
    entryMagic m (entryAddr (getTopAligned top - 4096) i) = cbmemEntryMagic ∧
      entryAt m (entryAddr (getTopAligned top - 4096) i) = es[i]

section Rooted

variable {top : Nat} (htop : 8192 ≤ top) (hlt : top < 2 ^ 32)

include htop hlt

theorem getTopAligned_bounds : 8192 ≤ getTopAligned top ∧ getTopAligned top < 2 ^ 32 ∧
    4096 ∣ getTopAligned top := by
  have hle := alignDown_le top dynCbmemAlignSize
  have hdvd := dvd_alignDown top dynCbmemAlignSize
  have hlt' := lt_alignDown_add top (a := dynCbmemAlignSize) (by decide)
  unfold getTopAligned
  unfold dynCbmemAlignSize at *
  omega

theorem entryAddr_eq (hi : i ≤ 254) :
    entryAddr (getTopAligned top - 4096) i = getTopAligned top - 4096 + 16 + 16 * i := by
  obtain ⟨h1, h2, -⟩ := getTopAligned_bounds htop hlt
  unfold entryAddr sizeofRoot sizeofEntry
  rw [u32_eq (by omega)]
  omega

theorem pointerAddr_eq : pointerAddr top = getTopAligned top - 8 := by
  obtain ⟨h1, h2, -⟩ := getTopAligned_bounds htop hlt
  unfold pointerAddr sub32 sizeofRootPointer u32
  omega

variable {m : Mem} {es : List Entry}

theorem Rooted.root_ne (h : Rooted top m es) : getRoot top m ≠ 0 := by
  obtain ⟨h1, -, -⟩ := getTopAligned_bounds htop hlt
  rw [h.root]
  omega

theorem Rooted.entries_eq (h : Rooted top m es) : entries top m = es := by
  rw [entries, if_neg (h.root_ne htop hlt), h.root, h.num]
  refine List.ext_getElem (by simp) fun i hi hi' => ?_
  simpa using (h.slot i hi').2

/-- The page keeps its entries where only words outside them and the root
pointer are written. -/
theorem Rooted.congr (h : Rooted top m es)
    (hread : ∀ a, getTopAligned top - 4096 ≤ a → a < getTopAligned top →
      a ≠ getTopAligned top - 4096 + 8 → m'.read a = m.read a) : Rooted top m' es := by
  obtain ⟨h1, h2, -⟩ := getTopAligned_bounds htop hlt
  have hp := pointerAddr_eq htop hlt
  constructor
  case root =>
    rw [← h.root]
    unfold getRoot
    rw [hp, hread _ (by omega) (by omega) (by omega), hread _ (by omega) (by omega) (by omega)]
  case max => exact (hread _ (by omega) (by omega) (by omega)).trans h.max
  case num => exact (hread _ (by omega) (by omega) (by omega)).trans h.num
  case size => exact (hread _ (by omega) (by omega) (by omega)).trans h.size
  case length => exact h.length
  case slot =>
    intro i hi
    have hl := h.length
    have hslot := h.slot i hi
    rw [entryAddr_eq htop hlt (by omega)] at hslot ⊢
    obtain ⟨hm, he⟩ := entryAt_congr fun a (h3 : getTopAligned top - 4096 + 16 + 16 * i ≤ a) h4 =>
      hread a (by omega) (by omega) (by omega)
    rw [hm, he]
    exact hslot

theorem Rooted.append (h : Rooted top m es) (hlen : es.length < 254) (e : Entry) :
    Rooted top (cbmemEntryAppend m (getRoot top m) e.id e.start e.size).2 (es ++ [e]) ∧
      entryAt (cbmemEntryAppend m (getRoot top m) e.id e.start e.size).2
        (cbmemEntryAppend m (getRoot top m) e.id e.start e.size).1 = e ∧
      (cbmemEntryAppend m (getRoot top m) e.id e.start e.size).1 ≠ 0 := by
  obtain ⟨h1, h2, -⟩ := getTopAligned_bounds htop hlt
  have hp := pointerAddr_eq htop hlt
  unfold cbmemEntryAppend
  simp only [h.root, h.num]
  rw [entryAddr_eq htop hlt (by omega), u32_eq (by omega)]
  set root := getTopAligned top - 4096 with hroot
  set m₁ := m.write (root + 4) (es.length + 1) with hm₁
  set m₂ := cbmemEntryAssign m₁ (root + 16 + 16 * es.length) e.id e.start e.size with hm₂
  have hread : ∀ a, root ≤ a → a < root + 4096 → a ≠ root + 4 →
      (a < root + 16 + 16 * es.length ∨ root + 16 + 16 * es.length + 16 ≤ a) →
      m₂.read a = m.read a := by
    intro a h3 h4 h5 h6
    rw [hm₂, read_cbmemEntryAssign (by omega) (by omega) h6, hm₁,
      Mem.read_write_of_ne (by omega) (by omega) h5]
  have hslot : entryMagic m₂ (root + 16 + 16 * es.length) = cbmemEntryMagic ∧
      entryAt m₂ (root + 16 + 16 * es.length) = e := entryAt_cbmemEntryAssign (by omega)
  refine ⟨?_, hslot.2, by omega⟩
  constructor
  case root =>
    rw [← h.root]
    unfold getRoot
    rw [hp, hread _ (by omega) (by omega) (by omega) (by omega),
      hread _ (by omega) (by omega) (by omega) (by omega)]
  case max => exact (hread _ (by omega) (by omega) (by omega) (by omega)).trans h.max
  case num =>
    rw [List.length_append, List.length_singleton]
    show m₂.read (root + 4) = _
    rw [hm₂, read_cbmemEntryAssign (by omega) (by omega) (by omega), hm₁, Mem.read_write]
  case size => exact (hread _ (by omega) (by omega) (by omega) (by omega)).trans h.size
  case length => simp only [List.length_append, List.length_singleton]; omega
  case slot =>
    intro i hi
    rw [List.length_append, List.length_singleton] at hi
    rw [entryAddr_eq htop hlt (by omega)]
    rcases Nat.lt_succ_iff_lt_or_eq.mp hi with hi' | rfl
    · have hold := h.slot i hi'
      rw [entryAddr_eq htop hlt (by omega)] at hold
      obtain ⟨hm, he⟩ := entryAt_congr fun a (h3 : root + 16 + 16 * i ≤ a) h4 =>
        hread a (by omega) (by omega) (by omega) (by omega)
      rw [hm, he, List.getElem_append_left hi']
      exact hold
    · simpa using hslot

/-- `cbmem_entry_find` stops at the first entry with the id. -/
theorem Rooted.find (h : Rooted top m es) (id : Nat) :
    (cbmemEntryFind top m id = 0 ∧ ∀ e ∈ es, e.id ≠ id) ∨
      ∃ e, cbmemEntryFind top m id ≠ 0 ∧ es.find? (·.id == id) = some e ∧
        entryAt m (cbmemEntryFind top m id) = e := by
  have hes := h.entries_eq htop hlt
  have hne := h.root_ne htop hlt
  rw [entries, if_neg hne] at hes
  unfold cbmemEntryFind
  simp only [if_neg hne]
  cases hf : (List.range (numEntries m (getRoot top m))).find?
      fun i => entryId m (entryAddr (getRoot top m) i) == id with
  | none =>
    refine .inl ⟨rfl, fun e he => ?_⟩
    rw [← hes] at he
    obtain ⟨i, hi, rfl⟩ := List.mem_map.mp he
    simpa [entryAt] using List.find?_eq_none.mp hf i hi
  | some i =>
    refine .inr ⟨entryAt m (entryAddr (getRoot top m) i), ?_, ?_, rfl⟩
    · have hi := List.mem_range.mp (List.mem_of_find?_eq_some hf)
      have hl := h.length
      obtain ⟨h1, -, -⟩ := getTopAligned_bounds htop hlt
      rw [h.root, h.num] at hi
      show entryAddr (getRoot top m) i ≠ 0
      rw [h.root, entryAddr_eq htop hlt (by omega)]
      omega
    · rw [← hes, List.find?_map]
      exact congrArg (Option.map _) hf

theorem Rooted.lookup_eq (h : Rooted top m es) (id : Nat) :
    lookup top m id = (es.find? (·.id == id)).map fun e => (e.start, e.size) := by
  rcases h.find htop hlt id with ⟨h0, hn⟩ | ⟨e, h0, hf, he⟩
  · have hf : es.find? (·.id == id) = none := by simpa using hn
    simp [lookup, h0, hf]
  · rw [hf, ← he, lookup, if_neg h0]
    rfl

-- ---------------------------------------------------------------------------
-- Recovery
-- ---------------------------------------------------------------------------

omit htop hlt in
theorem validateFrom_eq_true (l : List Entry) (hl : i + l.length ≤ 254)
    (hslot : ∀ j (h : j < l.length),
      entryMagic m (entryAddr (getTopAligned top - 4096) (i + j)) = cbmemEntryMagic ∧
        entryAt m (entryAddr (getTopAligned top - 4096) (i + j)) = l[j])
    (htiles : Tiles Entry.start Entry.fin bot l.reverse end_) (hend : end_ < 2 ^ 32)
    (haligned : ∀ e ∈ l, dynCbmemAlignSize ∣ e.start) :
    validateFrom m (getTopAligned top - 4096) l.length i end_ = true := by
  induction l generalizing i end_ with
  | nil => rfl
  | cons e l ih =>
    rw [List.reverse_cons, tiles_append] at htiles
    obtain ⟨mid, htiles, hstart, hle, hfin⟩ := htiles
    obtain ⟨hmagic, he⟩ := hslot 0 (by simp)
    have hs : entryStart m (entryAddr (getTopAligned top - 4096) i) = e.start :=
      congrArg Entry.start he
    have hz : entrySize m (entryAddr (getTopAligned top - 4096) i) = e.size :=
      congrArg Entry.size he
    have hfin' : e.start + e.size = end_ := hfin
    have hsum : u32 (e.start + e.size) = end_ := by rw [u32_eq (by omega), hfin']
    rw [Nat.add_zero] at hmagic
    rw [List.length_cons, validateFrom]
    simp only [hmagic, hs, hz, hsum, Nat.mod_eq_zero_of_dvd (haligned e (by simp)), ne_eq,
      not_true_eq_false, if_false]
    refine ih (by simp only [List.length_cons] at hl; omega) (fun j hj => ?_) (hstart ▸ htiles)
      (by omega) (fun d hd => haligned d (by simp [hd]))
    have := hslot (j + 1) (by simpa using hj)
    rwa [← Nat.add_assoc, Nat.add_right_comm] at this

/-- The entries lie downwards from the top, the root's own first. -/
structure Stacked (top : Nat) (m : Mem) (es : List Entry) : Prop where
  rooted : Rooted top m es
  own : ∃ rest, es = ⟨cbmemIdRoot, getTopAligned top - 4096, 4096⟩ :: rest
  tiles : ∃ bot, Tiles Entry.start Entry.fin bot es.reverse (getTopAligned top)
  aligned : ∀ e ∈ es, dynCbmemAlignSize ∣ e.start

theorem Stacked.warmBoot (h : Stacked top m es) (stage : Stage) :
    cbmemInitialize top stage m = (0, hooks top stage (lockRoot top stage m)) := by
  obtain ⟨h1, h2, -⟩ := getTopAligned_bounds htop hlt
  have hr := h.rooted
  obtain ⟨bot, htiles⟩ := h.tiles
  have hlen := hr.length
  have hval : validateEntries top m (getTopAligned top - 4096) = true := by
    rw [validateEntries, hr.num]
    exact validateFrom_eq_true es (by omega) (by simpa using hr.slot) htiles h2 h.aligned
  have hsum : u32 (4096 + (getTopAligned top - 4096)) = getTopAligned top := by
    rw [u32_eq (by omega)]
    omega
  unfold cbmemInitialize
  simp only [hr.root, hr.max, hr.num, hr.size, hval, hsum]
  rw [if_neg (by omega), if_neg (by omega), if_neg (by omega), if_neg (by decide),
    if_neg (by decide)]

theorem Stacked.lockRoot (h : Stacked top m es) (stage : Stage) :
    Stacked top (lockRoot top stage m) es := by
  unfold Dynamic.lockRoot
  split
  · refine { h with rooted := h.rooted.congr htop hlt fun a _ _ ha => ?_ }
    obtain ⟨h1, h2, -⟩ := getTopAligned_bounds htop hlt
    rw [h.rooted.root]
    exact Mem.read_write_of_ne (by omega) (by omega) ha
  · exact h

-- ---------------------------------------------------------------------------
-- Additions and removals
-- ---------------------------------------------------------------------------

theorem stacked_placeRoot (m : Mem) : Stacked top (placeRoot top m)
    [⟨cbmemIdRoot, getTopAligned top - 4096, 4096⟩] := by
  obtain ⟨h1, h2, hdvd⟩ := getTopAligned_bounds htop hlt
  have hp := pointerAddr_eq htop hlt
  have hroot : alignDown (sub32 (getTopAligned top) rootMinSize) dynCbmemAlignSize =
      getTopAligned top - 4096 := by
    unfold alignDown sub32 rootMinSize dynCbmemAlignSize u32
    omega
  have hmax : sub32 (getTopAligned top - 8) (getTopAligned top - 4096 + sizeofRoot) / sizeofEntry =
      254 := by
    unfold sub32 sizeofRoot sizeofEntry u32
    omega
  have hsize : u32 (sub32 (getTopAligned top - 8) (getTopAligned top - 4096) + sizeofRootPointer) =
      4096 := by
    unfold sub32 sizeofRootPointer u32
    omega
  unfold placeRoot
  simp only [hroot, hp, hmax, hsize]
  set root := getTopAligned top - 4096
  set m' := (((((m.write (getTopAligned top - 8) cbmemPointerMagic).write
    (getTopAligned top - 8 + 4) root).write root 254).write (root + 4) 0).write (root + 8) 0).write
    (root + 12) 4096 with hm'
  have hread : ∀ a, a < 2 ^ 32 → a < root ∨ root + 16 ≤ a → m'.read a =
      ((m.write (getTopAligned top - 8) cbmemPointerMagic).write
        (getTopAligned top - 8 + 4) root).read a := by
    intro a ha hout
    rw [hm', Mem.read_write_of_ne ha (by omega) (by omega),
      Mem.read_write_of_ne ha (by omega) (by omega), Mem.read_write_of_ne ha (by omega) (by omega),
      Mem.read_write_of_ne ha (by omega) (by omega)]
  have hrooted : Rooted top m' [] := by
    constructor
    case root =>
      unfold getRoot
      rw [hp, hread _ (by omega) (by omega), hread _ (by omega) (by omega),
        Mem.read_write_of_ne (by omega) (by omega) (by omega), Mem.read_write, Mem.read_write,
        if_neg (by decide)]
    case max =>
      show m'.read root = 254
      rw [hm', Mem.read_write_of_ne (by omega) (by omega) (by omega),
        Mem.read_write_of_ne (by omega) (by omega) (by omega),
        Mem.read_write_of_ne (by omega) (by omega) (by omega), Mem.read_write]
    case num =>
      show m'.read (root + 4) = 0
      rw [hm', Mem.read_write_of_ne (by omega) (by omega) (by omega),
        Mem.read_write_of_ne (by omega) (by omega) (by omega), Mem.read_write]
    case size => exact Mem.read_write ..
    case length => simp
    case slot => simp
  have hgrown := hrooted.append htop hlt (by simp) ⟨cbmemIdRoot, root, 4096⟩
  rw [hrooted.root] at hgrown
  rw [hrooted.size]
  refine ⟨hgrown.1, ⟨[], rfl⟩, ⟨root, rfl, ?_, ?_⟩, ?_⟩
  · exact Nat.le_add_right root 4096
  · show root + 4096 = getTopAligned top
    omega
  · rintro e he
    rw [List.mem_singleton.mp he]
    show dynCbmemAlignSize ∣ getTopAligned top - 4096
    unfold dynCbmemAlignSize
    omega

theorem Stacked.base (h : Stacked top m es) :
    Tiles Entry.start Entry.fin (cbmemBase top m) es.reverse (getTopAligned top) := by
  have hr := h.rooted
  obtain ⟨rest, hes⟩ := h.own
  obtain ⟨bot, htiles⟩ := h.tiles
  have hpos : 0 < es.length := by simp [hes]
  obtain ⟨pre, last, rfl⟩ : ∃ pre last, es = pre ++ [last] :=
    ⟨es.dropLast, es.getLast (List.length_pos_iff.mp hpos), (List.dropLast_append_getLast _).symm⟩
  have hlast := (hr.slot pre.length (by simp)).2
  have hbase : cbmemBase top m = last.start := by
    have hne := hr.root_ne htop hlt
    unfold cbmemBase
    simp only [hr.root, hr.num] at hne ⊢
    rw [if_neg hne, if_pos hpos]
    simpa [entryAt] using congrArg Entry.start hlast
  rw [List.reverse_append, List.reverse_singleton, List.singleton_append] at htiles ⊢
  exact ⟨hbase.symm, htiles.2.1, htiles.2.2⟩

/-- What a call of `cbmem_entry_add` does, where what it adds fits. -/
inductive Added (top : Nat) (m : Mem) (es : List Entry) (id size64 : Nat) : Nat × Mem → Prop
  | kept (entry : Nat) (h : cbmemEntryFind top m id = 0 → entry = 0) :
    Added top m es id size64 (entry, m)
  | new (entry : Nat) (m' : Mem) (e : Entry) (h : Stacked top m' (es ++ [e]))
      (he : entryAt m' entry = e) (hid : e.id = id) (hsize : size64 ≤ e.size) :
    Added top m es id size64 (entry, m')

theorem Stacked.append {id : Nat} (h : Stacked top m es) (hlen : es.length < 254)
    (hsize : dynCbmemAlignSize ∣ size) (hle : size ≤ cbmemBase top m) :
    Stacked top
      (cbmemEntryAppend m (getTopAligned top - 4096) id (cbmemBase top m - size) size).2
      (es ++ [⟨id, cbmemBase top m - size, size⟩]) := by
  have hr := h.rooted
  have hrooted := (hr.append htop hlt hlen ⟨id, cbmemBase top m - size, size⟩).1
  obtain ⟨rest, hes⟩ := h.own
  have hbase := h.base htop hlt
  rw [hr.root] at hrooted
  refine ⟨hrooted, ⟨rest ++ [⟨id, cbmemBase top m - size, size⟩], ?_⟩,
    ⟨cbmemBase top m - size, ?_⟩, ?_⟩
  · rw [hes]
    rfl
  · rw [List.reverse_append, List.reverse_singleton, List.singleton_append]
    have hfin : Entry.fin ⟨id, cbmemBase top m - size, size⟩ = cbmemBase top m :=
      Nat.sub_add_cancel hle
    exact ⟨rfl, Nat.le_add_right _ _, by rwa [hfin]⟩
  · intro e he
    rcases List.mem_append.mp he with he | he
    · exact h.aligned e he
    · obtain ⟨last, hlast, hstart⟩ : ∃ last ∈ es, last.start = cbmemBase top m := by
        cases hrev : es.reverse with
        | nil => simp [hes] at hrev
        | cons last pre =>
          rw [hrev] at hbase
          exact ⟨last, List.mem_reverse.mp (hrev ▸ List.mem_cons_self), hbase.1⟩
      rw [List.mem_singleton.mp he]
      exact Nat.dvd_sub (hstart ▸ h.aligned last hlast) hsize

theorem Stacked.add (h : Stacked top m es) (id size64 : Nat)
    (hfits : Fits top m (.add id size64)) :
    Added top m es id size64 (cbmemEntryAdd top m id size64) := by
  have hr := h.rooted
  have hlen := hr.length
  by_cases hf : cbmemEntryFind top m id = 0
  · unfold cbmemEntryAdd
    simp only [hf, ne_eq, not_true_eq_false, if_false]
    by_cases hsize : size64 > uintMax
    · rw [if_pos hsize]
      exact .kept 0 fun _ => rfl
    rw [if_neg hsize, if_neg (hr.root_ne htop hlt), hr.root]
    by_cases hlocked : locked m (getTopAligned top - 4096) = 0
    case neg =>
      rw [if_pos hlocked]
      exact .kept 0 fun _ => rfl
    rw [if_neg (not_not.mpr hlocked)]
    by_cases hfull : maxEntries m (getTopAligned top - 4096) = numEntries m (getTopAligned top - 4096)
    · rw [if_pos hfull]
      exact .kept 0 fun _ => rfl
    have hfit : alignUp size64 dynCbmemAlignSize ≤ cbmemBase top m :=
      hfits hf (by omega) (hr.root.symm ▸ hlocked) (by rw [hr.root]; exact Ne.symm hfull)
    rw [if_neg hfull]
    rw [hr.max, hr.num] at hfull
    -- the rounded size is below the base, so neither the sum nor the difference wraps
    have hbase := (h.base htop hlt).le
    obtain ⟨-, h2, -⟩ := getTopAligned_bounds htop hlt
    have hlt' := lt_alignDown_add (size64 + (dynCbmemAlignSize - 1)) (a := dynCbmemAlignSize)
      (by decide)
    have hsum : alignDown (u32 (size64 + (dynCbmemAlignSize - 1))) dynCbmemAlignSize =
        alignUp size64 dynCbmemAlignSize := by
      rw [alignUp, u32_eq]
      unfold alignUp at hfit
      have hdvd := dvd_alignDown (size64 + (dynCbmemAlignSize - 1)) dynCbmemAlignSize
      unfold dynCbmemAlignSize at *
      omega
    have hsub : sub32 (cbmemBase top m) (alignUp size64 dynCbmemAlignSize) =
        cbmemBase top m - alignUp size64 dynCbmemAlignSize := by
      unfold sub32 u32
      omega
    have hlen' : es.length < 254 := by omega
    have hnew := hr.append htop hlt hlen' ⟨id, cbmemBase top m - alignUp size64 dynCbmemAlignSize,
      alignUp size64 dynCbmemAlignSize⟩
    rw [hr.root] at hnew
    rw [hsum, hsub]
    exact .new _ _ _ (h.append htop hlt hlen' (dvd_alignUp _ _) hfit) hnew.2.1 rfl
      (le_alignUp size64 (by decide))
  · rw [cbmemEntryAdd, if_pos hf]
    exact .kept _ fun h0 => absurd h0 hf

theorem Stacked.spans {id : Nat} (h : Stacked top m es) (hfits : Fits top m (.add id size64)) :
    Spans top m id size64 := by
  intro hf hne
  have ha := h.add htop hlt id size64 hfits
  obtain ⟨-, h2, -⟩ := getTopAligned_bounds htop hlt
  rw [h.rooted.entries_eq htop hlt]
  generalize cbmemEntryAdd top m id size64 = r at ha hne ⊢
  cases ha with
  | kept _ h0 => exact absurd (h0 hf) hne
  | new entry m' e h' he hid hsize =>
    obtain ⟨bot, htiles⟩ := h'.tiles
    rw [List.reverse_append, List.reverse_singleton, List.singleton_append] at htiles
    have hend := (htiles.bounds List.mem_cons_self).2.2
    refine ⟨e, he, h'.rooted.entries_eq htop hlt, hid, hsize, by omega, fun d hd => .inl ?_⟩
    exact (htiles.2.2.bounds (List.mem_reverse.mpr hd)).1

theorem Rooted.dropLast {e : Entry} (h : Rooted top m (es ++ [e])) :
    Rooted top (m.write (getTopAligned top - 4096 + 4) es.length) es := by
  obtain ⟨h1, h2, -⟩ := getTopAligned_bounds htop hlt
  have hp := pointerAddr_eq htop hlt
  have hlen := h.length
  rw [List.length_append, List.length_singleton] at hlen
  have hread : ∀ a, a < 2 ^ 32 → a ≠ getTopAligned top - 4096 + 4 →
      (m.write (getTopAligned top - 4096 + 4) es.length).read a = m.read a :=
    fun a ha hne => Mem.read_write_of_ne ha (by omega) hne
  constructor
  case root =>
    refine Eq.trans ?_ h.root
    unfold getRoot
    rw [hp, hread _ (by omega) (by omega), hread _ (by omega) (by omega)]
  case max => exact (hread _ (by omega) (by omega)).trans h.max
  case num => exact Mem.read_write ..
  case size => exact (hread _ (by omega) (by omega)).trans h.size
  case length => omega
  case slot =>
    intro i hi
    have hold := h.slot i (by simp only [List.length_append, List.length_singleton]; omega)
    rw [entryAddr_eq htop hlt (by omega)] at hold ⊢
    obtain ⟨hm, he⟩ := entryAt_congr fun a (h3 : getTopAligned top - 4096 + 16 + 16 * i ≤ a) h4 =>
      hread a (by omega) (by omega)
    rw [hm, he]
    rwa [List.getElem_append_left hi] at hold

theorem Stacked.remove (h : Stacked top m es) (entry : Nat) (hfits : Fits top m (.remove entry)) :
    ∃ es', Stacked top (cbmemEntryRemove top m entry).2 es' := by
  have hr := h.rooted
  have hlen := hr.length
  obtain ⟨rest, hes⟩ := h.own
  have hpos : es.length ≠ 0 := by simp [hes]
  have hsub : sub32 es.length 1 = es.length - 1 := by
    unfold sub32 u32
    omega
  have hroot : getTopAligned top - 4096 ≠ 0 := by
    rw [← hr.root]
    exact hr.root_ne htop hlt
  simp only [Fits, hr.root, hr.num] at hfits
  unfold cbmemEntryRemove
  simp only [hr.root, hr.num, hsub]
  rw [if_neg hroot, if_neg hpos]
  by_cases hlocked : locked m (getTopAligned top - 4096) = 0
  case neg =>
    rw [if_pos hlocked]
    exact ⟨es, h⟩
  rw [if_neg (not_not.mpr hlocked)]
  split
  · next hlast =>
    obtain ⟨pre, last, rfl⟩ : ∃ pre last, rest = pre ++ [last] := by
      refine ⟨rest.dropLast, rest.getLast ?_, (List.dropLast_append_getLast _).symm⟩
      rintro rfl
      simp only [hes, List.length_singleton] at hfits hlast
      exact hfits ⟨trivial, hlast⟩
    rw [← List.cons_append] at hes
    subst hes
    obtain ⟨bot, htiles⟩ := h.tiles
    rw [List.reverse_append, List.reverse_singleton, List.singleton_append] at htiles
    have hrooted := hr.dropLast htop hlt
    rw [List.length_append, List.length_singleton, Nat.add_sub_cancel]
    exact ⟨_, hrooted, ⟨pre, rfl⟩, ⟨_, htiles.2.2⟩,
      fun e he => h.aligned e (List.mem_append_left _ he)⟩
  · exact ⟨es, h⟩

-- ---------------------------------------------------------------------------
-- The hooks
-- ---------------------------------------------------------------------------

theorem Stacked.keepsRoot (h : Stacked top m es) (hkeeps : KeepsRoot top m m') :
    Stacked top m' es :=
  { h with rooted := h.rooted.congr htop hlt fun a hlo hhi _ => hkeeps a hlo hhi }

omit htop hlt in
/-- All entries but the root's own are below its page. -/
theorem Stacked.below (h : Stacked top m es) (he : e ∈ es) (hne : e.id ≠ cbmemIdRoot) :
    e.fin ≤ getTopAligned top - 4096 := by
  obtain ⟨rest, rfl⟩ := h.own
  obtain ⟨bot, htiles⟩ := h.tiles
  rw [List.reverse_cons, tiles_append] at htiles
  obtain ⟨mid, htiles, hmid, -⟩ := htiles
  rcases List.mem_cons.mp he with rfl | he
  · exact absurd rfl hne
  · have hfin := (htiles.bounds (List.mem_reverse.mpr he)).2.2
    rw [← hmid] at hfin
    exact hfin

/-- A copy into an entry stays out of the root's page. -/
theorem Stacked.memcpy {bytes : List Byte} (h : Stacked top m es) (he : e ∈ es)
    (hne : e.id ≠ cbmemIdRoot) (hroom : bytes.length ≤ e.size) :
    Stacked top (m.memcpy e.start bytes) es := by
  obtain ⟨-, h2, -⟩ := getTopAligned_bounds htop hlt
  refine h.keepsRoot htop hlt fun a hlo hhi => Mem.read_memcpy (hhi.trans h2) ?_
  calc e.start + bytes.length ≤ e.fin := Nat.add_le_add_left hroom _
    _ ≤ getTopAligned top - 4096 := h.below he hne
    _ ≤ a := hlo

/-- What a call of `cbmem_add` does, where what it adds fits: there are no fewer entries, and a
pointer is the start of one with the id. -/
structure Grown (top : Nat) (m : Mem) (es : List Entry) (id size : Nat) (r : Nat × Mem)
    (es' : List Entry) : Prop where
  stacked : Stacked top r.2 es'
  kept : es <+: es'
  entry : r.1 ≠ 0 → ∃ e ∈ es', e.start = r.1 ∧ e.id = id ∧
    (lookup top m id = some (e.start, e.size) ∨ size ≤ e.size)

theorem Stacked.cbmemAdd {id : Nat} (h : Stacked top m es) (hfits : Fits top m (.add id size)) :
    ∃ es', Grown top m es id size (cbmemAdd top m id size) es' := by
  have hr := h.rooted
  have ha := h.add htop hlt id size hfits
  unfold Dynamic.cbmemAdd
  rcases hr.find htop hlt id with ⟨h0, -⟩ | ⟨e, h0, hf, he⟩
  · generalize cbmemEntryAdd top m id size = r at ha ⊢
    cases ha with
    | kept entry hentry =>
      simp only [hentry h0, if_true]
      exact ⟨es, h, List.prefix_refl es, fun hne => absurd rfl hne⟩
    | new entry m' e h' he hid hsize =>
      refine ⟨es ++ [e], ?_⟩
      simp only
      split
      case isTrue => exact ⟨h', List.prefix_append es [e], fun hne => absurd rfl hne⟩
      case isFalse =>
        refine ⟨h', List.prefix_append es [e], fun _ => ⟨e, ?_, ?_, hid, Or.inr hsize⟩⟩
        · exact List.mem_append_right es (List.mem_singleton.mpr rfl)
        · exact (congrArg Entry.start he).symm
  · have hadd : cbmemEntryAdd top m id size = (cbmemEntryFind top m id, m) := by
      rw [cbmemEntryAdd, if_pos h0]
    have hlookup : lookup top m id = some (e.start, e.size) := by
      rw [hr.lookup_eq htop hlt, hf]
      rfl
    rw [hadd]
    simp only [if_neg h0]
    refine ⟨es, h, List.prefix_refl es, fun _ => ⟨e, List.mem_of_find?_eq_some hf, ?_, ?_,
      Or.inl hlookup⟩⟩
    · exact (congrArg Entry.start he).symm
    · simpa using List.find?_some hf

theorem Stacked.migrations (h : Stacked top m es) {migrations : List Migration}
    (hfits : MigrationsFit top migrations m) :
    ∃ es', es <+: es' ∧ Stacked top (migrations.foldl (fun m migration => migration.call top m) m)
      es' := by
  induction migrations generalizing m es with
  | nil => exact ⟨es, List.prefix_refl es, h⟩
  | cons migration migrations ih =>
    obtain ⟨hadd, hkeeps, hrest⟩ := hfits
    obtain ⟨es', hgrown⟩ := h.cbmemAdd htop hlt hadd
    obtain ⟨es'', hmore, hstacked⟩ := ih (hgrown.stacked.keepsRoot htop hlt hkeeps) hrest
    exact ⟨es'', hgrown.kept.trans hmore, hstacked⟩

omit htop hlt in
theorem cbmemFind_of_lookup {id : Nat} (h : lookup top m id = some (start, size)) :
    cbmemFind top m id = start := by
  unfold lookup at h
  unfold cbmemFind
  simp only at h ⊢
  split at h
  case isTrue => cases h
  case isFalse hentry =>
    rw [if_neg hentry]
    exact congrArg Prod.fst (Option.some.inj h)

theorem Stacked.moveGdt (h : Stacked top m es)
    (hfits : Fits top m (.add cbmemIdGdt (alignUp gdt.length 512))) :
    ∃ es', es <+: es' ∧ Stacked top (moveGdt top m) es' := by
  unfold Dynamic.moveGdt
  split
  case isTrue => exact ⟨es, List.prefix_refl es, h⟩
  case isFalse hfind =>
    obtain ⟨es', hgrown⟩ := h.cbmemAdd htop hlt hfits
    simp only
    split
    case isTrue => exact ⟨es', hgrown.kept, hgrown.stacked⟩
    case isFalse hne =>
      obtain ⟨e, he, hstart, hid, hroom⟩ := hgrown.entry hne
      refine ⟨es', hgrown.kept, ?_⟩
      rw [← hstart]
      refine hgrown.stacked.memcpy htop hlt he (by rw [hid]; decide) ?_
      -- there was none: what was found would have been at address 0
      rcases hroom with hold | hroom
      · rw [cbmemFind_of_lookup hold, hstart] at hfind
        exact absurd hne hfind
      · exact Nat.le_trans (by decide) hroom

theorem Stacked.carMigrateVariables (h : Stacked top m es) {stage : Stage}
    (hpre : stage.preRam = true) (hfits : HooksFit top stage m) :
    ∃ es', es <+: es' ∧ Stacked top (carMigrateVariables top stage m).2 es' := by
  unfold Dynamic.carMigrateVariables
  simp only [hpre, Bool.true_eq_false, if_false]
  cases hmigrated : stage.carMigrated with
  | true => exact ⟨es, List.prefix_refl es, h⟩
  | false =>
    obtain ⟨es', hgrown⟩ := h.cbmemAdd htop hlt (hfits.car hpre hmigrated)
    simp only [Bool.false_eq_true, if_false]
    split
    case isTrue => exact ⟨es', hgrown.kept, hgrown.stacked⟩
    case isFalse hne =>
      obtain ⟨e, he, hstart, hid, hroom⟩ := hgrown.entry hne
      have hlength : stage.carData.length ≤ e.size := by
        rcases hroom with hold | hroom
        · exact hfits.carRoom hpre hmigrated _ _ hold
        · exact hroom
      have hcopied := hgrown.stacked.memcpy htop hlt he (by rw [hid]; decide) hlength
      rw [hstart] at hcopied
      obtain ⟨es'', hmore, hstacked⟩ :=
        hcopied.migrations htop hlt (hfits.migrations hpre hmigrated hne)
      exact ⟨es'', hgrown.kept.trans hmore, hstacked⟩

/-- The hooks only add entries. -/
theorem Stacked.hooks (h : Stacked top m es) {stage : Stage} (hfits : HooksFit top stage m) :
    ∃ es', es <+: es' ∧ Stacked top (hooks top stage m).2 es' := by
  unfold Dynamic.hooks cbmemArchInit
  cases hpre : stage.preRam with
  | true => exact h.carMigrateVariables htop hlt hpre hfits
  | false =>
    unfold Dynamic.carMigrateVariables
    simp only [hpre, if_true]
    exact h.moveGdt htop hlt (hfits.gdt hpre)

/-- Ids in a table stay where they are when it grows. -/
theorem Stacked.lookup_of_prefix {m' : Mem} {id : Nat} (h : Stacked top m es)
    (h' : Stacked top m' es') (hmore : es <+: es') (hfound : lookup top m id = some place) :
    lookup top m' id = some place := by
  obtain ⟨more, rfl⟩ := hmore
  rw [h.rooted.lookup_eq htop hlt] at hfound
  rw [h'.rooted.lookup_eq htop hlt, List.find?_append]
  cases hf : es.find? (·.id == id) with
  | none =>
    rw [hf] at hfound
    cases hfound
  | some e =>
    rw [hf] at hfound
    exact hfound

theorem Stacked.recovers (h : Stacked top m es) : Recovers top (HooksFit top) m := by
  refine ⟨?_, fun stage => ?_, fun stage hfits id place hfound => ?_⟩
  · rw [h.rooted.entries_eq htop hlt]
    exact h.tiles
  · rw [h.warmBoot htop hlt]
  · have hlocked := h.lockRoot htop hlt stage
    obtain ⟨es', hmore, hstacked⟩ := hlocked.hooks htop hlt hfits
    rw [h.warmBoot htop hlt]
    exact h.lookup_of_prefix htop hlt hstacked hmore hfound

-- ---------------------------------------------------------------------------
-- Runs
-- ---------------------------------------------------------------------------

theorem Reach.stacked (h : Reach top (Fits top) (HooksFit top) m) : ∃ es, Stacked top m es := by
  induction h with
  | empty stage m hfits =>
    obtain ⟨es, -, hs⟩ := (stacked_placeRoot htop hlt m).hooks htop hlt hfits
    exact ⟨es, hs⟩
  | @step m op _ hfits ih =>
    obtain ⟨es, hs⟩ := ih
    cases op with
    | add id size64 =>
      have ha := hs.add htop hlt id size64 hfits
      simp only [exec]
      generalize cbmemEntryAdd top m id size64 = r at ha ⊢
      cases ha with
      | kept _ _ => exact ⟨es, hs⟩
      | new _ _ e h' _ _ _ => exact ⟨_, h'⟩
    | remove entry => exact hs.remove htop hlt entry hfits

/-- Where every addition fits and the root's own entry stays, a warm boot
takes over the root of every run. -/
theorem survivesWarmBoot_fits : SurvivesWarmBoot top (Fits top) (HooksFit top) := by
  intro m hm
  obtain ⟨es, hs⟩ := hm.stacked htop hlt
  exact ⟨hs.recovers htop hlt, fun id size64 hfits => hs.spans htop hlt hfits⟩

end Rooted

/-- A ramstage, which moves the GDT. -/
def ramstage : Stage where
  preRam := false
  carMigrated := false
  carData := []
  migrations := []
  haveAcpiResume := false
  acpiSlpType := 0

/-- 2 GiB of memory that a ramstage has set up, and one entry of 64 KiB. -/
theorem survivesWarmBoot_fits_2GiB : Recovers 0x80000000 (HooksFit 0x80000000)
    (exec 0x80000000 (cbmemInitializeEmpty 0x80000000 ramstage fun _ => 0).2 (.add 5 0x10000)) := by
  have hhooks : HooksFit 0x80000000 ramstage (placeRoot 0x80000000 fun _ => 0) :=
    ⟨fun _ _ _ _ _ => by decide +kernel, fun h => absurd h Bool.false_ne_true,
      fun h => absurd h Bool.false_ne_true, fun h => absurd h Bool.false_ne_true⟩
  have hadd : Fits 0x80000000 (cbmemInitializeEmpty 0x80000000 ramstage fun _ => 0).2
      (.add 5 0x10000) := fun _ _ _ _ => by decide +kernel
  exact (survivesWarmBoot_fits (by decide) (by decide) _ (.step _ (.empty _ _ hhooks) hadd)).1

/-- Rounded up to pages, a size above 4 GiB - 4 KiB is 0. -/
theorem not_survivesWarmBoot_2GiB :
    ¬ SurvivesWarmBoot 0x80000000 (fun _ _ => True) (fun _ _ => True) := by
  intro h
  have hspans := (h _ (.empty ramstage (fun _ => 0) trivial)).2 5 0xffffffff trivial
  obtain ⟨e, rfl, -, -, hsize, -⟩ := hspans (by decide +kernel) (by decide +kernel)
  exact absurd hsize (by decide +kernel)

end ItxLlama.Coreboot.Dynamic
