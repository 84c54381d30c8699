import ItxLlama.Seabios.Memmap

/-!
# The e820 map means the last call

One call of `add_e820` keeps the table canonical and overrides its meaning
on the call's range; over a run, the type found at an address is that of
the last call that covers it. Both hold as long as `insert_e820` never
refuses an entry.
-/

namespace ItxLlama.Seabios

open Lib.Word Lib.Ranges

def E820Entry.range (e : E820Entry) : Range Nat := ⟨e.start, e.start + e.size, e.type⟩

abbrev ranges (l : List E820Entry) : List (Range Nat) := l.map E820Entry.range

/-- No entry reaches the end of the address space, and none is a hole. -/
structure EntriesOk (l : List E820Entry) : Prop where
  fits : ∀ e ∈ l, e.start + e.size < 2 ^ 64
  noHole : ∀ e ∈ l, e.type ≠ e820Hole

theorem entriesOk_append {l m : List E820Entry} :
    EntriesOk (l ++ m) ↔ EntriesOk l ∧ EntriesOk m := by
  constructor
  · intro h
    exact ⟨⟨fun e he => h.fits e (by simp [he]), fun e he => h.noHole e (by simp [he])⟩,
      ⟨fun e he => h.fits e (by simp [he]), fun e he => h.noHole e (by simp [he])⟩⟩
  · rintro ⟨hl, hm⟩
    constructor <;> intro e he <;> rcases List.mem_append.mp he with he | he
    · exact hl.fits e he
    · exact hm.fits e he
    · exact hl.noHole e he
    · exact hm.noHole e he

theorem entriesOk_cons {e : E820Entry} {l : List E820Entry} : EntriesOk (e :: l) ↔
    (e.start + e.size < 2 ^ 64 ∧ e.type ≠ e820Hole) ∧ EntriesOk l := by
  rw [← List.singleton_append, entriesOk_append]
  exact and_congr_left fun _ => ⟨fun h => ⟨h.fits e (by simp), h.noHole e (by simp)⟩,
    fun h => ⟨by simpa using h.1, by simpa using h.2⟩⟩

theorem EntriesOk.has {l : List E820Entry} (h : EntriesOk l) (ha : Has (ranges l) a t) :
    t ≠ e820Hole := by
  obtain ⟨r, hr, -, rfl⟩ := ha
  obtain ⟨e, he, rfl⟩ := List.mem_map.mp hr
  exact h.noHole e he

/-- The table's invariant. -/
structure E820Inv (l : List E820Entry) : Prop where
  canonical : Canonical (ranges l)
  ok : EntriesOk l

-- ---------------------------------------------------------------------------
-- The scans
-- ---------------------------------------------------------------------------

theorem findE820_spec (start : Nat) (l : List E820Entry) (i : Nat) :
    ∃ pre rest, l = pre ++ rest ∧ findE820 start l i = (i + pre.length, rest.head?) ∧
      (∀ e ∈ pre, e.eEnd < start) ∧ ∀ e ∈ rest.head?, start ≤ e.eEnd := by
  induction l generalizing i with
  | nil => exact ⟨[], [], rfl, rfl, by simp, by simp⟩
  | cons e es ih =>
    by_cases h : start > e.eEnd
    · obtain ⟨pre, rest, rfl, hf, hp, hr⟩ := ih (i + 1)
      refine ⟨e :: pre, rest, rfl, ?_, ?_, hr⟩
      · simp only [findE820, if_pos h, hf, List.length_cons]
        rw [Nat.add_assoc, Nat.add_comm 1]
      · intro x hx
        rcases List.mem_cons.mp hx with rfl | hx
        · exact h
        · exact hp x hx
    · exact ⟨[], e :: es, rfl, by simp [findE820, h], by simp, by simpa using h⟩

/-- What the second scan leaves: entries that start at or after the new end
`end'`, where it has grown by a merged neighbour, with their meaning. -/
structure Trimmed (end_ type : Nat) (es es' : List E820Entry) (end' : Nat) : Prop where
  le : end_ ≤ end'
  inv : E820Inv es'
  after : ∀ e ∈ es', end' ≤ e.start ∧ (end' = e.start → type ≠ e.type)
  has : ∀ a t, Has (ranges es') a t ↔ end' ≤ a ∧ Has (ranges es) a t
  merged : ∀ a, end_ ≤ a → a < end' → Has (ranges es) a type
  lt : end' < 2 ^ 64

theorem removeOverlap_spec (type : Nat) {es : List E820Entry} (h : E820Inv es) (hs : size ≤ end_)
    (he : end_ < 2 ^ 64) :
    ∃ es' end', removeOverlap end_ type es size = (es', size + (end' - end_)) ∧
      Trimmed end_ type es es' end' := by
  induction es with
  | nil =>
    refine ⟨[], end_, by simp [removeOverlap], le_rfl, h, by simp, by simp [ranges], ?_, he⟩
    intro a h1 h2
    omega
  | cons e es ih =>
    obtain ⟨hne, hbefore, hcan⟩ := canonical_cons.mp h.canonical
    obtain ⟨⟨hfit, hty⟩, hok⟩ := entriesOk_cons.mp h.ok
    have hend : e.eEnd = e.start + e.size := u64_eq hfit
    have hafter : ∀ x ∈ es, e.start + e.size ≤ x.start ∧
        (e.start + e.size = x.start → e.type ≠ x.type) :=
      fun x hx => hbefore x.range (List.mem_map_of_mem hx)
    have hpos : 0 < e.size := by
      simp only [E820Entry.range] at hne
      omega
    have hlater : ∀ a t, Has (ranges es) a t → e.start + e.size ≤ a := by
      rintro a t ⟨r, hr, hc, -⟩
      obtain ⟨x, hx, rfl⟩ := List.mem_map.mp hr
      exact Nat.le_trans (hafter x hx).1 hc.1
    by_cases hlt : end_ < e.start
    · -- the scan stops before `e`
      refine ⟨e :: es, end_, by simp [removeOverlap, hlt], le_rfl, h, ?_, ?_, ?_, he⟩
      · intro x hx
        rcases List.mem_cons.mp hx with rfl | hx
        · omega
        · have := (hafter x hx).1
          omega
      · intro a t
        simp only [iff_and_self]
        rintro ⟨r, hr, hc, -⟩
        obtain ⟨x, hx, rfl⟩ := List.mem_map.mp hr
        have hxa : x.start ≤ a := hc.1
        rcases List.mem_cons.mp hx with rfl | hx
        · omega
        · have := (hafter x hx).1
          omega
      · intro a h1 h2
        omega
    · by_cases hge : end_ ≥ e.eEnd
      · -- `e` is swallowed
        obtain ⟨es', end', hrun, ht⟩ := ih ⟨hcan, hok⟩
        refine ⟨es', end', by simp only [removeOverlap, if_neg hlt, if_pos hge, hrun], ?_⟩
        refine ⟨ht.le, ht.inv, ht.after, ?_, ?_, ht.lt⟩
        · intro a t
          rw [ht.has]
          refine and_congr_right fun ha => ?_
          simp only [ranges, List.map_cons, has_cons, E820Entry.range, Range.Covers]
          have := ht.le
          exact ⟨.inr, fun h => h.resolve_left fun hc => by omega⟩
        · intro a h1 h2
          simp only [ranges, List.map_cons, has_cons]
          exact .inr (ht.merged a h1 h2)
      · by_cases hty' : type = e.type
        · -- `e` sticks out and merges into the new entry
          have hsize : u64 (size + (e.eEnd - end_)) = size + (e.eEnd - end_) := u64_eq (by omega)
          refine ⟨es, e.eEnd, by simp [removeOverlap, hlt, hge, hty', hsize], ?_⟩
          refine ⟨by omega, ⟨hcan, hok⟩, ?_, ?_, ?_, by omega⟩
          · intro x hx
            rw [hend, hty']
            exact hafter x hx
          · intro a t
            simp only [ranges, List.map_cons, has_cons, E820Entry.range, Range.Covers]
            constructor
            · intro ha
              exact ⟨hend ▸ hlater a t ha, .inr ha⟩
            · rintro ⟨ha, hc | hc⟩
              · omega
              · exact hc
          · intro a h1 h2
            simp only [ranges, List.map_cons, has_cons, E820Entry.range, Range.Covers]
            exact .inl ⟨by omega, hty'.symm⟩
        · -- `e` keeps what sticks out
          refine ⟨⟨end_, e.eEnd - end_, e.type⟩ :: es, end_,
            by simp [removeOverlap, hlt, hge, hty'], le_rfl, ⟨?_, ?_⟩, ?_, ?_, ?_, he⟩
          · refine canonical_cons.mpr ⟨by simp only [E820Entry.range]; omega, ?_, hcan⟩
            intro r hr
            have := hbefore r hr
            simp only [E820Entry.range, Range.Before] at this ⊢
            rw [hend, show end_ + (e.start + e.size - end_) = e.start + e.size by omega]
            exact this
          · exact entriesOk_cons.mpr ⟨⟨by simp only; omega, hty⟩, hok⟩
          · intro x hx
            rcases List.mem_cons.mp hx with rfl | hx
            · exact ⟨le_rfl, fun _ => hty'⟩
            · have := (hafter x hx).1
              omega
          · intro a t
            simp only [ranges, List.map_cons, has_cons, E820Entry.range, Range.Covers]
            constructor
            · rintro (⟨hc, rfl⟩ | ha)
              · exact ⟨hc.1, .inl ⟨by omega, rfl⟩⟩
              · have := hlater a t ha
                exact ⟨by omega, .inr ha⟩
            · rintro ⟨ha, ⟨hc, rfl⟩ | hc⟩
              · exact .inl ⟨by omega, rfl⟩
              · exact .inr hc
          · intro a h1 h2
            omega

/-- The table around the new entry, whose start `start'` is lower than
`start` where it has taken over the head of a neighbour. -/
structure Cut (l : List E820Entry) (start end_ type : Nat) (pre rest : List E820Entry)
    (start' : Nat) : Prop where
  le : start' ≤ start
  invPre : E820Inv pre
  invRest : E820Inv rest
  before : ∀ e ∈ pre, e.start + e.size ≤ start' ∧ (e.start + e.size = start' → e.type ≠ type)
  hasPre : ∀ a t, Has (ranges pre) a t ↔ a < start' ∧ Has (ranges l) a t
  hasRest : ∀ a t, end_ ≤ a → (Has (ranges rest) a t ↔ Has (ranges l) a t)
  merged : ∀ a, start' ≤ a → a < start → Has (ranges l) a type

theorem insertE820_warn {m : E820Map} (hw : w ≤ m.warnNoalloc) :
    w ≤ (insertE820 i e m).warnNoalloc := by
  unfold insertE820
  split
  · exact Nat.le_succ_of_le hw
  · exact hw

theorem insertE820_append {m : E820Map} {pre rest : List E820Entry} (hl : m.list = pre ++ rest)
    (hw : (insertE820 pre.length e m).warnNoalloc = m.warnNoalloc) :
    (insertE820 pre.length e m).list = pre ++ e :: rest := by
  unfold insertE820 at hw ⊢
  split at hw
  · simp at hw
  next h =>
    rw [if_neg h]
    simp [hl]

theorem E820Inv.append {pre rest : List E820Entry} (h : E820Inv (pre ++ rest)) :
    E820Inv pre ∧ E820Inv rest ∧
    ∀ x ∈ pre, ∀ y ∈ rest, x.start + x.size ≤ y.start := by
  obtain ⟨hcan, hok⟩ := h
  rw [ranges, List.map_append, canonical_append] at hcan
  rw [entriesOk_append] at hok
  refine ⟨⟨hcan.1, hok.1⟩, ⟨hcan.2.1, hok.2⟩, fun x hx y hy => ?_⟩
  exact (hcan.2.2 x.range (List.mem_map_of_mem hx) y.range (List.mem_map_of_mem hy)).1

theorem has_lt {l : List E820Entry} (hl : ∀ e ∈ l, e.start + e.size ≤ b)
    (ha : Has (ranges l) a t) : a < b := by
  obtain ⟨r, hr, hc, -⟩ := ha
  obtain ⟨x, hx, rfl⟩ := List.mem_map.mp hr
  exact Nat.lt_of_lt_of_le hc.2 (hl x hx)

theorem has_ge {l : List E820Entry} (hl : ∀ e ∈ l, b ≤ e.start) (ha : Has (ranges l) a t) :
    b ≤ a := by
  obtain ⟨r, hr, hc, -⟩ := ha
  obtain ⟨x, hx, rfl⟩ := List.mem_map.mp hr
  exact Nat.le_trans (hl x hx) hc.1

/-- The new entry does not reach into an entry that starts before it: the
table is cut between two entries. -/
theorem cut_between {pre rest : List E820Entry} (h : E820Inv (pre ++ rest))
    (hp : ∀ e ∈ pre, e.start + e.size < start)
    (hr : ∀ e ∈ rest, start ≤ e.start) (hse : start < end_) :
    Cut (pre ++ rest) start end_ type pre rest start := by
  obtain ⟨hpre, hrest, -⟩ := h.append
  refine ⟨le_rfl, hpre, hrest, fun e he => ⟨Nat.le_of_lt (hp e he), fun heq => ?_⟩, ?_, ?_, ?_⟩
  · have := hp e he
    omega
  · intro a t
    rw [ranges, ranges, List.map_append, has_append]
    constructor
    · intro ha
      exact ⟨has_lt (fun e he => Nat.le_of_lt (hp e he)) ha, .inl ha⟩
    · rintro ⟨hlt, ha | ha⟩
      · exact ha
      · have := has_ge hr ha
        omega
  · intro a t hle
    rw [ranges, ranges, List.map_append, has_append]
    refine ⟨.inr, fun ha => ha.resolve_left fun ha => ?_⟩
    have := has_lt (fun e he => Nat.le_of_lt (hp e he)) ha
    omega
  · intro a h1 h2
    omega

/-- The entry before the new one has its type and touches it: the new entry
takes over its start. -/
theorem cut_merge {pre es : List E820Entry} {e : E820Entry} (h : E820Inv (pre ++ e :: es))
    (hlt : e.start < start) (hle : start ≤ e.start + e.size) (hse : start < end_) :
    Cut (pre ++ e :: es) start end_ e.type pre (e :: es) e.start := by
  obtain ⟨hpre, hrest, hb⟩ := h.append
  have hbefore : ∀ x ∈ pre, x.start + x.size ≤ e.start := fun x hx => hb x hx e (by simp)
  have hcan := h.canonical
  rw [ranges, List.map_append, canonical_append] at hcan
  have hafter : ∀ x ∈ e :: es, e.start ≤ x.start := by
    intro x hx
    rcases List.mem_cons.mp hx with rfl | hx
    · exact le_rfl
    · have := ((canonical_cons.mp hrest.canonical).2.1 x.range (List.mem_map_of_mem hx)).1
      simp only [E820Entry.range] at this
      omega
  refine ⟨Nat.le_of_lt hlt, hpre, hrest, fun x hx => ⟨hbefore x hx, fun heq => ?_⟩, ?_, ?_, ?_⟩
  · exact (hcan.2.2 x.range (List.mem_map_of_mem hx) e.range (by simp)).2 heq
  · intro a t
    rw [ranges, ranges, List.map_append, has_append]
    constructor
    · intro ha
      exact ⟨has_lt hbefore ha, .inl ha⟩
    · rintro ⟨ha, hc | hc⟩
      · exact hc
      · have := has_ge hafter hc
        omega
  · intro a t ha
    rw [ranges, ranges, List.map_append, has_append]
    refine ⟨.inr, fun hc => hc.resolve_left fun hc => ?_⟩
    have := has_lt hbefore hc
    omega
  · intro a h1 h2
    exact ⟨e.range, by simp, ⟨h1, by simp only [E820Entry.range]; omega⟩, rfl⟩

/-- The entry before the new one has another type: it is cut short, and
what sticks out behind the new entry becomes an entry of its own. -/
theorem cut_trim {pre es : List E820Entry} {e : E820Entry} (h : E820Inv (pre ++ e :: es))
    (hlt : e.start < start) (hle : start ≤ e.start + e.size) (hse : start < end_)
    (hty : type ≠ e.type) :
    Cut (pre ++ e :: es) start end_ type (pre ++ [{ e with size := start - e.start }])
      (if e.start + e.size > end_ then ⟨end_, e.start + e.size - end_, e.type⟩ :: es else es)
      start := by
  obtain ⟨hpre, hrest, hb⟩ := h.append
  have hbefore : ∀ x ∈ pre, x.start + x.size ≤ e.start := fun x hx => hb x hx e (by simp)
  have hcan := h.canonical
  rw [ranges, List.map_append, canonical_append] at hcan
  obtain ⟨hne, hafter, hcanes⟩ := canonical_cons.mp hrest.canonical
  obtain ⟨⟨hfit, hnh⟩, hokes⟩ := entriesOk_cons.mp hrest.ok
  have hes : ∀ x ∈ es, e.start + e.size ≤ x.start :=
    fun x hx => (hafter x.range (List.mem_map_of_mem hx)).1
  refine ⟨le_rfl, ⟨?_, ?_⟩, ?_, ?_, ?_, ?_, fun a h1 h2 => by omega⟩
  · -- the head stays canonical
    rw [ranges, List.map_append, canonical_append]
    refine ⟨hpre.canonical, canonical_cons.mpr ⟨?_, by simp, canonical_nil⟩, ?_⟩
    · simp only [E820Entry.range]
      omega
    · intro r hr s hs
      obtain rfl : s = _ := by simpa using hs
      exact hcan.2.2 r hr e.range (by simp)
  · exact entriesOk_append.mpr ⟨hpre.ok, entriesOk_cons.mpr
      ⟨⟨by simp only; omega, hnh⟩, ⟨by simp, by simp⟩⟩⟩
  · split
    · refine ⟨canonical_cons.mpr ⟨by simp only [E820Entry.range]; omega, ?_, hcanes⟩,
        entriesOk_cons.mpr ⟨⟨by simp only; omega, hnh⟩, hokes⟩⟩
      intro r hr
      have := hafter r hr
      simp only [E820Entry.range, Range.Before] at this ⊢
      rwa [show end_ + (e.start + e.size - end_) = e.start + e.size by omega]
    · exact ⟨hcanes, hokes⟩
  · intro x hx
    rcases List.mem_append.mp hx with hx | hx
    · have := hbefore x hx
      omega
    · obtain rfl : x = _ := by simpa using hx
      exact ⟨by simp only; omega, fun _ => hty.symm⟩
  · intro a t
    simp only [ranges, List.map_append, List.map_cons, List.map_nil, has_append, has_cons,
      has_nil, or_false, E820Entry.range, Range.Covers]
    constructor
    · rintro (ha | ⟨hc, rfl⟩)
      · exact ⟨by have := has_lt hbefore ha; omega, .inl ha⟩
      · exact ⟨by omega, .inr (.inl ⟨by omega, rfl⟩)⟩
    · rintro ⟨hlt', ha | ⟨hc, rfl⟩ | ha⟩
      · exact .inl ha
      · exact .inr ⟨by omega, rfl⟩
      · have := has_ge hes ha
        omega
  · intro a t ha
    have hnpre : ¬ Has (ranges pre) a t := fun hc => by
      have := has_lt hbefore hc
      omega
    rw [ranges, ranges, List.map_append, has_append, List.map_cons, has_cons]
    simp only [E820Entry.range, Range.Covers, hnpre, false_or]
    split
    · simp only [List.map_cons, has_cons, E820Entry.range, Range.Covers]
      constructor
      · rintro (⟨hc, rfl⟩ | hc)
        · exact .inl ⟨by omega, rfl⟩
        · exact .inr hc
      · rintro (⟨hc, rfl⟩ | hc)
        · exact .inl ⟨by omega, rfl⟩
        · exact .inr hc
    · refine ⟨.inr, fun hc => hc.resolve_left fun hc => ?_⟩
      omega

theorem splitE820_spec {m : E820Map} (h : E820Inv m.list) (hpos : 0 < size)
    (hfit : start + size < 2 ^ 64)
    (hw : (splitE820 start (start + size) size type m).2.2.2.warnNoalloc = m.warnNoalloc) :
    ∃ pre rest start' m', splitE820 start (start + size) size type m =
        (pre.length, start', size + (start - start'), m') ∧
      m'.list = pre ++ rest ∧ m'.warnNoalloc = m.warnNoalloc ∧
      Cut m.list start (start + size) type pre rest start' := by
  obtain ⟨pre, rest, hl, hf, hp, hr⟩ := findE820_spec start m.list 0
  rw [Nat.zero_add] at hf
  have hok := h.ok
  rw [hl] at h hok ⊢
  have hend : ∀ e ∈ pre ++ rest, e.eEnd = e.start + e.size := fun e he => u64_eq (hok.fits e he)
  have hp' : ∀ e ∈ pre, e.start + e.size < start :=
    fun e he => hend e (by simp [he]) ▸ hp e he
  cases rest with
  | nil =>
    refine ⟨pre, [], start, m, by simp [splitE820, hf], hl, rfl, ?_⟩
    exact cut_between h hp' (by simp) (by omega)
  | cons e es =>
    have hee := hend e (by simp)
    have hle : start ≤ e.start + e.size := hee ▸ hr e rfl
    simp only [splitE820, hf, List.head?_cons] at hw ⊢
    by_cases hlt : start > e.start
    · rw [if_pos hlt] at hw ⊢
      by_cases hty : type = e.type
      · subst hty
        rw [if_pos rfl, u64_eq (by omega)]
        exact ⟨pre, e :: es, e.start, m, rfl, hl, rfl, cut_merge h hlt hle (by omega)⟩
      · rw [if_neg hty] at hw ⊢
        have hset : m.list.set pre.length { e with size := start - e.start } =
            (pre ++ [{ e with size := start - e.start }]) ++ es := by
          simp [hl]
        have hcut := cut_trim h hlt hle (show start < start + size by omega) hty
        have hlen : pre.length + 1 = (pre ++ [{ e with size := start - e.start }]).length := by
          simp
        rw [hset, hlen] at hw ⊢
        rw [hee] at hw ⊢
        by_cases hout : e.start + e.size > start + size
        · rw [if_pos hout] at hw hcut ⊢
          exact ⟨_, _, start, _, by rw [Nat.sub_self, Nat.add_zero], insertE820_append rfl hw, hw,
            hcut⟩
        · rw [if_neg hout] at hcut ⊢
          refine ⟨_, es, start, ⟨_ ++ es, m.warnNoalloc⟩, ?_, rfl, rfl, hcut⟩
          rw [Nat.sub_self, Nat.add_zero]
    · rw [if_neg hlt]
      refine ⟨pre, e :: es, start, m, by simp, hl, rfl, cut_between h hp' ?_ (by omega)⟩
      intro x hx
      rcases List.mem_cons.mp hx with rfl | hx
      · omega
      · have hb := (canonical_cons.mp h.append.2.1.canonical).2.1 x.range (List.mem_map_of_mem hx)
        simp only [E820Entry.range, Range.Before] at hb
        omega

-- ---------------------------------------------------------------------------
-- One call
-- ---------------------------------------------------------------------------

/-- What a call of `add_e820` assigns. -/
def addWrite (start size type : Nat) : Write Nat :=
  ⟨start, start + size, if type = e820Hole then none else some type⟩

theorem splitE820_warn (start end_ size type : Nat) (m : E820Map) :
    m.warnNoalloc ≤ (splitE820 start end_ size type m).2.2.2.warnNoalloc := by
  unfold splitE820
  split
  · exact le_rfl
  · split
    · split
      · exact le_rfl
      · dsimp only
        split
        · exact insertE820_warn le_rfl
        · exact le_rfl
    · exact le_rfl

theorem addE820_warn (start size type : Nat) (m : E820Map) :
    m.warnNoalloc ≤ (addE820 start size type m).warnNoalloc := by
  unfold addE820
  split
  · exact le_rfl
  · refine Nat.le_trans (splitE820_warn start (u64 (start + size)) size type m) ?_
    dsimp only
    split
    · exact insertE820_warn le_rfl
    · exact le_rfl

section

variable {l pre rest rest' : List E820Entry} {start end_ type start' end' : Nat}

theorem Cut.inv (hc : Cut l start end_ type pre rest start')
    (ht : Trimmed end_ type rest rest' end') (hse : start < end_) :
    E820Inv (pre ++ rest') := by
  have hlt : ∀ r ∈ ranges pre, ∀ s ∈ ranges rest', r.hi < s.lo := by
    intro r hr s hs
    obtain ⟨x, hx, rfl⟩ := List.mem_map.mp hr
    obtain ⟨y, hy, rfl⟩ := List.mem_map.mp hs
    have h1 := (hc.before x hx).1
    have h2 := (ht.after y hy).1
    have h3 := ht.le
    have h4 := hc.le
    simp only [E820Entry.range]
    omega
  refine ⟨?_, entriesOk_append.mpr ⟨hc.invPre.ok, ht.inv.ok⟩⟩
  rw [ranges, List.map_append]
  exact canonical_append_of_lt hc.invPre.canonical ht.inv.canonical hlt

theorem Cut.invInsert (hc : Cut l start end_ type pre rest start')
    (ht : Trimmed end_ type rest rest' end') (hse : start < end_) (hty : type ≠ e820Hole) :
    E820Inv (pre ++ ⟨start', end' - start', type⟩ :: rest') := by
  have h3 := ht.le
  have h4 := hc.le
  have hend : start' + (end' - start') = end' := by omega
  have hall := hc.inv ht hse
  refine ⟨?_, entriesOk_append.mpr ⟨hc.invPre.ok, entriesOk_cons.mpr
    ⟨⟨by simp only [hend]; exact ht.lt, hty⟩, ht.inv.ok⟩⟩⟩
  have hcan := hall.canonical
  rw [ranges, List.map_append, canonical_append] at hcan
  rw [ranges, List.map_append, List.map_cons, canonical_append]
  refine ⟨hcan.1, canonical_cons.mpr ⟨by simp only [E820Entry.range]; omega, ?_, hcan.2.1⟩, ?_⟩
  · intro s hs
    obtain ⟨y, hy, rfl⟩ := List.mem_map.mp hs
    simp only [E820Entry.range, Range.Before, hend]
    exact ht.after y hy
  · intro r hr s hs
    rcases List.mem_cons.mp hs with rfl | hs
    · obtain ⟨x, hx, rfl⟩ := List.mem_map.mp hr
      exact hc.before x hx
    · exact hcan.2.2 r hr s hs

theorem Cut.has (hc : Cut l start end_ type pre rest start')
    (ht : Trimmed end_ type rest rest' end') (a t : Nat) :
    Has (ranges (pre ++ rest')) a t ↔ (a < start' ∨ end' ≤ a) ∧ Has (ranges l) a t := by
  have h3 := ht.le
  rw [ranges, List.map_append, has_append, hc.hasPre, ht.has, or_and_right]
  refine or_congr_right (and_congr_right fun ha => hc.hasRest a t (by omega))

/-- The new entry brings nothing but its own range's meaning: what it took
over from its neighbours had its type. -/
theorem Cut.overrides (hc : Cut l start end_ type pre rest start')
    (ht : Trimmed end_ type rest rest' end') (hl : E820Inv l) :
    Overrides (ranges l) (ranges (pre ++ ⟨start', end' - start', type⟩ :: rest'))
      ⟨start, end_, some type⟩ := by
  intro a t
  have h3 := ht.le
  have h4 := hc.le
  have hhas := hc.has ht a t
  have hmid : Has (ranges (pre ++ ⟨start', end' - start', type⟩ :: rest')) a t ↔
      ((start' ≤ a ∧ a < end') ∧ type = t) ∨ Has (ranges (pre ++ rest')) a t := by
    simp only [ranges, List.map_append, List.map_cons, has_append, has_cons, E820Entry.range,
      Range.Covers]
    rw [show start' + (end' - start') = max start' end' by omega]
    constructor
    · rintro (h | ⟨h, rfl⟩ | h)
      · exact .inr (.inl h)
      · exact .inl ⟨by omega, rfl⟩
      · exact .inr (.inr h)
    · rintro (⟨h, rfl⟩ | h | h)
      · exact .inr (.inl ⟨by omega, rfl⟩)
      · exact .inl h
      · exact .inr (.inr h)
  rw [hmid, hhas]
  simp only [Write.Covers, Option.some.injEq]
  split
  next hcov =>
    constructor
    · rintro (h | h)
      · exact h.2
      · omega
    · rintro rfl
      exact .inl ⟨by omega, rfl⟩
  next hcov =>
    constructor
    · rintro (⟨h, rfl⟩ | h)
      · -- the part taken over from a neighbour
        by_cases hlt : a < start
        · exact hc.merged a h.1 hlt
        · have := ht.merged a (by omega) h.2
          exact (hc.hasRest a _ (by omega)).mp this
      · exact h.2
    · intro h
      by_cases hin : start' ≤ a ∧ a < end'
      · refine .inl ⟨hin, ?_⟩
        by_cases hlt : a < start
        · exact hl.canonical.has_unique (hc.merged a hin.1 hlt) h
        · have := ht.merged a (by omega) hin.2
          exact hl.canonical.has_unique ((hc.hasRest a _ (by omega)).mp this) h
      · exact .inr ⟨by omega, h⟩

theorem Cut.overridesHole (hc : Cut l start end_ e820Hole pre rest start')
    (ht : Trimmed end_ e820Hole rest rest' end') (hl : E820Inv l) :
    Overrides (ranges l) (ranges (pre ++ rest')) ⟨start, end_, none⟩ := by
  intro a t
  have hs : start' = start := by
    by_contra hne
    have := hc.le
    exact hl.ok.has (hc.merged start' le_rfl (by omega)) rfl
  have he : end' = end_ := by
    by_contra hne
    have := ht.le
    exact hc.invRest.ok.has (ht.merged end_ le_rfl (by omega)) rfl
  rw [hc.has ht, hs, he]
  simp only [Write.Covers, reduceCtorEq]
  split
  · exact ⟨fun h => by omega, False.elim⟩
  · exact ⟨And.right, fun h => ⟨by omega, h⟩⟩

end

/-- A call that never runs out of entries keeps the invariant, and changes
the map's meaning on its own range only. -/
theorem addE820_spec (type : Nat) {m : E820Map} (h : E820Inv m.list) (hpos : 0 < size)
    (hfit : start + size < 2 ^ 64)
    (hw : (addE820 start size type m).warnNoalloc = m.warnNoalloc) :
    E820Inv (addE820 start size type m).list ∧
      Overrides (ranges m.list) (ranges (addE820 start size type m).list)
        (addWrite start size type) := by
  have hend : u64 (start + size) = start + size := u64_eq hfit
  unfold addE820 at hw ⊢
  rw [if_neg (by omega), hend] at hw ⊢
  have hws := splitE820_warn start (start + size) size type m
  have hws' : (splitE820 start (start + size) size type m).2.2.2.warnNoalloc = m.warnNoalloc := by
    refine Nat.le_antisymm ?_ hws
    rw [← hw]
    dsimp only
    split
    · exact insertE820_warn le_rfl
    · exact le_rfl
  obtain ⟨pre, rest, start', m', hsplit, hm', hmw, hc⟩ := splitE820_spec h hpos hfit hws'
  have h4 := hc.le
  obtain ⟨rest', end', hrun, ht⟩ := removeOverlap_spec type hc.invRest
    (show size + (start - start') ≤ start + size by omega) hfit
  have h3 := ht.le
  simp only [hsplit, hm', List.drop_left, List.take_left, hrun] at hw ⊢
  have hsize : size + (start - start') + (end' - (start + size)) = end' - start' := by omega
  rw [hsize] at hw ⊢
  by_cases hty : type = e820Hole
  · subst hty
    rw [if_neg (by simp)]
    exact ⟨hc.inv ht (by omega), by simpa [addWrite] using hc.overridesHole ht h⟩
  · rw [if_pos hty] at hw ⊢
    rw [insertE820_append rfl (hw.trans hmw.symm)]
    exact ⟨hc.invInsert ht (by omega) hty, by simpa [addWrite, hty] using hc.overrides ht h⟩

-- ---------------------------------------------------------------------------
-- Runs
-- ---------------------------------------------------------------------------

/-- The arguments of one call of `add_e820`. -/
structure AddCall where
  start : Nat
  size : Nat
  type : Nat
  deriving DecidableEq, Repr

def AddCall.run (m : E820Map) (c : AddCall) : E820Map := addE820 c.start c.size c.type m

def AddCall.write (c : AddCall) : Write Nat := addWrite c.start c.size c.type

def AddCall.Ok (c : AddCall) : Prop := 0 < c.size ∧ c.start + c.size < 2 ^ 64

def addCalls (cs : List AddCall) : E820Map := cs.foldl AddCall.run emptyE820

/-- The type the table gives to address `a`. -/
def E820Map.typeAt (m : E820Map) (a : Nat) : Option Nat := lookup (ranges m.list) a

/-- The type the last call that covers `a` gave it. -/
def lastCall (cs : List AddCall) (a : Nat) : Option Nat :=
  (cs.reverse.find? fun c => c.start ≤ a ∧ a < c.start + c.size).bind fun c =>
    if c.type = e820Hole then none else some c.type

theorem lastCall_eq (cs : List AddCall) (a : Nat) :
    lastCall cs a = lastWrite (cs.map AddCall.write) a := by
  simp only [lastCall, lastWrite, ← List.map_reverse, List.find?_map, Option.bind_map]
  rfl

theorem addCalls_concat (cs : List AddCall) (c : AddCall) :
    addCalls (cs ++ [c]) = c.run (addCalls cs) := by
  simp [addCalls]

theorem addCalls_spec (cs : List AddCall) (hok : ∀ c ∈ cs, c.Ok)
    (hw : (addCalls cs).warnNoalloc = 0) :
    E820Inv (addCalls cs).list ∧
      ∀ a, (addCalls cs).typeAt a = lastWrite (cs.map AddCall.write) a := by
  induction cs using List.reverseRecOn with
  | nil => exact ⟨⟨canonical_nil, by simp [addCalls, emptyE820], by simp [addCalls, emptyE820]⟩,
      fun a => rfl⟩
  | append_singleton cs c ih =>
    rw [addCalls_concat] at hw ⊢
    have hmono := addE820_warn c.start c.size c.type (addCalls cs)
    have hw' : (addCalls cs).warnNoalloc = 0 := by
      simp only [AddCall.run] at hw
      omega
    obtain ⟨hinv, hmean⟩ := ih (fun x hx => hok x (by simp [hx])) hw'
    obtain ⟨hpos, hfit⟩ := hok c (by simp)
    obtain ⟨hinv', hover⟩ := addE820_spec c.type hinv hpos hfit (hw.trans hw'.symm)
    refine ⟨hinv', fun a => ?_⟩
    rw [List.map_append, List.map_singleton]
    exact hover.lastWrite hinv.canonical hinv'.canonical hmean a

/-- The map that a run of calls leaves, as long as the table never ran out
of entries: sorted, non-empty, disjoint, merged, without holes, and at
every address what the last call over it said. -/
theorem addE820_last_writer_wins (cs : List AddCall) (hok : ∀ c ∈ cs, c.Ok)
    (hw : (addCalls cs).warnNoalloc = 0) :
    (∀ e ∈ (addCalls cs).list, 0 < e.size ∧ e.start + e.size < 2 ^ 64 ∧ e.type ≠ e820Hole) ∧
    (addCalls cs).list.Pairwise (fun e f => e.start + e.size ≤ f.start ∧
      (e.start + e.size = f.start → e.type ≠ f.type)) ∧
    ∀ a, (addCalls cs).typeAt a = lastCall cs a := by
  obtain ⟨⟨hcan, hent⟩, hmean⟩ := addCalls_spec cs hok hw
  refine ⟨fun e he => ?_, ?_, fun a => ?_⟩
  · have := hcan.nonempty e.range (List.mem_map_of_mem he)
    simp only [E820Entry.range] at this
    exact ⟨by omega, hent.fits e he, hent.noHole e he⟩
  · exact List.pairwise_map.mp hcan.sorted
  · rw [hmean, lastCall_eq]

/-- A reserved page cut out of the RAM, the hole that follows it, and the
RAM given back in between. -/
theorem addE820_last_writer_wins_cut :
    let cs : List AddCall := [⟨0, 0xa0000, e820Ram⟩, ⟨0x9fc00, 0x400, e820Reserved⟩,
      ⟨0x1000, 0x2000, e820Hole⟩, ⟨0x2000, 0x1000, e820Ram⟩]
    (addCalls cs).list = [⟨0, 0x1000, e820Ram⟩, ⟨0x2000, 0x9dc00, e820Ram⟩,
      ⟨0x9fc00, 0x400, e820Reserved⟩] ∧
    ∀ a, (addCalls cs).typeAt a = lastCall cs a :=
  ⟨by decide, (addE820_last_writer_wins _ (by simp [AddCall.Ok]) (by decide)).2.2⟩

end ItxLlama.Seabios
