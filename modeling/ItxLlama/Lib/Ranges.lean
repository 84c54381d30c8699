import Mathlib.Data.List.Induction

/-!
# Tagged range lists

Half-open address ranges with a tag each. A list of them is canonical when
its ranges are non-empty, sorted, disjoint, and no two that touch have the
same tag. `Overrides` says that a list's meaning changed on one interval
only; a table that stays canonical and overrides at every write means the
last write that covers an address (`Overrides.lastWrite`).
-/

namespace ItxLlama.Lib.Ranges

structure Range (T : Type) where
  lo : Nat
  hi : Nat
  tag : T
  deriving DecidableEq, Repr

variable {T : Type}

def Range.Covers (r : Range T) (a : Nat) : Prop := r.lo ≤ a ∧ a < r.hi

instance (r : Range T) (a : Nat) : Decidable (r.Covers a) :=
  inferInstanceAs (Decidable (_ ∧ _))

/-- `r` lies before `s`, and they do not touch unless their tags differ. -/
def Range.Before (r s : Range T) : Prop := r.hi ≤ s.lo ∧ (r.hi = s.lo → r.tag ≠ s.tag)

theorem Range.Before.of_lt {r s : Range T} (h : r.hi < s.lo) : r.Before s :=
  ⟨by omega, fun he => by omega⟩

structure Canonical (l : List (Range T)) : Prop where
  nonempty : ∀ r ∈ l, r.lo < r.hi
  sorted : l.Pairwise Range.Before

theorem canonical_nil : Canonical ([] : List (Range T)) := ⟨by simp, .nil⟩

theorem canonical_cons {r : Range T} {l : List (Range T)} :
    Canonical (r :: l) ↔ r.lo < r.hi ∧ (∀ s ∈ l, r.Before s) ∧ Canonical l := by
  constructor
  · rintro ⟨hne, hs⟩
    rw [List.pairwise_cons] at hs
    exact ⟨hne r (by simp), hs.1, fun s hm => hne s (by simp [hm]), hs.2⟩
  · rintro ⟨hr, hb, hne, hs⟩
    refine ⟨fun s hm => ?_, List.pairwise_cons.mpr ⟨hb, hs⟩⟩
    rcases List.mem_cons.mp hm with rfl | hm
    · exact hr
    · exact hne s hm

theorem canonical_append {l m : List (Range T)} :
    Canonical (l ++ m) ↔ Canonical l ∧ Canonical m ∧ ∀ r ∈ l, ∀ s ∈ m, r.Before s := by
  constructor
  · rintro ⟨hne, hs⟩
    rw [List.pairwise_append] at hs
    exact ⟨⟨fun r hm => hne r (by simp [hm]), hs.1⟩, ⟨fun r hm => hne r (by simp [hm]), hs.2.1⟩,
      hs.2.2⟩
  · rintro ⟨⟨hl, hls⟩, ⟨hm, hms⟩, hb⟩
    refine ⟨fun r hr => ?_, List.pairwise_append.mpr ⟨hls, hms, hb⟩⟩
    rcases List.mem_append.mp hr with hr | hr
    · exact hl r hr
    · exact hm r hr

/-- Everything of the first list ends before everything of the second
starts, with at least one address between them. -/
theorem canonical_append_of_lt {l m : List (Range T)} (hl : Canonical l) (hm : Canonical m)
    (hlt : ∀ r ∈ l, ∀ s ∈ m, r.hi < s.lo) : Canonical (l ++ m) :=
  canonical_append.mpr ⟨hl, hm, fun r hr s hs => .of_lt (hlt r hr s hs)⟩

-- ---------------------------------------------------------------------------
-- Meaning
-- ---------------------------------------------------------------------------

/-- Address `a` has tag `t` in `l`. -/
def Has (l : List (Range T)) (a : Nat) (t : T) : Prop := ∃ r ∈ l, r.Covers a ∧ r.tag = t

@[simp] theorem has_nil : Has ([] : List (Range T)) a t ↔ False := by simp [Has]

@[simp] theorem has_cons {r : Range T} {l : List (Range T)} :
    Has (r :: l) a t ↔ (r.Covers a ∧ r.tag = t) ∨ Has l a t := by
  simp [Has]

@[simp] theorem has_append {l m : List (Range T)} : Has (l ++ m) a t ↔ Has l a t ∨ Has m a t := by
  simp [Has, or_and_right, exists_or]

def lookup (l : List (Range T)) (a : Nat) : Option T :=
  (l.find? fun r => decide (r.Covers a)).map Range.tag

/-- Non-empty, in order and disjoint, but possibly with neighbours of one tag
that touch. -/
structure Sorted (l : List (Range T)) : Prop where
  nonempty : ∀ r ∈ l, r.lo < r.hi
  ordered : l.Pairwise fun r s => r.hi ≤ s.lo

theorem Canonical.sorted' {l : List (Range T)} (h : Canonical l) : Sorted l :=
  ⟨h.nonempty, h.sorted.imp And.left⟩

theorem sorted_cons {r : Range T} {l : List (Range T)} :
    Sorted (r :: l) ↔ r.lo < r.hi ∧ (∀ s ∈ l, r.hi ≤ s.lo) ∧ Sorted l := by
  constructor
  · rintro ⟨hne, ho⟩
    rw [List.pairwise_cons] at ho
    exact ⟨hne r (by simp), ho.1, fun s hm => hne s (by simp [hm]), ho.2⟩
  · rintro ⟨hr, hb, hne, ho⟩
    exact ⟨List.forall_mem_cons.mpr ⟨hr, hne⟩, List.pairwise_cons.mpr ⟨hb, ho⟩⟩

theorem Sorted.covers_unique {l : List (Range T)} (h : Sorted l) (hr : r ∈ l) (hs : s ∈ l)
    (hra : r.Covers a) (hsa : s.Covers a) : r = s := by
  induction l with
  | nil => simp at hr
  | cons x l ih =>
    obtain ⟨-, hb, hl⟩ := sorted_cons.mp h
    simp only [Range.Covers] at hra hsa
    rcases List.mem_cons.mp hr with rfl | hr'
    · rcases List.mem_cons.mp hs with rfl | hs'
      · rfl
      · have := hb s hs'
        omega
    · rcases List.mem_cons.mp hs with rfl | hs'
      · have := hb r hr'
        omega
      · exact ih hl hr' hs'

theorem Canonical.covers_unique {l : List (Range T)} (h : Canonical l) (hr : r ∈ l) (hs : s ∈ l)
    (hra : r.Covers a) (hsa : s.Covers a) : r = s :=
  h.sorted'.covers_unique hr hs hra hsa

theorem Canonical.lookup_eq_some {l : List (Range T)} (h : Canonical l) :
    lookup l a = some t ↔ Has l a t := by
  simp only [lookup, Option.map_eq_some_iff]
  constructor
  · rintro ⟨r, hf, rfl⟩
    exact ⟨r, List.mem_of_find?_eq_some hf, by simpa using List.find?_some hf, rfl⟩
  · rintro ⟨r, hm, hc, rfl⟩
    obtain ⟨s, hs⟩ := Option.isSome_iff_exists.mp
      (List.find?_isSome.mpr ⟨r, hm, decide_eq_true hc⟩ :
        (l.find? fun r => decide (r.Covers a)).isSome)
    have hsc : s.Covers a := by simpa using List.find?_some hs
    exact ⟨s, hs, by rw [h.covers_unique hm (List.mem_of_find?_eq_some hs) hc hsc]⟩

theorem Canonical.has_unique {l : List (Range T)} (h : Canonical l) (ht : Has l a t)
    (hu : Has l a u) : t = u := by
  obtain ⟨r, hr, hra, rfl⟩ := ht
  obtain ⟨s, hs, hsa, rfl⟩ := hu
  rw [h.covers_unique hr hs hra hsa]

-- ---------------------------------------------------------------------------
-- Erasing an interval
-- ---------------------------------------------------------------------------

section

variable {lo hi : Nat}

/-- What is left of `r` outside `[lo, hi)`. -/
def Range.minus (lo hi : Nat) (r : Range T) : List (Range T) :=
  (if r.lo < lo then [{ r with hi := min r.hi lo }] else []) ++
    (if hi < r.hi then [{ r with lo := max r.lo hi }] else [])

def erase (lo hi : Nat) (l : List (Range T)) : List (Range T) := l.flatMap (Range.minus lo hi)

@[simp] theorem erase_nil (lo hi : Nat) : erase lo hi ([] : List (Range T)) = [] := rfl

@[simp] theorem erase_cons (lo hi : Nat) (r : Range T) (l : List (Range T)) :
    erase lo hi (r :: l) = r.minus lo hi ++ erase lo hi l := rfl

theorem Range.minus_of_le (r : Range T) (hlo : r.lo < r.hi) (h : r.hi ≤ lo) (hlt : lo < hi) :
    r.minus lo hi = [r] := by
  rw [Range.minus, if_pos (by omega), if_neg (by omega), List.append_nil, Nat.min_eq_left h]

theorem Range.minus_of_ge (r : Range T) (hlo : r.lo < r.hi) (h : hi ≤ r.lo) (hlt : lo < hi) :
    r.minus lo hi = [r] := by
  rw [Range.minus, if_neg (by omega), if_pos (by omega), List.nil_append, Nat.max_eq_left h]

theorem Range.mem_minus {r s : Range T} (hs : s ∈ r.minus lo hi) (hlo : r.lo < r.hi) :
    r.lo ≤ s.lo ∧ s.hi ≤ r.hi ∧ s.lo < s.hi ∧ s.tag = r.tag := by
  simp only [Range.minus, List.mem_append, List.mem_ite_nil_right, List.mem_singleton] at hs
  rcases hs with ⟨h, rfl⟩ | ⟨h, rfl⟩
  · exact ⟨Nat.le_refl _, Nat.min_le_left _ _, by simp only; omega, rfl⟩
  · exact ⟨Nat.le_max_left _ _, Nat.le_refl _, by simp only; omega, rfl⟩

theorem Range.Before.minus {r s x y : Range T} (h : r.Before s) (hr : r.lo < r.hi)
    (hs : s.lo < s.hi) (hx : x ∈ r.minus lo hi) (hy : y ∈ s.minus lo hi) : x.Before y := by
  obtain ⟨-, hxr, -, hxt⟩ := Range.mem_minus hx hr
  obtain ⟨hys, -, -, hyt⟩ := Range.mem_minus hy hs
  obtain ⟨hle, hne⟩ := h
  exact ⟨by omega, fun heq => hxt ▸ hyt ▸ hne (by omega)⟩

theorem mem_erase {l : List (Range T)} (hs : s ∈ erase lo hi l) :
    ∃ r ∈ l, s ∈ r.minus lo hi := by
  simpa [erase] using hs

theorem Canonical.erase {l : List (Range T)} (h : Canonical l) (hlt : lo < hi) :
    Canonical (Ranges.erase lo hi l) := by
  induction l with
  | nil => exact canonical_nil
  | cons r l ih =>
    obtain ⟨hr, hb, hl⟩ := canonical_cons.mp h
    rw [erase_cons, canonical_append]
    refine ⟨⟨fun s hs => (Range.mem_minus hs hr).2.2.1, ?_⟩, ih hl, ?_⟩
    · -- the two pieces are apart
      rw [Range.minus]
      split <;> split <;> simp
      exact .of_lt (by simp only; omega)
    · intro x hx y hy
      obtain ⟨s, hs, hy⟩ := mem_erase hy
      exact (hb s hs).minus hr (hl.nonempty s hs) hx hy

theorem has_erase {l : List (Range T)} :
    Has (erase lo hi l) a t ↔ ¬ (lo ≤ a ∧ a < hi) ∧ Has l a t := by
  induction l with
  | nil => simp
  | cons r l ih =>
    have hminus : Has (r.minus lo hi) a t ↔ ¬ (lo ≤ a ∧ a < hi) ∧ r.Covers a ∧ r.tag = t := by
      rw [Range.minus, has_append]
      constructor
      · rintro (h | h) <;> split at h <;> simp [Range.Covers] at h
        · exact ⟨by omega, ⟨by omega, by omega⟩, h.2⟩
        · exact ⟨by omega, ⟨by omega, by omega⟩, h.2⟩
      · rintro ⟨hn, ⟨h1, h2⟩, rfl⟩
        by_cases hlo : a < lo
        · rw [if_pos (by omega)]
          exact .inl (by simp [Range.Covers]; omega)
        · rw [if_pos (show hi < r.hi by omega)]
          exact .inr (by simp [Range.Covers]; omega)
    rw [erase_cons, has_append, has_cons, hminus, ih, and_or_left]

end

-- ---------------------------------------------------------------------------
-- Merging neighbours
-- ---------------------------------------------------------------------------

theorem sorted_append {l m : List (Range T)} :
    Sorted (l ++ m) ↔ Sorted l ∧ Sorted m ∧ ∀ r ∈ l, ∀ s ∈ m, r.hi ≤ s.lo := by
  constructor
  · rintro ⟨hne, ho⟩
    rw [List.pairwise_append] at ho
    exact ⟨⟨fun r hm => hne r (by simp [hm]), ho.1⟩, ⟨fun r hm => hne r (by simp [hm]), ho.2.1⟩,
      ho.2.2⟩
  · rintro ⟨⟨hl, hlo⟩, ⟨hm, hmo⟩, hb⟩
    exact ⟨List.forall_mem_append.mpr ⟨hl, hm⟩, List.pairwise_append.mpr ⟨hlo, hmo, hb⟩⟩

/-- A range that meets none of a list's fits in between. -/
theorem Sorted.insert {pre post : List (Range T)} {n : Range T} (h : Sorted (pre ++ post))
    (hn : n.lo < n.hi) (hfree : ∀ r ∈ pre ++ post, ∀ a, r.Covers a → ¬ n.Covers a)
    (hpre : ∀ r ∈ pre, r.lo < n.hi) (hpost : ∀ r ∈ post.head?, n.hi ≤ r.lo) :
    Sorted (pre ++ n :: post) := by
  obtain ⟨hsp, hsq, hpq⟩ := sorted_append.mp h
  have hbefore : ∀ r ∈ pre, r.hi ≤ n.lo := by
    intro r hr
    by_contra hlt
    have hne := hsp.nonempty r hr
    have hlo := hpre r hr
    refine hfree r (by simp [hr]) (max r.lo n.lo) ⟨Nat.le_max_left _ _, ?_⟩
      ⟨Nat.le_max_right _ _, ?_⟩ <;> omega
  have hafter : ∀ r ∈ post, n.hi ≤ r.lo := by
    cases post with
    | nil => simp
    | cons s post =>
      obtain ⟨hs, ho, -⟩ := sorted_cons.mp hsq
      have hle := hpost s rfl
      refine List.forall_mem_cons.mpr ⟨hle, fun r hr => ?_⟩
      have := ho r hr
      omega
  refine sorted_append.mpr ⟨hsp, sorted_cons.mpr ⟨hn, hafter, hsq⟩, fun r hr s hs => ?_⟩
  rcases List.mem_cons.mp hs with rfl | hs
  · exact hbefore r hr
  · exact hpq r hr s hs

section

variable [DecidableEq T]

def mergeFrom (r : Range T) : List (Range T) → List (Range T)
  | [] => [r]
  | s :: l =>
    if r.hi = s.lo ∧ r.tag = s.tag then mergeFrom { r with hi := s.hi } l
    else r :: mergeFrom s l

theorem mergeFrom_head (r : Range T) (l : List (Range T)) :
    ∃ r' l', mergeFrom r l = r' :: l' ∧ r'.lo = r.lo ∧ r'.tag = r.tag := by
  induction l generalizing r with
  | nil => exact ⟨r, [], rfl, rfl, rfl⟩
  | cons s l ih =>
    rw [mergeFrom]
    split
    · exact ih { r with hi := s.hi }
    · exact ⟨r, _, rfl, rfl, rfl⟩

theorem mergeFrom_canonical {r : Range T} {l : List (Range T)} (h : Sorted (r :: l)) :
    Canonical (mergeFrom r l) := by
  induction l generalizing r with
  | nil => exact canonical_cons.mpr ⟨h.nonempty r (by simp), by simp, canonical_nil⟩
  | cons s l ih =>
    obtain ⟨hr, hb, hsl⟩ := sorted_cons.mp h
    obtain ⟨hs, hbs, hl⟩ := sorted_cons.mp hsl
    have hrs := hb s (by simp)
    rw [mergeFrom]
    split
    · exact ih (sorted_cons.mpr ⟨by simp only; omega, hbs, hl⟩)
    next hne =>
      have hcan := ih hsl
      refine canonical_cons.mpr ⟨hr, ?_, hcan⟩
      obtain ⟨s', l', heq, hlo, htag⟩ := mergeFrom_head s l
      rw [heq] at hcan ⊢
      obtain ⟨hs', hb', -⟩ := canonical_cons.mp hcan
      intro x hx
      rcases List.mem_cons.mp hx with rfl | hx
      · exact ⟨by omega, fun ht he => hne ⟨by omega, by rw [he, htag]⟩⟩
      · have := (hb' x hx).1
        exact .of_lt (by omega)

theorem has_mergeFrom {r : Range T} {l : List (Range T)} (h : Sorted (r :: l)) :
    Has (mergeFrom r l) a t ↔ Has (r :: l) a t := by
  induction l generalizing r with
  | nil => rfl
  | cons s l ih =>
    obtain ⟨hr, hb, hsl⟩ := sorted_cons.mp h
    obtain ⟨hs, hbs, hl⟩ := sorted_cons.mp hsl
    rw [mergeFrom]
    split
    next heq =>
      rw [ih (r := { r with hi := s.hi }) (sorted_cons.mpr ⟨by simp only; omega, hbs, hl⟩)]
      simp only [has_cons, Range.Covers, heq.2, ← or_assoc]
      refine or_congr_left ?_
      constructor
      · rintro ⟨hc, ht⟩
        by_cases ha : a < r.hi
        · exact .inl ⟨by omega, ht⟩
        · exact .inr ⟨by omega, ht⟩
      · rintro (⟨hc, ht⟩ | ⟨hc, ht⟩)
        · exact ⟨by omega, ht⟩
        · exact ⟨by omega, ht⟩
    · rw [has_cons, has_cons, ih hsl]

theorem mem_mergeFrom {r x : Range T} {l : List (Range T)} (hx : x ∈ mergeFrom r l) :
    (∃ y ∈ r :: l, x.lo = y.lo) ∧ ∃ z ∈ r :: l, x.hi = z.hi := by
  induction l generalizing r with
  | nil =>
    obtain rfl := List.mem_singleton.mp hx
    exact ⟨⟨x, by simp, rfl⟩, x, by simp, rfl⟩
  | cons s l ih =>
    rw [mergeFrom] at hx
    split at hx
    · obtain ⟨⟨y, hy, hlo⟩, z, hz, hhi⟩ := ih hx
      refine ⟨?_, ?_⟩
      · rcases List.mem_cons.mp hy with rfl | hy
        · exact ⟨r, by simp, hlo⟩
        · exact ⟨y, by simp [hy], hlo⟩
      · rcases List.mem_cons.mp hz with rfl | hz
        · exact ⟨s, by simp, hhi⟩
        · exact ⟨z, by simp [hz], hhi⟩
    · rcases List.mem_cons.mp hx with rfl | hx
      · exact ⟨⟨x, by simp, rfl⟩, x, by simp, rfl⟩
      · obtain ⟨⟨y, hy, hlo⟩, z, hz, hhi⟩ := ih hx
        exact ⟨⟨y, List.mem_cons_of_mem _ hy, hlo⟩, z, List.mem_cons_of_mem _ hz, hhi⟩

/-- Make neighbours of one tag that touch into one range. -/
def merge : List (Range T) → List (Range T)
  | [] => []
  | r :: l => mergeFrom r l

theorem merge_canonical {l : List (Range T)} (h : Sorted l) : Canonical (merge l) := by
  cases l with
  | nil => exact canonical_nil
  | cons r l => exact mergeFrom_canonical h

theorem mem_merge {x : Range T} {l : List (Range T)} (hx : x ∈ merge l) :
    (∃ y ∈ l, x.lo = y.lo) ∧ ∃ z ∈ l, x.hi = z.hi := by
  cases l with
  | nil => simp [merge] at hx
  | cons r l => exact mem_mergeFrom hx

theorem has_merge {l : List (Range T)} (h : Sorted l) : Has (merge l) a t ↔ Has l a t := by
  cases l with
  | nil => rfl
  | cons r l => exact has_mergeFrom h

end

-- ---------------------------------------------------------------------------
-- Writes
-- ---------------------------------------------------------------------------

/-- An assignment of a tag, or of nothing, to an interval. -/
structure Write (T : Type) where
  lo : Nat
  hi : Nat
  val : Option T
  deriving DecidableEq, Repr

def Write.Covers (w : Write T) (a : Nat) : Prop := w.lo ≤ a ∧ a < w.hi

instance (w : Write T) (a : Nat) : Decidable (w.Covers a) :=
  inferInstanceAs (Decidable (_ ∧ _))

/-- `m` means what `l` means, except that `w` has been carried out. -/
def Overrides (l m : List (Range T)) (w : Write T) : Prop :=
  ∀ a t, Has m a t ↔ if w.Covers a then w.val = some t else Has l a t

theorem Overrides.lookup {l m : List (Range T)} (h : Overrides l m w) (hl : Canonical l)
    (hm : Canonical m) (a : Nat) :
    lookup m a = if w.Covers a then w.val else lookup l a := by
  apply Option.ext
  intro t
  rw [hm.lookup_eq_some, h a t]
  split
  · rfl
  · rw [hl.lookup_eq_some]

/-- `m` says nothing that `l` after `w` does not say. -/
def Weakens (l m : List (Range T)) (w : Write T) : Prop :=
  ∀ a t, Has m a t → if w.Covers a then w.val = some t else Has l a t

theorem Overrides.weakens {l m : List (Range T)} (h : Overrides l m w) : Weakens l m w :=
  fun a t => (h a t).mp

theorem Weakens.mono {l l' m m' : List (Range T)} (h : Weakens l m w)
    (hl : ∀ a t, Has l a t → Has l' a t) (hm : ∀ a t, Has m' a t → Has m a t) :
    Weakens l' m' w := by
  intro a t ha
  have := h a t (hm a t ha)
  split
  next hc => rwa [if_pos hc] at this
  next hc =>
    rw [if_neg hc] at this
    exact hl a t this

/-- What the last of `ws` that covers `a` assigned to it. -/
def lastWrite (ws : List (Write T)) (a : Nat) : Option T :=
  (ws.reverse.find? fun w => decide (w.Covers a)).bind Write.val

@[simp] theorem lastWrite_nil : lastWrite ([] : List (Write T)) a = none := rfl

theorem lastWrite_concat (ws : List (Write T)) (w : Write T) (a : Nat) :
    lastWrite (ws ++ [w]) a = if w.Covers a then w.val else lastWrite ws a := by
  by_cases h : w.Covers a <;> simp [lastWrite, h]

theorem Overrides.lastWrite {l m : List (Range T)} {ws : List (Write T)} (h : Overrides l m w)
    (hl : Canonical l) (hm : Canonical m) (hws : ∀ a, Ranges.lookup l a = Ranges.lastWrite ws a)
    (a : Nat) : Ranges.lookup m a = Ranges.lastWrite (ws ++ [w]) a := by
  rw [h.lookup hl hm, lastWrite_concat, hws]

theorem Weakens.lastWrite {l m : List (Range T)} {ws : List (Write T)} (h : Weakens l m w)
    (hws : ∀ a t, Has l a t → Ranges.lastWrite ws a = some t) (ha : Has m a t) :
    Ranges.lastWrite (ws ++ [w]) a = some t := by
  rw [lastWrite_concat]
  have := h a t ha
  split
  next hc => rwa [if_pos hc] at this
  next hc =>
    rw [if_neg hc] at this
    exact hws a t this

end ItxLlama.Lib.Ranges
