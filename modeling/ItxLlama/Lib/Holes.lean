import ItxLlama.Lib.Ranges

/-!
# Filling the holes of a range list

The free addresses from the first range on are given one tag, up to a limit.
A list that was sorted stays sorted and means what it meant, apart from them.
-/

namespace ItxLlama.Lib.Ranges

variable {T : Type} {limit a : Nat} {t u : T} {r : Range T} {l : List (Range T)}

/-- What lies between `r` and `e`. -/
def Range.hole (r : Range T) (e : Nat) (t : T) : List (Range T) :=
  if r.hi < e then [⟨r.hi, e, t⟩] else []

/-- Fill the holes behind `r` and behind the ranges after it. -/
def fillFrom (limit : Nat) (t : T) (r : Range T) : List (Range T) → List (Range T)
  | [] => r :: r.hole limit t
  | s :: l => r :: (r.hole (min s.lo limit) t ++ fillFrom limit t s l)

theorem Range.hole_of_le (h : e ≤ r.hi) : r.hole e t = [] := if_neg (Nat.not_lt.mpr h)

theorem Range.mem_hole {x : Range T} (h : x ∈ r.hole e t) : r.hi < e ∧ x = ⟨r.hi, e, t⟩ := by
  unfold hole at h
  split at h
  · exact ⟨‹_›, List.mem_singleton.mp h⟩
  · cases h

theorem Range.lo_le_hole (h : r.lo < r.hi) : ∀ x ∈ r.hole e t, r.lo ≤ x.lo := by
  intro x hx
  obtain ⟨-, rfl⟩ := Range.mem_hole hx
  exact Nat.le_of_lt h

theorem Range.sorted_hole : Sorted (r.hole e t) := by
  unfold hole
  split
  · exact ⟨List.forall_mem_singleton.mpr ‹_›, List.pairwise_singleton _ _⟩
  · exact ⟨fun x hx => absurd hx List.not_mem_nil, .nil⟩

theorem Range.has_hole : Has (r.hole e t) a u ↔ (r.hi ≤ a ∧ a < e) ∧ t = u := by
  unfold hole
  split
  · simp [Covers]
  · rw [has_nil, false_iff]
    rintro ⟨⟨hlo, hhi⟩, -⟩
    exact ‹¬ r.hi < e› (Nat.lt_of_le_of_lt hlo hhi)

theorem fillFrom_lo (h : Sorted (r :: l)) : ∀ x ∈ fillFrom limit t r l, r.lo ≤ x.lo := by
  induction l generalizing r with
  | nil =>
    obtain ⟨hr, -, -⟩ := sorted_cons.mp h
    exact List.forall_mem_cons.mpr ⟨Nat.le_refl _, Range.lo_le_hole hr⟩
  | cons s l ih =>
    obtain ⟨hr, hb, hs⟩ := sorted_cons.mp h
    have hrs := Nat.le_of_lt (Nat.lt_of_lt_of_le hr (hb s List.mem_cons_self))
    exact List.forall_mem_cons.mpr ⟨Nat.le_refl _, List.forall_mem_append.mpr
      ⟨Range.lo_le_hole hr, fun x hx => Nat.le_trans hrs (ih hs x hx)⟩⟩

theorem sorted_fillFrom (h : Sorted (r :: l)) : Sorted (fillFrom limit t r l) := by
  induction l generalizing r with
  | nil =>
    obtain ⟨hr, -, -⟩ := sorted_cons.mp h
    refine sorted_cons.mpr ⟨hr, fun x hx => ?_, Range.sorted_hole⟩
    obtain ⟨-, rfl⟩ := Range.mem_hole hx
    exact Nat.le_refl _
  | cons s l ih =>
    obtain ⟨hr, hb, hs⟩ := sorted_cons.mp h
    have hlo := @fillFrom_lo T limit t s l hs
    refine sorted_cons.mpr ⟨hr, List.forall_mem_append.mpr ⟨fun x hx => ?_, fun x hx => ?_⟩,
      sorted_append.mpr ⟨Range.sorted_hole, ih hs, fun x hx y hy => ?_⟩⟩
    · obtain ⟨-, rfl⟩ := Range.mem_hole hx
      exact Nat.le_refl _
    · exact Nat.le_trans (hb s List.mem_cons_self) (hlo x hx)
    · obtain ⟨-, rfl⟩ := Range.mem_hole hx
      exact Nat.le_trans (Nat.min_le_left _ _) (hlo y hy)

theorem fillFrom_bounds {P : Nat → Prop} (h : ∀ x ∈ r :: l, P x.lo ∧ P x.hi) (hlimit : P limit) :
    ∀ x ∈ fillFrom limit t r l, P x.lo ∧ P x.hi := by
  induction l generalizing r with
  | nil =>
    obtain ⟨hr, -⟩ := List.forall_mem_cons.mp h
    refine List.forall_mem_cons.mpr ⟨hr, fun x hx => ?_⟩
    obtain ⟨-, rfl⟩ := Range.mem_hole hx
    exact ⟨hr.2, hlimit⟩
  | cons s l ih =>
    obtain ⟨hr, hs⟩ := List.forall_mem_cons.mp h
    refine List.forall_mem_cons.mpr ⟨hr, List.forall_mem_append.mpr ⟨fun x hx => ?_, ih hs⟩⟩
    obtain ⟨-, rfl⟩ := Range.mem_hole hx
    refine ⟨hr.2, ?_⟩
    show P (min s.lo limit)
    obtain hmin | hmin := Nat.le_total s.lo limit
    · exact (Nat.min_eq_left hmin).symm ▸ (hs s List.mem_cons_self).1
    · exact (Nat.min_eq_right hmin).symm ▸ hlimit

theorem Sorted.lo_le (h : Sorted (r :: l)) (ha : Has (r :: l) a u) : r.lo ≤ a := by
  obtain ⟨hr, hb, -⟩ := sorted_cons.mp h
  obtain ⟨hcov, -⟩ | ⟨s, hs, hcov, -⟩ := has_cons.mp ha
  · exact hcov.1
  · exact Nat.le_trans (Nat.le_of_lt hr) (Nat.le_trans (hb s hs) hcov.1)

/-- Below the limit no address stays free, and no other one changes. -/
theorem has_fillFrom (h : Sorted (r :: l)) : Has (fillFrom limit t r l) a u ↔
    Has (r :: l) a u ∨ ((r.lo ≤ a ∧ a < limit) ∧ ∀ v, ¬ Has (r :: l) a v) ∧ t = u := by
  induction l generalizing r with
  | nil =>
    obtain ⟨hr, -, -⟩ := sorted_cons.mp h
    simp only [fillFrom, has_cons, Range.has_hole, has_nil, or_false, Range.Covers]
    refine or_congr_right (and_congr_left fun _ => ⟨fun hin => ⟨⟨by omega, hin.2⟩, fun v hv => ?_⟩,
      fun hboth => ⟨?_, hboth.1.2⟩⟩)
    · omega
    · obtain ⟨hin, hfree⟩ := hboth
      have hnot : ¬ (r.lo ≤ a ∧ a < r.hi) := fun hc => hfree r.tag ⟨hc, rfl⟩
      omega
  | cons s l ih =>
    obtain ⟨hr, hb, hs⟩ := sorted_cons.mp h
    have hrs := hb s List.mem_cons_self
    rw [fillFrom, has_cons, has_append, Range.has_hole, ih hs, @has_cons T a u r]
    simp only [@has_cons T a _ r, Range.Covers]
    by_cases ha : a < s.lo
    · -- the ranges behind `r` are not there yet
      have hnone (v : T) : ¬ Has (s :: l) a v := fun hv => Nat.not_le.mpr ha (hs.lo_le hv)
      simp only [hnone, or_false, false_or, not_false_eq_true, implies_true, and_true]
      refine or_congr_right ?_
      constructor
      · rintro (⟨hin, heq⟩ | ⟨hin, -⟩)
        · exact ⟨⟨by omega, fun v hv => by omega⟩, heq⟩
        · omega
      · rintro ⟨⟨hin, hfree⟩, heq⟩
        have hnot : ¬ (r.lo ≤ a ∧ a < r.hi) := fun hc => hfree r.tag ⟨hc, rfl⟩
        exact .inl ⟨by omega, heq⟩
    · have hnot : ¬ (r.lo ≤ a ∧ a < r.hi) := by omega
      simp only [hnot, false_and, false_or]
      constructor
      · rintro (⟨hin, -⟩ | hhas | ⟨⟨hin, hfree⟩, heq⟩)
        · omega
        · exact .inl hhas
        · exact .inr ⟨⟨by omega, hfree⟩, heq⟩
      · rintro (hhas | ⟨⟨hin, hfree⟩, heq⟩)
        · exact .inr (.inl hhas)
        · exact .inr (.inr ⟨⟨by omega, hfree⟩, heq⟩)

end ItxLlama.Lib.Ranges
