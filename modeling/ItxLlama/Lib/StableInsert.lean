import Mathlib.Data.List.Induction
import Mathlib.Data.List.Sort
import Mathlib.Data.List.TakeWhile

/-!
# Sorted insertion behind equal keys

Inserting in front of the first element whose key is strictly greater.
Elements inserted one after the other end up sorted by their keys, and those
with equal keys in the order they came in.
-/

namespace ItxLlama.Lib.StableInsert

section StableInsert

variable {α β : Type} [LinearOrder β] (key : α → β)

/-- `x` goes in front of the first element with a greater key. -/
def insertBehind (x : α) (l : List α) : List α := l.orderedInsert (fun a b => key a < key b) x

def insertAll (xs : List α) : List α := xs.foldl (fun l x => insertBehind key x l) []

theorem insertBehind_eq (x : α) (l : List α) :
    insertBehind key x l = l.takeWhile (fun a => ¬ key x < key a) ++
      x :: l.dropWhile (fun a => ¬ key x < key a) :=
  List.orderedInsert_eq_take_drop _ x l

theorem insertAll_concat (xs : List α) (x : α) :
    insertAll key (xs ++ [x]) = insertBehind key x (insertAll key xs) := by
  simp [insertAll]

theorem insertAll_perm (xs : List α) : (insertAll key xs).Perm xs := by
  induction xs using List.reverseRecOn with
  | nil => exact .refl _
  | append_singleton xs x ih =>
    rw [insertAll_concat]
    exact (List.perm_orderedInsert _ x _).trans ((ih.cons x).trans (List.perm_append_singleton x xs).symm)

variable {key}

theorem insertBehind_congr (key' : α → β) {l : List α} (hx : key x = key' x)
    (hl : ∀ a ∈ l, key a = key' a) : insertBehind key x l = insertBehind key' x l := by
  induction l with
  | nil => rfl
  | cons a l ih =>
    rw [List.forall_mem_cons] at hl
    have ih := ih hl.2
    unfold insertBehind at ih ⊢
    rw [List.orderedInsert_cons, List.orderedInsert_cons, hx, hl.1, ih]

theorem insertAll_congr (key' : α → β) {xs : List α} (h : ∀ a ∈ xs, key a = key' a) :
    insertAll key xs = insertAll key' xs := by
  induction xs using List.reverseRecOn with
  | nil => rfl
  | append_singleton xs x ih =>
    have hxs : ∀ a ∈ xs, key a = key' a := fun a ha => h a (List.mem_append_left _ ha)
    rw [insertAll_concat, insertAll_concat, ih hxs]
    exact insertBehind_congr key' (h x (by simp)) fun a ha => hxs a ((insertAll_perm key' xs).subset ha)

theorem lt_of_mem_dropWhile {l : List α} (h : l.Pairwise fun a b => key a ≤ key b)
    (hb : b ∈ l.dropWhile fun a => ¬ key x < key a) : key x < key b := by
  induction l with
  | nil => simp at hb
  | cons a l ih =>
    rw [List.pairwise_cons] at h
    by_cases hlt : key x < key a
    · rw [List.dropWhile_cons_of_neg (by simpa using hlt)] at hb
      rcases List.mem_cons.mp hb with rfl | hb
      · exact hlt
      · exact lt_of_lt_of_le hlt (h.1 b hb)
    · rw [List.dropWhile_cons_of_pos (by simpa using hlt)] at hb
      exact ih h.2 hb

theorem insertBehind_sorted {l : List α} (h : l.Pairwise fun a b => key a ≤ key b) (x : α) :
    (insertBehind key x l).Pairwise fun a b => key a ≤ key b := by
  have hl : (l.takeWhile (fun a => ¬ key x < key a) ++
      l.dropWhile (fun a => ¬ key x < key a)).Pairwise fun a b => key a ≤ key b := by
    rwa [List.takeWhile_append_dropWhile]
  obtain ⟨htake, hdrop, hboth⟩ := List.pairwise_append.mp hl
  rw [insertBehind_eq]
  refine List.pairwise_append.mpr ⟨htake, List.pairwise_cons.mpr ⟨?_, hdrop⟩, fun a ha b hb => ?_⟩
  · exact fun b hb => le_of_lt (lt_of_mem_dropWhile h hb)
  · rcases List.mem_cons.mp hb with rfl | hb
    · exact not_lt.mp (by simpa using List.mem_takeWhile_imp ha)
    · exact hboth a ha b hb

theorem insertAll_sorted (xs : List α) : (insertAll key xs).Pairwise fun a b => key a ≤ key b := by
  induction xs using List.reverseRecOn with
  | nil => exact .nil
  | append_singleton xs x ih =>
    rw [insertAll_concat]
    exact insertBehind_sorted ih x

/-- An inserted element comes last among those with its key. -/
theorem insertBehind_filter {l : List α} (h : l.Pairwise fun a b => key a ≤ key b) (x : α) (k : β) :
    (insertBehind key x l).filter (fun a => key a = k) =
      (l ++ [x]).filter fun a => key a = k := by
  have hl : l.filter (fun a => key a = k) =
      (l.takeWhile (fun a => ¬ key x < key a)).filter (fun a => key a = k) ++
        (l.dropWhile (fun a => ¬ key x < key a)).filter (fun a => key a = k) := by
    rw [← List.filter_append, List.takeWhile_append_dropWhile]
  rw [insertBehind_eq, List.filter_append, List.filter_append, hl]
  by_cases hk : key x = k
  · have hdrop : (l.dropWhile (fun a => ¬ key x < key a)).filter (fun a => key a = k) = [] := by
      refine List.filter_eq_nil_iff.mpr fun b hb => ?_
      have := lt_of_mem_dropWhile h hb
      simpa using fun hb' : key b = k => absurd (hk.trans hb'.symm) (ne_of_lt this)
    rw [List.filter_cons_of_pos (by simpa using hk), hdrop]
    simp [hk]
  · rw [List.filter_cons_of_neg (by simpa using hk)]
    simp [hk]

theorem insertAll_filter (xs : List α) (k : β) :
    (insertAll key xs).filter (fun a => key a = k) = xs.filter fun a => key a = k := by
  induction xs using List.reverseRecOn with
  | nil => rfl
  | append_singleton xs x ih =>
    rw [insertAll_concat, insertBehind_filter (insertAll_sorted xs), List.filter_append, ih,
      List.filter_append]

end StableInsert

end ItxLlama.Lib.StableInsert
