import Mathlib.Data.List.Basic

/-!
# Elements that count once

Of some elements of a list only the first occurrence stays; all others stay
as they are.
-/

namespace ItxLlama.Lib.Collapse

variable {α : Type u} [DecidableEq α] (once : α → Bool)

/-- What stays of a list behind `seen`. -/
def collapse (seen : List α) : List α → List α
  | [] => []
  | a :: l =>
    if once a ∧ a ∈ seen then collapse (seen ++ [a]) l else a :: collapse (seen ++ [a]) l

theorem collapse_append (seen l l' : List α) :
    collapse once seen (l ++ l') = collapse once seen l ++ collapse once (seen ++ l) l' := by
  induction l generalizing seen with
  | nil => simp [collapse]
  | cons a l ih =>
    rw [List.cons_append, collapse, collapse, ih (seen ++ [a]), List.append_assoc]
    split
    · rfl
    · rfl

theorem collapse_concat (l : List α) (a : α) :
    collapse once [] (l ++ [a]) =
      collapse once [] l ++ if once a ∧ a ∈ l then [] else [a] := by
  rw [collapse_append]
  rfl

variable {once}

theorem mem_collapse {seen l : List α} (ha : a ∈ l) (hseen : a ∉ seen) :
    a ∈ collapse once seen l := by
  induction l generalizing seen with
  | nil => cases ha
  | cons b l ih =>
    by_cases hab : a = b
    · subst hab
      rw [collapse, if_neg fun h => hseen h.2]
      exact List.mem_cons_self
    · have hrest : a ∈ collapse once (seen ++ [b]) l :=
        ih (List.mem_of_ne_of_mem hab ha) (by simp [hseen, hab])
      rw [collapse]
      split
      · exact hrest
      · exact List.mem_cons_of_mem _ hrest

theorem count_collapse_le (ha : once a = true) (seen l : List α) :
    (collapse once seen l).count a ≤ if a ∈ seen then 0 else 1 := by
  induction l generalizing seen with
  | nil => simp [collapse]
  | cons b l ih =>
    have hrest := ih (seen ++ [b])
    rw [collapse]
    by_cases hab : b = a
    · subst hab
      simp only [List.mem_append, List.mem_singleton, or_true, if_true, Nat.le_zero] at hrest
      by_cases hseen : b ∈ seen
      · rw [if_pos ⟨ha, hseen⟩]
        omega
      · rw [if_neg fun h => hseen h.2, if_neg hseen, List.count_cons_self]
        omega
    · have hmem : a ∈ seen ++ [b] ↔ a ∈ seen := by simp [Ne.symm hab]
      simp only [hmem] at hrest
      split
      · exact hrest
      · rwa [List.count_cons_of_ne hab]

end ItxLlama.Lib.Collapse
