import Mathlib.Data.List.Basic

/-!
# A lossy line

Items are sent one after the other, each at its own attempt, and an attempt
fails or delivers its item. What arrives is a sublist of what was sent.
-/

namespace ItxLlama.Lib.Lossy

variable {α : Type} {ok : Nat → Prop} [DecidablePred ok]

/-- What arrives of the items that are sent from attempt `n` on. -/
def delivered (ok : Nat → Prop) [DecidablePred ok] : Nat → List α → List α
  | _, [] => []
  | n, a :: l => if ok n then a :: delivered ok (n + 1) l else delivered ok (n + 1) l

theorem delivered_of_ok (h : ok n) (a : α) (l : List α) :
    delivered ok n (a :: l) = a :: delivered ok (n + 1) l := if_pos h

theorem delivered_of_not_ok (h : ¬ ok n) (a : α) (l : List α) :
    delivered ok n (a :: l) = delivered ok (n + 1) l := if_neg h

theorem delivered_sublist (l : List α) : (delivered ok n l).Sublist l := by
  induction l generalizing n with
  | nil => exact .slnil
  | cons a l ih =>
    by_cases h : ok n
    · rw [delivered_of_ok h]
      exact ih.cons_cons a
    · rw [delivered_of_not_ok h]
      exact ih.cons a

theorem forall_lt_succ {P : Nat → Prop} :
    (∀ i < m + 1, P (n + i)) ↔ P n ∧ ∀ i < m, P (n + 1 + i) := by
  constructor
  · refine fun h => ⟨h 0 (Nat.succ_pos m), fun i hi => ?_⟩
    rw [Nat.add_assoc, Nat.add_comm 1 i]
    exact h (i + 1) (Nat.succ_lt_succ hi)
  · rintro ⟨hzero, hrest⟩ i hi
    cases i with
    | zero => exact hzero
    | succ i =>
      rw [Nat.add_comm i 1, ← Nat.add_assoc]
      exact hrest i (Nat.lt_of_succ_lt_succ hi)

theorem delivered_eq_self_iff (l : List α) :
    delivered ok n l = l ↔ ∀ i < l.length, ok (n + i) := by
  induction l generalizing n with
  | nil => exact iff_of_true rfl fun i hi => absurd hi (Nat.not_lt_zero i)
  | cons a l ih =>
    rw [List.length_cons, @forall_lt_succ l.length n ok, ← ih]
    by_cases h : ok n
    · rw [delivered_of_ok h, List.cons_inj_right, and_iff_right h]
    · rw [delivered_of_not_ok h]
      refine iff_of_false (fun heq => ?_) fun heq => h heq.1
      have hle : (delivered ok (n + 1) l).length ≤ l.length := (delivered_sublist l).length_le
      rw [heq] at hle
      exact Nat.not_succ_le_self _ hle

theorem delivered_eq_nil_iff (l : List α) :
    delivered ok n l = [] ↔ ∀ i < l.length, ¬ ok (n + i) := by
  induction l generalizing n with
  | nil => exact iff_of_true rfl fun i hi => absurd hi (Nat.not_lt_zero i)
  | cons a l ih =>
    rw [List.length_cons, @forall_lt_succ l.length n (¬ ok ·), ← ih]
    by_cases h : ok n
    · rw [delivered_of_ok h]
      exact iff_of_false (List.cons_ne_nil _ _) fun heq => heq.1 h
    · rw [delivered_of_not_ok h, and_iff_right h]

end ItxLlama.Lib.Lossy
