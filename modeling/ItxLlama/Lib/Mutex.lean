import Mathlib.Logic.Function.Basic

/-!
# Mutual exclusion

A lock bit and who holds the lock: at most one does, and somebody does just
where the bit is set.
-/

namespace ItxLlama.Lib.Mutex

variable {ι : Type} {locked : Bool} {holds holds' : ι → Prop}

structure Exclusive (locked : Bool) (holds : ι → Prop) : Prop where
  unique : ∀ i j, holds i → holds j → i = j
  locked_iff : locked = true ↔ ∃ i, holds i

theorem exclusive_free (h : ∀ i, ¬ holds i) : Exclusive false holds where
  unique i _ hi _ := absurd hi (h i)
  locked_iff := ⟨nofun, fun ⟨i, hi⟩ => absurd hi (h i)⟩

theorem Exclusive.free (h : Exclusive false holds) (i : ι) : ¬ holds i := fun hi =>
  Bool.false_ne_true (h.locked_iff.mpr ⟨i, hi⟩)

theorem Exclusive.held (h : Exclusive locked holds) (hi : holds i) : locked = true :=
  h.locked_iff.mpr ⟨i, hi⟩

theorem Exclusive.others (h : Exclusive locked holds) (hi : holds i) (hne : j ≠ i) : ¬ holds j :=
  fun hj => hne (h.unique j i hj hi)

theorem Exclusive.keep (h : Exclusive locked holds) (hsame : ∀ i, holds' i ↔ holds i) :
    Exclusive locked holds' where
  unique i j hi hj := h.unique i j ((hsame i).mp hi) ((hsame j).mp hj)
  locked_iff := h.locked_iff.trans (exists_congr fun i => (hsame i).symm)

theorem Exclusive.acquire (h : Exclusive false holds) (hi : holds' i)
    (hsame : ∀ j, j ≠ i → (holds' j ↔ holds j)) : Exclusive true holds' := by
  have honly (j : ι) (hj : holds' j) : j = i := by
    by_contra hne
    exact h.free j ((hsame j hne).mp hj)
  refine ⟨fun j k hj hk => ?_, iff_of_true rfl ⟨i, hi⟩⟩
  rw [honly j hj, honly k hk]

theorem Exclusive.release (h : Exclusive locked holds) (hi : holds i) (hout : ¬ holds' i)
    (hsame : ∀ j, j ≠ i → (holds' j ↔ holds j)) : Exclusive false holds' := by
  refine exclusive_free fun j hj => ?_
  rcases eq_or_ne j i with rfl | hne
  · exact hout hj
  · exact h.others hi hne ((hsame j hne).mp hj)

end ItxLlama.Lib.Mutex
