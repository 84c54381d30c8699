import Mathlib.Algebra.BigOperators.Fin
import Mathlib.Algebra.BigOperators.Group.Finset.Basic
import Mathlib.Algebra.Order.BigOperators.Group.Finset
import Mathlib.Tactic.Abel

/-!
# Sums over the parts of a state

When one of finitely many parts changes, a sum over the parts changes by what
that part adds to it.
-/

namespace ItxLlama.Lib.Tally

variable {σ : Type} {n : Nat}

theorem sum_update {M : Type} [AddCommMonoid M] (f : σ → M) (parts : Fin n → σ) (p : Fin n) (x : σ)
    :
    ∑ q, f (Function.update parts p x q) + f (parts p) = ∑ q, f (parts q) + f x := by
  have hrest : ∑ q ∈ Finset.univ.erase p, f (Function.update parts p x q) =
      ∑ q ∈ Finset.univ.erase p, f (parts q) := by
    refine Finset.sum_congr rfl fun q hq => ?_
    rw [Function.update_of_ne (Finset.ne_of_mem_erase hq)]
  rw [← Finset.add_sum_erase _ _ (Finset.mem_univ p),
    ← Finset.add_sum_erase _ _ (Finset.mem_univ p), hrest,
    Function.update_self]
  abel

theorem le_sum (f : σ → Nat) (parts : Fin n → σ) (p : Fin n) : f (parts p) ≤ ∑ q, f (parts q) :=
  Finset.single_le_sum (f := fun q => f (parts q)) (fun _ _ => Nat.zero_le _) (Finset.mem_univ p)

theorem sum_le (f : σ → Nat) (parts : Fin n → σ) (h : ∀ q, f (parts q) ≤ k) :
    ∑ q, f (parts q) ≤ n * k := by
  have hle := Finset.sum_le_card_nsmul Finset.univ (fun q => f (parts q)) k fun q _ => h q
  rwa [Finset.card_univ, Fintype.card_fin, smul_eq_mul] at hle

theorem sum_lt_of_zero (f : σ → Nat) (parts : Fin n → σ) (h : ∀ q, f (parts q) ≤ 1)
    (hzero : f (parts p) = 0) :
    ∑ q, f (parts q) < n := by
  have hlt : ∑ q, f (parts q) < ∑ _q : Fin n, 1 :=
    Finset.sum_lt_sum (fun q _ => h q) ⟨p, Finset.mem_univ p, by rw [hzero]; exact Nat.one_pos⟩
  rwa [Finset.sum_const, Finset.card_univ, Fintype.card_fin, smul_eq_mul, Nat.mul_one] at hlt

theorem sum_eq_zero_iff (f : σ → Nat) (parts : Fin n → σ) :
    ∑ q, f (parts q) = 0 ↔ ∀ q, f (parts q) = 0 := by
  rw [Finset.sum_eq_zero_iff]
  exact ⟨fun h q => h q (Finset.mem_univ q), fun h q _ => h q⟩

end ItxLlama.Lib.Tally
