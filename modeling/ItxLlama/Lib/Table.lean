import Mathlib.Data.List.Basic
import Mathlib.Data.List.Nodup
import Mathlib.Logic.Function.Basic

/-!
# Tables filled entry by entry

A loop sets the entries at `n` places in order.
-/

namespace ItxLlama.Lib.Table

variable {K A : Type*} [DecidableEq K]

def fill (place : Nat → K) (v : Nat → A) (n : Nat) (f : K → A) : K → A :=
  (List.range n).foldl (fun f i => Function.update f (place i) (v i)) f

variable {place : Nat → K} {v : Nat → A} {f : K → A}

theorem fill_succ (place : Nat → K) (v : Nat → A) (n : Nat) (f : K → A) :
    fill place v (n + 1) f = Function.update (fill place v n f) (place n) (v n) := by
  unfold fill
  rw [List.range_succ, List.foldl_append]
  rfl

theorem fill_other (h : ∀ i < n, place i ≠ a) : fill place v n f a = f a := by
  induction n with
  | zero => rfl
  | succ n ih =>
    rw [fill_succ, Function.update_of_ne (h n (Nat.lt_succ_self n)).symm]
    exact ih fun i hi => h i (Nat.lt_succ_of_lt hi)

theorem fill_at (place : Nat → K) (hi : i < n) (h : ∀ j, i < j → j < n → place j ≠ place i) :
    fill place v n f (place i) = v i := by
  induction n with
  | zero => exact absurd hi (Nat.not_lt_zero i)
  | succ n ih =>
    rw [fill_succ]
    by_cases hlast : i = n
    · rw [hlast, Function.update_self]
    · have hlt : i < n := Nat.lt_of_le_of_ne (Nat.le_of_lt_succ hi) hlast
      rw [Function.update_of_ne (h n hlt (Nat.lt_succ_self n)).symm]
      exact ih hlt fun j hj hn => h j hj (Nat.lt_succ_of_lt hn)

end ItxLlama.Lib.Table

/-!
## The first slots of an array

An array is a function of the index; its first `n` entries are a list.
-/

namespace ItxLlama.Lib.Slots

variable {α : Type} (q : Nat → α)

/-- The entries of the first `n` slots. -/
def contents (n : Nat) : List α := (List.range n).map q

variable {q}

@[simp] theorem length_contents : (contents q n).length = n := by
  simp [contents]

theorem mem_contents {x : α} : x ∈ contents q n ↔ ∃ i < n, q i = x := by
  simp [contents]

theorem contents_congr {q' : Nat → α} (h : ∀ i < n, q' i = q i) : contents q' n = contents q n :=
  List.map_congr_left fun i hi => h i (List.mem_range.mp hi)

theorem contents_succ : contents q (n + 1) = contents q n ++ [q n] := by
  rw [contents, List.range_succ, List.map_append]
  rfl

theorem contents_push (x : α) : contents (Function.update q n x) (n + 1) = contents q n ++ [x] := by
  rw [contents_succ, Function.update_self]
  congr 1
  exact contents_congr fun i hi => Function.update_of_ne (Nat.ne_of_lt hi) _ _

end ItxLlama.Lib.Slots
