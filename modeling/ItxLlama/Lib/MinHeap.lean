import ItxLlama.Lib.Table
import Mathlib.Data.BitVec
import Mathlib.Data.List.Perm.Basic
import Mathlib.Data.List.Range
import Mathlib.Logic.Equiv.Basic
import Mathlib.Order.Defs.LinearOrder

/-!
# Binary heaps in an array

The children of slot `i` are `2 i + 1` and `2 i + 2`. Sifting exchanges one
entry with its parent or with its least child: everywhere else the order
holds, and the exchange moves the one place where it may not.
-/

namespace ItxLlama.Lib.MinHeap

open Slots

def parent (i : Nat) : Nat := (i - 1) / 2

theorem parent_lt (h : 0 < i) : parent i < i := by
  unfold parent
  omega

section Array

variable {α : Type} (q : Nat → α)

def exchange (i j : Nat) : Nat → α := q ∘ Equiv.swap i j

variable {q}

theorem exchange_left (i j : Nat) : exchange q i j i = q j :=
  congrArg q (Equiv.swap_apply_left i j)

theorem exchange_right (i j : Nat) : exchange q i j j = q i :=
  congrArg q (Equiv.swap_apply_right i j)

theorem exchange_of_ne (hi : k ≠ i) (hj : k ≠ j) : exchange q i j k = q k :=
  congrArg q (Equiv.swap_apply_of_ne_of_ne hi hj)

theorem update_update (i j : Nat) :
    Function.update (Function.update q i (q j)) j (q i) = exchange q i j := by
  funext k
  by_cases hj : k = j
  · rw [hj, Function.update_self, exchange_right]
  · rw [Function.update_of_ne hj]
    by_cases hi : k = i
    · rw [hi, Function.update_self, exchange_left]
    · rw [Function.update_of_ne hi, exchange_of_ne hi hj]

theorem contents_exchange (hi : i < n) (hj : j < n) :
    (contents (exchange q i j) n).Perm (contents q n) := by
  have hmem : ∀ k, Equiv.swap i j k < n ↔ k < n := by
    intro k
    rw [Equiv.swap_apply_def]
    split
    · omega
    · split <;> omega
  have hperm : ((List.range n).map (Equiv.swap i j)).Perm (List.range n) := by
    refine (List.perm_ext_iff_of_nodup
      (List.Nodup.map (Equiv.injective (Equiv.swap i j)) List.nodup_range)
      List.nodup_range).mpr fun k => ?_
    rw [List.mem_map, List.mem_range]
    constructor
    · rintro ⟨a, ha, rfl⟩
      exact (hmem a).mpr (List.mem_range.mp ha)
    · intro hk
      exact ⟨Equiv.swap i j k, List.mem_range.mpr ((hmem k).mpr hk), Equiv.swap_apply_self i j k⟩
  have hcomp : contents (exchange q i j) n = ((List.range n).map (Equiv.swap i j)).map q := by
    rw [List.map_map]
    rfl
  rw [hcomp]
  exact hperm.map q

theorem contents_pop :
    (contents q (n + 1)).Perm (q 0 :: contents (Function.update q 0 (q n)) n) := by
  rw [contents_succ]
  cases n with
  | zero => exact List.Perm.refl _
  | succ n =>
    have htail : ∀ m, (List.range m).map (fun i => Function.update q 0 (q (n + 1)) (i + 1)) =
        (List.range m).map fun i => q (i + 1) :=
      fun m => List.map_congr_left fun i _ => Function.update_of_ne (Nat.succ_ne_zero i) _ _
    unfold contents
    rw [List.range_succ_eq_map, List.map_cons, List.map_cons, List.map_map, List.map_map,
      Function.update_self]
    simp only [Function.comp_def, Nat.succ_eq_add_one]
    rw [htail, List.cons_append, List.perm_cons]
    exact List.perm_append_singleton _ _

end Array

-- ---------------------------------------------------------------------------
-- Order
-- ---------------------------------------------------------------------------

section Order

variable {α κ : Type} [LinearOrder κ] (key : α → κ)

/-- No entry is before its parent. -/
def IsHeap (q : Nat → α) (n : Nat) : Prop :=
  ∀ i, 0 < i → i < n → key (q (parent i)) ≤ key (q i)

/-- Only `index` may be before its parent. -/
structure UpFrom (q : Nat → α) (n index : Nat) : Prop where
  others : ∀ i, 0 < i → i < n → i ≠ index → key (q (parent i)) ≤ key (q i)
  around : 0 < index → ∀ i, 0 < i → i < n → parent i = index →
    key (q (parent index)) ≤ key (q i)

/-- Only the children of `index` may be before it. -/
structure DownFrom (q : Nat → α) (n index : Nat) : Prop where
  others : ∀ i, 0 < i → i < n → parent i ≠ index → key (q (parent i)) ≤ key (q i)
  around : 0 < index → ∀ i, 0 < i → i < n → parent i = index →
    key (q (parent index)) ≤ key (q i)

variable {key} {q : Nat → α}

theorem IsHeap.root_le (h : IsHeap key q n) (hi : i < n) : key (q 0) ≤ key (q i) := by
  induction i using Nat.strong_induction_on with
  | _ i ih =>
    rcases Nat.eq_zero_or_pos i with rfl | hpos
    · exact le_refl _
    · have hlt := parent_lt hpos
      exact (ih _ hlt (Nat.lt_trans hlt hi)).trans (h i hpos hi)

theorem IsHeap.congr_key {key' : α → κ} (h : IsHeap key q n)
    (hkey : ∀ i < n, key' (q i) = key (q i)) :
    IsHeap key' q n := by
  intro i hpos hi
  rw [hkey i hi, hkey _ (Nat.lt_trans (parent_lt hpos) hi)]
  exact h i hpos hi

theorem IsHeap.push (h : IsHeap key q n) (x : α) :
    UpFrom key (Function.update q n x) (n + 1) n := by
  refine ⟨fun i hpos hi hne => ?_, fun _ i hpos hi hpar => ?_⟩
  · have hlt := parent_lt hpos
    rw [Function.update_of_ne (by omega), Function.update_of_ne (by omega)]
    exact h i hpos (by omega)
  · have := parent_lt hpos
    omega

theorem UpFrom.isHeap (h : UpFrom key q n index)
    (hdone : 0 < index → key (q (parent index)) ≤ key (q index)) : IsHeap key q n := by
  intro i hpos hi
  by_cases hne : i = index
  · exact hne ▸ hdone (hne ▸ hpos)
  · exact h.others i hpos hi hne

theorem UpFrom.step (h : UpFrom key q n index) (hpos : 0 < index) (hi : index < n)
    (hlt : key (q index) < key (q (parent index))) :
    UpFrom key (exchange q (parent index) index) n (parent index) := by
  have hp := parent_lt hpos
  refine ⟨fun i hipos hin hne => ?_, fun hppos i hipos hin hpar => ?_⟩
  · have hip := parent_lt hipos
    by_cases hidx : i = index
    · rw [hidx, exchange_left, exchange_right]
      exact hlt.le
    rw [exchange_of_ne (q := q) hne hidx]
    by_cases hpi : parent i = parent index
    · -- a sibling, which is not before the old parent
      rw [hpi, exchange_left]
      have := h.others i hipos hin hidx
      rw [hpi] at this
      exact hlt.le.trans this
    by_cases hpx : parent i = index
    · rw [hpx, exchange_right]
      exact h.around hpos i hipos hin hpx
    · rw [exchange_of_ne (q := q) hpi hpx]
      exact h.others i hipos hin hidx
  · have hpp := parent_lt hppos
    have hgrand := h.others (parent index) hppos (Nat.lt_trans hp hi) (Nat.ne_of_lt hp)
    rw [exchange_of_ne (q := q) (Nat.ne_of_lt hpp) (by omega)]
    by_cases hidx : i = index
    · rw [hidx, exchange_right]
      exact hgrand
    · have hip := parent_lt hipos
      rw [exchange_of_ne (q := q) (by omega) hidx]
      have := h.others i hipos hin hidx
      rw [hpar] at this
      exact hgrand.trans this

theorem IsHeap.pop (h : IsHeap key q (n + 1)) :
    DownFrom key (Function.update q 0 (q n)) n 0 := by
  refine ⟨fun i hpos hi hne => ?_, fun hpos => absurd hpos (Nat.lt_irrefl 0)⟩
  rw [Function.update_of_ne hne, Function.update_of_ne (Nat.ne_of_gt hpos)]
  exact h i hpos (Nat.lt_succ_of_lt hi)

theorem DownFrom.isHeap (h : DownFrom key q n index)
    (hdone : ∀ i, 0 < i → i < n → parent i = index → key (q index) ≤ key (q i)) :
    IsHeap key q n := by
  intro i hpos hi
  by_cases hpar : parent i = index
  · exact hpar ▸ hdone i hpos hi hpar
  · exact h.others i hpos hi hpar

theorem DownFrom.step (h : DownFrom key q n index) (hpos : 0 < child) (hi : child < n)
    (hchild : parent child = index) (hlt : key (q child) < key (q index))
    (hmin : ∀ i, 0 < i → i < n → parent i = index → key (q child) ≤ key (q i)) :
    DownFrom key (exchange q child index) n child := by
  have hp := parent_lt hpos
  refine ⟨fun i hipos hin hne => ?_, fun _ i hipos hin hpar => ?_⟩
  · have hip := parent_lt hipos
    by_cases hpi : parent i = index
    · rw [hpi, exchange_right]
      by_cases hic : i = child
      · rw [hic, exchange_left]
        exact hlt.le
      · rw [exchange_of_ne (q := q) hic (by omega)]
        exact hmin i hipos hin hpi
    rw [exchange_of_ne (q := q) hne hpi]
    by_cases hidx : i = index
    · -- the child that comes up is not before the parent
      rw [hidx, exchange_right]
      exact h.around (hidx ▸ hipos) child hpos hi hchild
    · by_cases hic : i = child
      · exact absurd (hic ▸ hchild) hpi
      · rw [exchange_of_ne (q := q) hic hidx]
        exact h.others i hipos hin hpi
  · have hip := parent_lt hipos
    rw [hchild, exchange_right, exchange_of_ne (q := q) (by omega) (by omega)]
    have := h.others i hipos hin (by omega)
    rwa [hpar] at this

end Order

end ItxLlama.Lib.MinHeap
