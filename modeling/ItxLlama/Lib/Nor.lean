import Mathlib.Data.List.Basic

/-!
# NOR flash cells

An array of `w`-bit cells in which programming can only clear bits and
erasing sets a whole block to ones. Programming an erased cell stores the
value; everything outside the programmed range or the erased block is kept.
-/

namespace ItxLlama.Lib.Nor

abbrev Cells (w : Nat) := Nat → BitVec w

/-- Programming ANDs the value into the cell. -/
def program (m : Cells w) (a : Nat) (v : BitVec w) : Cells w :=
  fun b => if b = a then m a &&& v else m b

/-- Erasing sets the aligned block that contains `a` to ones. -/
def eraseBlock (m : Cells w) (block a : Nat) : Cells w :=
  fun b => if b / block = a / block then BitVec.allOnes w else m b

/-- Consecutive cells, programmed upwards from `a`. -/
def programAll (m : Cells w) (a : Nat) : List (BitVec w) → Cells w
  | [] => m
  | v :: vs => programAll (program m a v) (a + 1) vs

@[simp] theorem program_same (m : Cells w) (a : Nat) (v : BitVec w) :
    program m a v a = m a &&& v := by
  simp [program]

theorem program_ne (m : Cells w) (v : BitVec w) (h : b ≠ a) : program m a v b = m b := by
  simp [program, h]

theorem eraseBlock_inside (m : Cells w) (h : b / block = a / block) :
    eraseBlock m block a b = BitVec.allOnes w := by
  simp [eraseBlock, h]

theorem eraseBlock_outside (m : Cells w) (h : b / block ≠ a / block) :
    eraseBlock m block a b = m b := by
  simp [eraseBlock, h]

theorem programAll_outside (m : Cells w) (vs : List (BitVec w))
    (h : b < a ∨ a + vs.length ≤ b) : programAll m a vs b = m b := by
  induction vs generalizing m a with
  | nil => rfl
  | cons v vs ih =>
    simp only [List.length_cons] at h
    rw [programAll, ih _ (by omega), program_ne _ _ (by omega)]

theorem programAll_inside (m : Cells w) (a : Nat) (vs : List (BitVec w)) (h : i < vs.length) :
    programAll m a vs (a + i) = m (a + i) &&& vs[i] := by
  induction vs generalizing m a i with
  | nil => simp at h
  | cons v vs ih =>
    cases i with
    | zero =>
      rw [programAll, programAll_outside _ _ (by omega)]
      simp
    | succ i =>
      have hi : i < vs.length := by simpa using h
      have hne : a + (i + 1) ≠ a := by omega
      have := ih (program m a v) (a + 1) hi
      rw [show a + 1 + i = a + (i + 1) by omega, program_ne _ _ hne] at this
      simpa [programAll] using this

theorem programAll_erased (m : Cells w) (a : Nat) (vs : List (BitVec w)) (h : i < vs.length)
    (he : m (a + i) = BitVec.allOnes w) : programAll m a vs (a + i) = vs[i] := by
  rw [programAll_inside m a vs h, he, BitVec.allOnes_and]

end ItxLlama.Lib.Nor
