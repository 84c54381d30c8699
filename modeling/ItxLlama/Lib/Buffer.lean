import ItxLlama.Lib.Bytes
import Mathlib.Data.Int.Basic

/-!
# Writes into a buffer

Memory addressed from the start of a buffer, in both directions, so that a
write before the buffer or past its end is one too.
-/

namespace ItxLlama.Lib.Buffer

open Lib.Bytes

variable {m : Int → Byte} {bs : List Byte} {a b x : Int} {i k n : Nat}

/-- Bytes written from `a` on. -/
def put (m : Int → Byte) (a : Int) (bs : List Byte) : Int → Byte := fun x =>
  if a ≤ x ∧ x < a + bs.length then bs.getD (x - a).toNat 0 else m x

def fill (m : Int → Byte) (a : Int) (n : Nat) (v : Byte) : Int → Byte :=
  put m a (List.replicate n v)

def be32Bytes (x : Nat) : List Byte :=
  [BitVec.ofNat 8 (x / 2 ^ 24), BitVec.ofNat 8 (x / 2 ^ 16), BitVec.ofNat 8 (x / 2 ^ 8),
    BitVec.ofNat 8 x]

/-- The memory from `a` on. -/
def view (m : Int → Byte) (a : Int) : Nat → Byte := fun n => m (a + n)

@[simp] theorem length_be32Bytes (x : Nat) : (be32Bytes x).length = 4 := rfl

theorem put_apart (h : x < a ∨ a + bs.length ≤ x) : put m a bs x = m x := if_neg (by omega)

theorem put_get (hi : i < bs.length) : put m a bs (a + i) = bs.getD i 0 := by
  rw [put, if_pos (by omega), show (a + i - a).toNat = i by omega]

theorem fill_apart (h : x < a ∨ a + n ≤ x) : fill m a n v x = m x :=
  put_apart (by rwa [List.length_replicate])

theorem be32_put_apart (h : b + k + 4 ≤ a ∨ a + bs.length ≤ b + k) :
    be32 (view (put m a bs) b) k = be32 (view m b) k := by
  refine be32_congr fun i hi => ?_
  exact put_apart (by omega)

theorem be32_fill_apart (h : b + k + 4 ≤ a ∨ a + n ≤ b + k) :
    be32 (view (fill m a n v) b) k = be32 (view m b) k :=
  be32_put_apart (by rwa [List.length_replicate])

theorem be32_put (x k : Nat) : be32 (view (put m (a + k) (be32Bytes x)) a) k = x % 2 ^ 32 := by
  have hget (i : Nat) (hi : i < 4) :
      view (put m (a + k) (be32Bytes x)) a (k + i) = (be32Bytes x).getD i 0 := by
    rw [← put_get hi, view, Int.natCast_add, Int.add_assoc]
  have h0 : view (put m (a + k) (be32Bytes x)) a k = _ := hget 0 (by decide)
  have h1 := hget 1 (by decide)
  have h2 := hget 2 (by decide)
  have h3 := hget 3 (by decide)
  simp only [be32Bytes, List.getD_cons_zero, List.getD_cons_succ] at h0 h1 h2 h3
  unfold be32
  simp only [be32Bytes]
  rw [h0, h1, h2, h3]
  simp only [BitVec.toNat_ofNat]
  omega

end ItxLlama.Lib.Buffer
