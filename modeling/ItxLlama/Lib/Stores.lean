import ItxLlama.Lib.Bytes

/-!
# Stores to the fields of a record

A store puts a little-endian number at an address. A list of stores leaves
what lies outside of all of them alone, and a checksum byte behind a range
makes its bytes sum to 0.
-/

namespace ItxLlama.Lib.Stores

open Bytes

structure Store where
  addr : Nat
  len : Nat
  value : Nat
  deriving DecidableEq, Repr

def Store.run (m : Nat → Byte) (w : Store) : Nat → Byte := fun i =>
  if w.addr ≤ i ∧ i < w.addr + w.len then BitVec.ofNat 8 (w.value >>> (8 * (i - w.addr))) else m i

def run (m : Nat → Byte) (ws : List Store) : Nat → Byte := ws.foldl Store.run m

/-- Where the last byte stored ends. -/
def extent (ws : List Store) : Nat := ws.foldr (fun w n => max (w.addr + w.len) n) 0

def sumBytes (m : Nat → Byte) (a : Nat) : (n : Nat) → Byte
  | 0 => 0
  | n + 1 => sumBytes m a n + m (a + n)

variable {m m' : Nat → Byte} {ws : List Store}

theorem run_append (m : Nat → Byte) (ws ws' : List Store) :
    run m (ws ++ ws') = run (run m ws) ws' := List.foldl_append

theorem Store.run_other {w : Store} (h : i < w.addr ∨ w.addr + w.len ≤ i) : w.run m i = m i :=
  if_neg (by omega)

theorem run_other (h : ∀ w ∈ ws, i < w.addr ∨ w.addr + w.len ≤ i) : run m ws i = m i := by
  induction ws generalizing m with
  | nil => rfl
  | cons w ws ih =>
    have hw := List.forall_mem_cons.mp h
    exact (ih hw.2).trans (Store.run_other hw.1)

theorem extent_le_iff : extent ws ≤ n ↔ ∀ w ∈ ws, w.addr + w.len ≤ n := by
  induction ws with
  | nil => simp [extent]
  | cons w ws ih =>
    rw [List.forall_mem_cons, ← ih]
    exact Nat.max_le

theorem extent_append (ws ws' : List Store) :
    extent (ws ++ ws') = max (extent ws) (extent ws') := by
  induction ws with
  | nil => simp [extent]
  | cons w ws ih =>
    simp only [extent, List.cons_append, List.foldr_cons] at ih ⊢
    rw [ih, Nat.max_assoc]

theorem run_at {w : Store} (hlo : w.addr ≤ i) (hhi : i < w.addr + w.len)
    (h : ∀ w' ∈ ws, i < w'.addr ∨ w'.addr + w'.len ≤ i) :
    run m (w :: ws) i = BitVec.ofNat 8 (w.value >>> (8 * (i - w.addr))) := by
  have hother : run (w.run m) ws i = w.run m i := run_other h
  exact hother.trans (if_pos ⟨hlo, hhi⟩)

theorem run_le16 (hv : v < 2 ^ 16) (h : ∀ w ∈ ws, a + 2 ≤ w.addr ∨ w.addr + w.len ≤ a) :
    le16 (run m (⟨a, 2, v⟩ :: ws)) a = v := by
  have h0 : run m (⟨a, 2, v⟩ :: ws) a = BitVec.ofNat 8 (v >>> (8 * (a - a))) :=
    run_at (Nat.le_refl a) (Nat.lt_add_of_pos_right Nat.two_pos) fun w hw => by
      have := h w hw
      omega
  have h1 : run m (⟨a, 2, v⟩ :: ws) (a + 1) = BitVec.ofNat 8 (v >>> (8 * (a + 1 - a))) :=
    run_at (Nat.le_add_right a 1) (Nat.lt_succ_self _) fun w hw => by
      have := h w hw
      omega
  rw [le16, h0, h1, Nat.add_sub_cancel_left, Nat.sub_self, Nat.shiftRight_eq_div_pow,
    Nat.shiftRight_eq_div_pow]
  simp only [BitVec.toNat_ofNat]
  omega

theorem run_le64 (m : Nat → Byte) (a v : Nat) : le64 (Store.run m ⟨a, 8, v⟩) a = v % 2 ^ 64 := by
  have hbyte (i : Nat) (hi : i < 8) :
      Store.run m ⟨a, 8, v⟩ (a + i) = BitVec.ofNat 8 (v / 2 ^ (8 * i)) := by
    refine (if_pos ⟨Nat.le_add_right a i, Nat.add_lt_add_left hi a⟩).trans ?_
    rw [Nat.add_sub_cancel_left, Nat.shiftRight_eq_div_pow]
  have h0 := hbyte 0 (by decide)
  rw [Nat.add_zero] at h0
  unfold le64 le32
  simp only [Nat.add_assoc, Nat.reduceAdd]
  rw [h0, hbyte 1 (by decide), hbyte 2 (by decide), hbyte 3 (by decide), hbyte 4 (by decide),
    hbyte 5 (by decide), hbyte 6 (by decide), hbyte 7 (by decide)]
  simp only [BitVec.toNat_ofNat]
  omega

theorem sumBytes_congr (h : ∀ i < n, m (a + i) = m' (a + i)) :
    sumBytes m a n = sumBytes m' a n := by
  induction n with
  | zero => rfl
  | succ n ih =>
    rw [sumBytes, sumBytes, ih fun i hi => h i (Nat.lt_succ_of_lt hi), h n (Nat.lt_succ_self n)]

theorem sumBytes_closed (m : Nat → Byte) (a n : Nat) :
    sumBytes (Store.run m ⟨a + n, 1, (-sumBytes m a n).toNat⟩) a (n + 1) = 0 := by
  have hrange : sumBytes (Store.run m ⟨a + n, 1, (-sumBytes m a n).toNat⟩) a n = sumBytes m a n :=
    sumBytes_congr fun i hi => Store.run_other (.inl (by simp only; omega))
  have hlast : Store.run m ⟨a + n, 1, (-sumBytes m a n).toNat⟩ (a + n) = -sumBytes m a n := by
    refine (if_pos ⟨Nat.le_refl _, Nat.lt_succ_self _⟩).trans ?_
    rw [Nat.sub_self, Nat.mul_zero, Nat.shiftRight_zero, BitVec.ofNat_toNat, BitVec.setWidth_eq]
  rw [sumBytes, hrange, hlast, BitVec.add_right_neg]
  rfl

end ItxLlama.Lib.Stores
