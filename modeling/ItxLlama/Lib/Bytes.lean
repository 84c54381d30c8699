import Mathlib.Data.List.GetD
import Mathlib.Data.BitVec

/-!
# Words and strings in byte-addressed memory

A memory gives each address a byte. Words are read in either byte order; a
string ends at its first zero byte.
-/

namespace ItxLlama.Lib.Bytes

abbrev Byte := BitVec 8

variable {m m' : Nat → Byte}

def be32 (m : Nat → Byte) (a : Nat) : Nat :=
  (m a).toNat * 2 ^ 24 + (m (a + 1)).toNat * 2 ^ 16 + (m (a + 2)).toNat * 2 ^ 8 + (m (a + 3)).toNat

def le32 (m : Nat → Byte) (a : Nat) : Nat :=
  (m a).toNat + (m (a + 1)).toNat * 2 ^ 8 + (m (a + 2)).toNat * 2 ^ 16 + (m (a + 3)).toNat * 2 ^ 24

def le64 (m : Nat → Byte) (a : Nat) : Nat := le32 m a + le32 m (a + 4) * 2 ^ 32

def le16 (m : Nat → Byte) (a : Nat) : Nat := (m a).toNat + (m (a + 1)).toNat * 2 ^ 8

def be64 (m : Nat → Byte) (a : Nat) : Nat := be32 m a * 2 ^ 32 + be32 m (a + 4)

theorem be32_lt (m : Nat → Byte) (a : Nat) : be32 m a < 2 ^ 32 := by
  have := (m a).isLt
  have := (m (a + 1)).isLt
  have := (m (a + 2)).isLt
  have := (m (a + 3)).isLt
  unfold be32
  omega

theorem le32_lt (m : Nat → Byte) (a : Nat) : le32 m a < 2 ^ 32 := by
  have := (m a).isLt
  have := (m (a + 1)).isLt
  have := (m (a + 2)).isLt
  have := (m (a + 3)).isLt
  unfold le32
  omega

theorem le16_lt (m : Nat → Byte) (a : Nat) : le16 m a < 2 ^ 16 := by
  have := (m a).isLt
  have := (m (a + 1)).isLt
  unfold le16
  omega

theorem be32_congr (h : ∀ i < 4, m (a + i) = m' (b + i)) : be32 m a = be32 m' b := by
  have h0 := h 0 (by decide)
  have h1 := h 1 (by decide)
  have h2 := h 2 (by decide)
  have h3 := h 3 (by decide)
  simp only [Nat.add_zero] at h0
  unfold be32
  rw [h0, h1, h2, h3]

theorem le32_inj (h : le32 m a = le32 m' b) : ∀ i < 4, m (a + i) = m' (b + i) := by
  have h0 := (m a).isLt
  have h1 := (m (a + 1)).isLt
  have h2 := (m (a + 2)).isLt
  have h3 := (m (a + 3)).isLt
  have h0' := (m' b).isLt
  have h1' := (m' (b + 1)).isLt
  have h2' := (m' (b + 2)).isLt
  have h3' := (m' (b + 3)).isLt
  unfold le32 at h
  intro i hi
  apply BitVec.eq_of_toNat_eq
  match i, hi with
  | 0, _ => simp only [Nat.add_zero]; omega
  | 1, _ => omega
  | 2, _ => omega
  | 3, _ => omega

theorem le64_inj (h : le64 m a = le64 m' b) : ∀ i < 8, m (a + i) = m' (b + i) := by
  have hl := le32_lt m a
  have hl' := le32_lt m' b
  unfold le64 at h
  intro i hi
  rcases Nat.lt_or_ge i 4 with h4 | h4
  · exact le32_inj (by omega) i h4
  · have := @le32_inj m m' (a + 4) (b + 4) (by omega) (i - 4) (by omega)
    rwa [show a + 4 + (i - 4) = a + i by omega, show b + 4 + (i - 4) = b + i by omega] at this

theorem le64_congr (h : ∀ i < 8, m (a + i) = m' (b + i)) : le64 m a = le64 m' b := by
  have h0 := h 0 (by decide)
  simp only [Nat.add_zero] at h0
  unfold le64 le32
  simp only [Nat.add_assoc, Nat.reduceAdd]
  rw [h0, h 1 (by decide), h 2 (by decide), h 3 (by decide), h 4 (by decide), h 5 (by decide),
    h 6 (by decide), h 7 (by decide)]

-- ---------------------------------------------------------------------------
-- Runs of bytes
-- ---------------------------------------------------------------------------

/-- The bytes from an address on. -/
def Has (m : Nat → Byte) (a : Nat) (bytes : List Byte) : Prop :=
  ∀ i < bytes.length, m (a + i) = bytes.getD i 0

theorem Has.nil : Has m a [] := fun _ hi => absurd hi (Nat.not_lt_zero _)

theorem has_append : Has m a (xs ++ ys) ↔ Has m a xs ∧ Has m (a + xs.length) ys := by
  constructor
  · intro h
    refine ⟨fun i hi => ?_, fun i hi => ?_⟩
    · rw [h i (by rw [List.length_append]; omega), List.getD_append _ _ _ _ hi]
    · rw [Nat.add_assoc, h _ (by rw [List.length_append]; omega),
        List.getD_append_right _ _ _ _ (Nat.le_add_right _ _), Nat.add_sub_cancel_left]
  · rintro ⟨hx, hy⟩ i hi
    by_cases hlt : i < xs.length
    · rw [hx i hlt, List.getD_append _ _ _ _ hlt]
    · have hge := Nat.le_of_not_lt hlt
      rw [List.length_append] at hi
      have hin := hy (i - xs.length) (by omega)
      rw [Nat.add_assoc, Nat.add_sub_of_le hge] at hin
      rw [hin, List.getD_append_right _ _ _ _ hge]

theorem Has.congr (h : Has m a bytes) (heq : ∀ i < bytes.length, m' (b + i) = m (a + i)) :
    Has m' b bytes := fun i hi => (heq i hi).trans (h i hi)

/-- The bytes of a word, the lowest first. -/
def le32Bytes (x : Nat) : List Byte :=
  [BitVec.ofNat 8 x, BitVec.ofNat 8 (x / 2 ^ 8), BitVec.ofNat 8 (x / 2 ^ 16),
    BitVec.ofNat 8 (x / 2 ^ 24)]

theorem Has.le32 (h : Has m a (le32Bytes x)) : le32 m a = x % 2 ^ 32 := by
  have h0 : m a = _ := h 0 (by decide : 0 < 4)
  have h1 := h 1 (by decide : 1 < 4)
  have h2 := h 2 (by decide : 2 < 4)
  have h3 := h 3 (by decide : 3 < 4)
  simp only [le32Bytes, List.getD_cons_zero, List.getD_cons_succ] at h0 h1 h2 h3
  unfold Bytes.le32
  rw [h0, h1, h2, h3]
  simp only [BitVec.toNat_ofNat]
  omega

-- ---------------------------------------------------------------------------
-- Strings
-- ---------------------------------------------------------------------------

/-- `strcmp(a, s) == 0`, for a string `s` without its terminator. -/
def streq (m : Nat → Byte) : (a : Nat) → (s : List Byte) → Bool
  | a, [] => m a = 0
  | a, c :: s => m a = c && streq m (a + 1) s

/-- `strtcpy` into a buffer of `len` bytes. -/
def strtcpy (m : Nat → Byte) : (a len : Nat) → List Byte
  | _, 0 | _, 1 => []
  | a, len + 2 => if m a = 0 then [] else m a :: strtcpy m (a + 1) (len + 1)

/-- How many bytes at `a` `strcmp(a, s)` looks at. -/
def strcmpReads (m : Nat → Byte) : (a : Nat) → (s : List Byte) → Nat
  | _, [] => 1
  | a, c :: s => if m a = c ∧ m a ≠ 0 then strcmpReads m (a + 1) s + 1 else 1

/-- How many bytes at `a` `strtcpy` looks at. -/
def strtcpyReads (m : Nat → Byte) : (a len : Nat) → Nat
  | _, 0 | _, 1 => 0
  | a, len + 2 => if m a = 0 then 1 else strtcpyReads m (a + 1) (len + 1) + 1

theorem strcmpReads_pos (m : Nat → Byte) (a : Nat) (s : List Byte) : 0 < strcmpReads m a s := by
  cases s with
  | nil => exact Nat.one_pos
  | cons c s =>
    unfold strcmpReads
    split
    · exact Nat.succ_pos _
    · exact Nat.one_pos

theorem streq_congr (h : ∀ i ≤ s.length, m (a + i) = m' (b + i)) : streq m a s = streq m' b s := by
  induction s generalizing a b with
  | nil => simp only [streq, show m a = m' b from h 0 (Nat.zero_le _)]
  | cons c s ih =>
    have htail : streq m (a + 1) s = streq m' (b + 1) s := by
      refine ih fun i hi => ?_
      rw [Nat.add_assoc, Nat.add_assoc, Nat.add_comm 1 i]
      exact h (i + 1) (Nat.succ_le_succ hi)
    simp only [streq, show m a = m' b from h 0 (Nat.zero_le _), htail]

theorem streq_unique (hs : 0 ∉ s) (ht : 0 ∉ t) (h : streq m a s = true) (h' : streq m a t = true) :
    s = t := by
  induction s generalizing a t with
  | nil =>
    cases t with
    | nil => rfl
    | cons c t =>
      simp only [streq, decide_eq_true_eq, Bool.and_eq_true] at h h'
      simp [← h'.1, h] at ht
  | cons c s ih =>
    cases t with
    | nil =>
      simp only [streq, decide_eq_true_eq, Bool.and_eq_true] at h h'
      simp [← h.1, h'] at hs
    | cons d t =>
      simp only [streq, decide_eq_true_eq, Bool.and_eq_true] at h h'
      simp only [List.mem_cons, not_or] at hs ht
      rw [← h.1, ← h'.1, ih hs.2 ht.2 h.2 h'.2]

theorem strtcpy_eq (hs : 0 ∉ s) (h : streq m a s = true) (hlen : s.length < len) :
    strtcpy m a len = s := by
  induction s generalizing a len with
  | nil =>
    match len, hlen with
    | 1, _ => rfl
    | len + 2, _ =>
      simp only [streq, decide_eq_true_eq] at h
      rw [strtcpy, if_pos h]
  | cons c s ih =>
    match len, hlen with
    | len + 2, hlen =>
      simp only [streq, decide_eq_true_eq, Bool.and_eq_true] at h
      simp only [List.mem_cons, not_or] at hs
      rw [strtcpy, if_neg (by rw [h.1]; exact Ne.symm hs.1), h.1,
        ih hs.2 h.2 (Nat.lt_of_succ_lt_succ hlen)]

end ItxLlama.Lib.Bytes
