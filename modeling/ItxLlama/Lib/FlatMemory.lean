import Mathlib.Data.BitVec
import Mathlib.Data.List.Pairwise

/-!
# Flat memory with 32-bit addresses

Addresses wrap, so a range is told by the distance from its first byte. Words
are little-endian; patches to words that are apart do not see each other.
-/

namespace ItxLlama.Lib.FlatMemory

abbrev Address := BitVec 32
abbrev Memory := Address → BitVec 8

/-- One of the `n` bytes from `p` on. -/
def Within (p : Address) (n : Nat) (a : Address) : Prop := (a - p).toNat < n

instance (p : Address) (n : Nat) (a : Address) : Decidable (Within p n a) :=
  inferInstanceAs (Decidable (_ < _))

def Apart (p : Address) (n : Nat) (q : Address) (n' : Nat) : Prop :=
  ∀ a, Within p n a → ¬ Within q n' a

def memcpy (m : Memory) (dst src : Address) (n : Nat) : Memory := fun a =>
  if Within dst n a then m (src + (a - dst)) else m a

def memset (m : Memory) (dst : Address) (val : BitVec 8) (n : Nat) : Memory := fun a =>
  if Within dst n a then val else m a

def word (m : Memory) (p : Address) : BitVec 32 :=
  m (p + 3#32) ++ m (p + 2#32) ++ m (p + 1#32) ++ m p

def setWord (m : Memory) (p : Address) (v : BitVec 32) : Memory := fun a =>
  if Within p 4 a then v.extractLsb' (8 * (a - p).toNat) 8 else m a

variable {m m' : Memory} {p q a : Address} {n : Nat}

theorem word_congr (h : ∀ i < 4, m (p + BitVec.ofNat 32 i) = m' (q + BitVec.ofNat 32 i)) :
    word m p = word m' q := by
  have h0 := h 0 (by decide)
  have h1 := h 1 (by decide)
  have h2 := h 2 (by decide)
  have h3 := h 3 (by decide)
  simp only [BitVec.add_zero] at h0
  unfold word
  rw [h0, h1, h2, h3]

theorem add_sub_cancel_left (p d : Address) : p + d - p = d := by
  rw [BitVec.add_comm, BitVec.add_sub_cancel]

theorem within_offset (hi : i < n) (hn : n ≤ 2 ^ 32) : Within p n (p + BitVec.ofNat 32 i) := by
  unfold Within
  rw [add_sub_cancel_left, BitVec.toNat_ofNat, Nat.mod_eq_of_lt (Nat.lt_of_lt_of_le hi hn)]
  exact hi

theorem setWord_other (h : ¬ Within p 4 a) (v : BitVec 32) : setWord m p v a = m a := if_neg h

theorem setWord_byte (hi : i < 4) (v : BitVec 32) :
    setWord m p v (p + BitVec.ofNat 32 i) = v.extractLsb' (8 * i) 8 := by
  refine (if_pos (within_offset hi (by decide))).trans ?_
  rw [add_sub_cancel_left, BitVec.toNat_ofNat, Nat.mod_eq_of_lt (Nat.lt_trans hi (by decide))]

theorem word_setWord (m : Memory) (p : Address) (v : BitVec 32) : word (setWord m p v) p = v := by
  have h0 : setWord m p v p = v.extractLsb' 0 8 := by
    rw [← setWord_byte (m := m) (by decide : 0 < 4) v, BitVec.add_zero]
  have h1 : setWord m p v (p + 1#32) = v.extractLsb' 8 8 := setWord_byte (by decide) v
  have h2 : setWord m p v (p + 2#32) = v.extractLsb' 16 8 := setWord_byte (by decide) v
  have h3 : setWord m p v (p + 3#32) = v.extractLsb' 24 8 := setWord_byte (by decide) v
  have hhigh : v.extractLsb' 24 8 ++ v.extractLsb' 16 8 = v.extractLsb' 16 16 :=
    BitVec.extractLsb'_append_extractLsb'_eq_extractLsb' rfl
  have hmid : v.extractLsb' 16 16 ++ v.extractLsb' 8 8 = v.extractLsb' 8 24 :=
    BitVec.extractLsb'_append_extractLsb'_eq_extractLsb' rfl
  have hlow : v.extractLsb' 8 24 ++ v.extractLsb' 0 8 = v.extractLsb' 0 32 :=
    BitVec.extractLsb'_append_extractLsb'_eq_extractLsb' rfl
  unfold word
  rw [h0, h1, h2, h3, hhigh, hmid, hlow]
  exact BitVec.extractLsb'_eq_self

theorem within_add_iff {d : Address} (h : d.toNat + n ≤ 2 ^ 32) :
    Within (p + d) n a ↔ d.toNat ≤ (a - p).toNat ∧ (a - p).toNat < d.toNat + n := by
  have hsub : a - (p + d) = a - p - d := by
    rw [BitVec.sub_sub]
  unfold Within
  rw [hsub]
  generalize a - p = k
  have hk := k.isLt
  have hd := d.isLt
  rw [BitVec.toNat_sub]
  omega

-- ---------------------------------------------------------------------------
-- Patches
-- ---------------------------------------------------------------------------

/-- The word at `p` goes up by `v`. -/
def patch (v : BitVec 32) (m : Memory) (p : Address) : Memory := setWord m p (word m p + v)

variable {v : BitVec 32} {ps : List Address}

theorem foldl_patch_other (h : ∀ p ∈ ps, ¬ Within p 4 a) : ps.foldl (patch v) m a = m a := by
  induction ps generalizing m with
  | nil => rfl
  | cons p ps ih =>
    obtain ⟨hp, hps⟩ := List.forall_mem_cons.mp h
    exact (ih hps).trans (setWord_other hp _)

theorem foldl_patch_congr {S : Address → Prop} (hps : ∀ p ∈ ps, ∀ a, Within p 4 a → S a)
    (h : ∀ a, S a → m a = m' a) (ha : S a) : ps.foldl (patch v) m a = ps.foldl (patch v) m' a := by
  induction ps generalizing m m' with
  | nil => exact h a ha
  | cons p ps ih =>
    obtain ⟨hp, hps⟩ := List.forall_mem_cons.mp hps
    have hword : word m p = word m' p :=
      word_congr fun _ hi => h _ (hp _ (within_offset hi (by decide)))
    refine ih hps fun a ha => ?_
    unfold patch setWord
    rw [hword, h a ha]

theorem word_foldl_patch_other (h : ∀ p ∈ ps, Apart q 4 p 4) :
    word (ps.foldl (patch v) m) q = word m q :=
  word_congr fun _ hi => foldl_patch_other fun p hp => h p hp _ (within_offset hi (by decide))

theorem Apart.symm (h : Apart p n q n') : Apart q n' p n := fun a hq hp => h a hp hq

theorem word_foldl_patch (hapart : ps.Pairwise fun p q => Apart p 4 q 4) (hq : q ∈ ps) :
    word (ps.foldl (patch v) m) q = word m q + v := by
  induction ps generalizing m with
  | nil => exact absurd hq List.not_mem_nil
  | cons p ps ih =>
    obtain ⟨hp, hps⟩ := List.pairwise_cons.mp hapart
    rw [List.foldl_cons]
    rcases List.mem_cons.mp hq with rfl | hq
    · rw [word_foldl_patch_other hp]
      exact word_setWord m q _
    · rw [ih hps hq]
      have hother : word ([p].foldl (patch v) m) q = word m q :=
        word_foldl_patch_other (List.forall_mem_singleton.mpr (hp q hq).symm)
      rw [show patch v m p = [p].foldl (patch v) m from rfl, hother]

end ItxLlama.Lib.FlatMemory
