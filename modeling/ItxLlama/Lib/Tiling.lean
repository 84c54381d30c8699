import Mathlib.Data.List.Basic
import Mathlib.Data.List.Pairwise

/-!
# Tilings of an address range

A list of pieces tiles `[bot, top)` when each piece starts where the one
before it ended. `lo` and `hi` bound a piece; a piece can be empty.
-/

namespace ItxLlama.Lib.Tiling

section Tiling

variable {α : Type} (lo hi : α → Nat)

def Tiles : (bot : Nat) → List α → (top : Nat) → Prop
  | bot, [], top => bot = top
  | bot, c :: cs, top => lo c = bot ∧ lo c ≤ hi c ∧ Tiles (hi c) cs top

variable {lo hi}

@[simp] theorem tiles_nil : Tiles lo hi bot [] top ↔ bot = top := .rfl

@[simp] theorem tiles_cons {c : α} :
    Tiles lo hi bot (c :: cs) top ↔ lo c = bot ∧ lo c ≤ hi c ∧ Tiles lo hi (hi c) cs top := .rfl

theorem tiles_append {pre post : List α} : Tiles lo hi bot (pre ++ post) top ↔
    ∃ mid, Tiles lo hi bot pre mid ∧ Tiles lo hi mid post top := by
  induction pre generalizing bot with
  | nil => simp
  | cons c pre ih =>
    simp only [List.cons_append, tiles_cons, ih]
    constructor
    · rintro ⟨h1, h2, mid, h3, h4⟩
      exact ⟨mid, ⟨h1, h2, h3⟩, h4⟩
    · rintro ⟨mid, ⟨h1, h2, h3⟩, h4⟩
      exact ⟨h1, h2, mid, h3, h4⟩

theorem Tiles.le {cs : List α} (h : Tiles lo hi bot cs top) : bot ≤ top := by
  induction cs generalizing bot with
  | nil => exact Nat.le_of_eq h
  | cons c cs ih =>
    obtain ⟨h1, h2, h3⟩ := h
    have := ih h3
    omega

theorem Tiles.bounds {cs : List α} (h : Tiles lo hi bot cs top) (hc : c ∈ cs) :
    bot ≤ lo c ∧ lo c ≤ hi c ∧ hi c ≤ top := by
  induction cs generalizing bot with
  | nil => simp at hc
  | cons d cs ih =>
    obtain ⟨h1, h2, h3⟩ := h
    rcases List.mem_cons.mp hc with rfl | hc
    · exact ⟨Nat.le_of_eq h1.symm, h2, h3.le⟩
    · obtain ⟨hb, hs, ht⟩ := ih h3 hc
      exact ⟨by omega, hs, ht⟩

theorem Tiles.pairwise {cs : List α} (h : Tiles lo hi bot cs top) :
    cs.Pairwise fun c d => hi c ≤ lo d := by
  induction cs generalizing bot with
  | nil => exact .nil
  | cons c cs ih => exact List.pairwise_cons.mpr ⟨fun d hd => (h.2.2.bounds hd).1, ih h.2.2⟩

theorem Tiles.covers {cs : List α} (h : Tiles lo hi bot cs top) (x : Nat) :
    (∃ c ∈ cs, lo c ≤ x ∧ x < hi c) ↔ bot ≤ x ∧ x < top := by
  induction cs generalizing bot with
  | nil =>
    obtain rfl : bot = top := h
    simp only [List.not_mem_nil, false_and, exists_false, false_iff]
    omega
  | cons c cs ih =>
    obtain ⟨h1, h2, h3⟩ := h
    have hle := h3.le
    simp only [List.mem_cons, exists_eq_or_imp, ih h3]
    omega

end Tiling

end ItxLlama.Lib.Tiling
