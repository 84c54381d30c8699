import Mathlib.Data.Option.Basic

/-!
# Memory written in patches

A patch has a value for some addresses. Patches written one after the other
give an address the value that all patches with a value there agree on, and
leave the others alone.
-/

namespace ItxLlama.Lib.Overlay

variable {α β : Type} {m : α → β} {ps : List (α → Option β)} {x : α}

/-- `m` with the patch `p` written over it. -/
def overlay (m : α → β) (p : α → Option β) : α → β := fun x => (p x).getD (m x)

theorem overlay_none {p : α → Option β} (h : p x = none) : overlay m p x = m x := by
  simp [overlay, h]

theorem overlay_some {p : α → Option β} (h : p x = some b) : overlay m p x = b := by
  simp [overlay, h]

theorem foldl_overlay_none (h : ∀ p ∈ ps, p x = none) : ps.foldl overlay m x = m x := by
  induction ps generalizing m with
  | nil => rfl
  | cons p ps ih =>
    obtain ⟨hp, hps⟩ := List.forall_mem_cons.mp h
    rw [List.foldl_cons, ih hps, overlay_none hp]

theorem foldl_overlay_congr {m m' : α → β} (h : m x = m' x) :
    ps.foldl overlay m x = ps.foldl overlay m' x := by
  induction ps generalizing m m' with
  | nil => exact h
  | cons p ps ih =>
    refine ih ?_
    rw [overlay, overlay, h]

theorem foldl_overlay_some (hagree : ∀ p ∈ ps, ∀ b, p x = some b → b = v)
    (hsome : ∃ p ∈ ps, p x ≠ none) : ps.foldl overlay m x = v := by
  induction ps generalizing m with
  | nil => simp at hsome
  | cons p ps ih =>
    obtain ⟨hp, hps⟩ := List.forall_mem_cons.mp hagree
    rw [List.foldl_cons]
    by_cases hlater : ∃ q ∈ ps, q x ≠ none
    · exact ih hps hlater
    · have hnone : ∀ q ∈ ps, q x = none := by simpa using hlater
      obtain ⟨q, hq, hqx⟩ := hsome
      obtain rfl : q = p := by
        rcases List.mem_cons.mp hq with rfl | hq
        · rfl
        · exact absurd (hnone q hq) hqx
      obtain ⟨b, hb⟩ := Option.ne_none_iff_exists'.mp hqx
      rw [foldl_overlay_none hnone, overlay_some hb, hp b hb]

end ItxLlama.Lib.Overlay
