import Mathlib.Data.List.Basic
import Mathlib.Data.List.Pairwise

/-!
# Carving blocks off the top of a region

A region `[bot, top)` from which non-empty blocks are cut downwards: `lo` and
`hi` bound a block, the blocks are listed from the top, and the space between
a block and the one below it is slack. Each block can be cut anywhere in a
slack, and taking one out gives its space to the slack it lay in.
-/

namespace ItxLlama.Lib.Carve

section Carve

variable {α : Type} (lo hi : α → Nat)

def Carved (bot top : Nat) : List α → Prop
  | [] => bot ≤ top
  | c :: cs => lo c < hi c ∧ hi c ≤ top ∧ Carved bot (lo c) cs

/-- The upper bound of the slack below the blocks `pre`. -/
def topAfter (top : Nat) : List α → Nat
  | [] => top
  | c :: cs => topAfter (lo c) cs

/-- The lower bound of the slack above the blocks `post`. -/
def botBefore (bot : Nat) : List α → Nat
  | [] => bot
  | c :: _ => hi c

@[simp] theorem topAfter_nil (top : Nat) : topAfter lo top [] = top := rfl

@[simp] theorem topAfter_cons (top : Nat) (c : α) (cs : List α) :
    topAfter lo top (c :: cs) = topAfter lo (lo c) cs := rfl

@[simp] theorem botBefore_nil (bot : Nat) : botBefore hi bot [] = bot := rfl

@[simp] theorem botBefore_cons (bot : Nat) (c : α) (cs : List α) :
    botBefore hi bot (c :: cs) = hi c := rfl

variable {lo hi}

theorem Carved.le {cs : List α} (h : Carved lo hi bot top cs) : bot ≤ top := by
  induction cs generalizing top with
  | nil => exact h
  | cons c cs ih =>
    obtain ⟨h1, h2, h3⟩ := h
    have := ih h3
    omega

theorem carved_append {pre post : List α} : Carved lo hi bot top (pre ++ post) ↔
    Carved lo hi (topAfter lo top pre) top pre ∧ Carved lo hi bot (topAfter lo top pre) post := by
  induction pre generalizing top with
  | nil => simp [Carved]
  | cons c pre ih =>
    simp only [List.cons_append, Carved, topAfter_cons, ih, and_assoc]

theorem Carved.of_botBefore {post : List α} (h : Carved lo hi bot top post)
    (hle : botBefore hi bot post ≤ x) : Carved lo hi bot x post := by
  cases post with
  | nil => exact hle
  | cons c post => exact ⟨h.1, hle, h.2.2⟩

theorem Carved.insert {pre post : List α} (h : Carved lo hi bot top (pre ++ post)) {c : α}
    (hlo : botBefore hi bot post ≤ lo c) (hc : lo c < hi c) (hhi : hi c ≤ topAfter lo top pre) :
    Carved lo hi bot top (pre ++ c :: post) := by
  rw [carved_append] at h ⊢
  exact ⟨h.1, hc, hhi, h.2.of_botBefore hlo⟩

theorem Carved.raise {cs : List α} (h : Carved lo hi bot top cs) (hle : top ≤ top') :
    Carved lo hi bot top' cs := by
  cases cs with
  | nil => exact Nat.le_trans h hle
  | cons c cs => exact ⟨h.1, Nat.le_trans h.2.1 hle, h.2.2⟩

/-- The region's lower end moved within the lowest slack, or below. -/
theorem Carved.rebase {cs : List α} (h : Carved lo hi bot top cs) (hle : bot' ≤ topAfter lo top cs)
    :
    Carved lo hi bot' top cs := by
  induction cs generalizing top with
  | nil => exact hle
  | cons c cs ih =>
    obtain ⟨h1, h2, h3⟩ := h
    exact ⟨h1, h2, ih h3 hle⟩

theorem Carved.delete {pre post : List α} {c : α} (h : Carved lo hi bot top (pre ++ c :: post)) :
    Carved lo hi bot top (pre ++ post) := by
  rw [carved_append] at h ⊢
  obtain ⟨hpre, h1, h2, h3⟩ := h
  exact ⟨hpre, h3.raise (by omega)⟩

theorem Carved.bounds {cs : List α} (h : Carved lo hi bot top cs) (hc : c ∈ cs) :
    bot ≤ lo c ∧ lo c < hi c ∧ hi c ≤ top := by
  obtain ⟨pre, post, rfl⟩ := List.append_of_mem hc
  obtain ⟨hpre, h1, h2, h3⟩ := carved_append.mp h
  exact ⟨h3.le, h1, Nat.le_trans h2 hpre.le⟩

theorem Carved.pairwise {cs : List α} (h : Carved lo hi bot top cs) :
    cs.Pairwise fun c d => hi d ≤ lo c := by
  induction cs generalizing top with
  | nil => exact .nil
  | cons c cs ih =>
    obtain ⟨-, -, h3⟩ := h
    exact List.pairwise_cons.mpr ⟨fun d hd => (h3.bounds hd).2.2, ih h3⟩

theorem Carved.slack_iff {cs : List α} (h : Carved lo hi bot top cs) :
    (∃ pre post, cs = pre ++ post ∧ botBefore hi bot post ≤ x ∧ x < topAfter lo top pre) ↔
      bot ≤ x ∧ x < top ∧ ∀ c ∈ cs, x < lo c ∨ hi c ≤ x := by
  constructor
  · rintro ⟨pre, post, rfl, hbot, htop⟩
    obtain ⟨hpre, hpost⟩ := carved_append.mp h
    refine ⟨(hpost.of_botBefore hbot).le, Nat.lt_of_lt_of_le htop hpre.le, fun c hc => ?_⟩
    rcases List.mem_append.mp hc with hc | hc
    · exact .inl (Nat.lt_of_lt_of_le htop (hpre.bounds hc).1)
    · exact .inr (((hpost.of_botBefore hbot).bounds hc).2.2)
  · rintro ⟨hbot, htop, hcs⟩
    induction cs generalizing top with
    | nil => exact ⟨[], [], rfl, hbot, htop⟩
    | cons c cs ih =>
      obtain ⟨h1, h2, h3⟩ := h
      rw [List.forall_mem_cons] at hcs
      rcases hcs.1 with hx | hx
      · obtain ⟨pre, post, rfl, h4, h5⟩ := ih h3 hx hcs.2
        exact ⟨c :: pre, post, rfl, h4, h5⟩
      · exact ⟨[], c :: cs, rfl, hx, htop⟩

end Carve

end ItxLlama.Lib.Carve
