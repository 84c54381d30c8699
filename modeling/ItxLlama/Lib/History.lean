import Mathlib.Data.List.Infix

/-!
# Histories

A history is the list of what has happened, oldest first. `Each` says
something of every event and what was before it; `Always` says something of
every state on the way through a list of actions.
-/

namespace ItxLlama.Lib.History

section Events

variable {α : Type} {P : List α → α → Prop} {log : List α} {e : α}

def Each (P : List α → α → Prop) (log : List α) : Prop := ∀ l e, l ++ [e] <+: log → P l e

theorem Each.nil : Each P [] := by
  intro l e h
  have := h.length_le
  simp at this

theorem Each.concat (h : Each P log) (hnew : P log e) : Each P (log ++ [e]) := by
  intro l e' hpre
  rcases List.prefix_concat_iff.mp hpre with heq | hpre
  · obtain ⟨rfl, rfl⟩ := List.append_singleton_inj.mp heq
    exact hnew
  · exact h l e' hpre

theorem Each.of_prefix {log' : List α} (h : Each P log) (hpre : log' <+: log) : Each P log' :=
  fun l e hl => h l e (hl.trans hpre)

theorem Each.of_concat (h : Each P (log ++ [e])) : Each P log ∧ P log e :=
  ⟨h.of_prefix (List.prefix_append log [e]), h log e (List.prefix_refl _)⟩

end Events

section Runs

variable {σ α : Type} {step : σ → α → σ} {s : σ} {acts : List α} {a : α}

/-- Every state on the way, the first and the last included. -/
def Always (step : σ → α → σ) (s : σ) (P : σ → Prop) (acts : List α) : Prop :=
  ∀ pre, pre <+: acts → P (pre.foldl step s)

/-- What holds of every action in the state in which it is taken. -/
def Steps (step : σ → α → σ) (s : σ) (Q : σ → α → Prop) (acts : List α) : Prop :=
  Each (fun pre a => Q (pre.foldl step s) a) acts

theorem invariant {I : σ → Prop} {Q : σ → α → Prop} (h0 : I s)
    (hstep : ∀ s a, I s → Q s a → I (step s a)) (h : Steps step s Q acts) :
      I (acts.foldl step s) := by
  induction acts using List.reverseRecOn with
  | nil => exact h0
  | append_singleton acts a ih =>
    obtain ⟨hbefore, hlast⟩ := h.of_concat
    rw [List.foldl_append]
    exact hstep _ a (ih hbefore) hlast

end Runs

end ItxLlama.Lib.History
