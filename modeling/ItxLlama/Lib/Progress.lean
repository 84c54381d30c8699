import Mathlib.Computability.StateTransition
import Mathlib.Data.Set.Finite.Basic

/-!
# Walks that end

A walk takes a partial step until there is none. It ends if it moves forward at
every step below a bound, and over finitely many states it ends if and only if
it never comes back to a state.
-/

namespace ItxLlama.Lib.Progress

open StateTransition

variable {σ : Type} {f : σ → Option σ} {start : σ}

theorem reaches_step {s t : σ} (h : Reaches f start s) (hs : f s = some t) : Reaches f start t :=
  Relation.ReflTransGen.tail h hs

theorem progress_induction (pos : σ → Nat) (bound : Nat) {motive : σ → Prop}
    (hpos : ∀ s t, Reaches f start s → f s = some t → pos s < pos t)
    (hbound : ∀ s t, Reaches f start s → f s = some t → pos s < bound)
    (hstep : ∀ s, Reaches f start s → (∀ t, f s = some t → motive t) → motive s) :
      motive start := by
  suffices h : ∀ n s, Reaches f start s → bound ≤ pos s + n → motive s from
    h bound start .refl (Nat.le_add_left _ _)
  intro n
  induction n with
  | zero =>
    intro s hs hle
    refine hstep s hs fun t ht => ?_
    exact absurd (hbound s t hs ht) (Nat.not_lt.mpr hle)
  | succ n ih =>
    intro s hs hle
    refine hstep s hs fun t ht => ih t (reaches_step hs ht) ?_
    have := hpos s t hs ht
    omega

/-- The walk from `s` comes to a state without a step. -/
def Halts (f : σ → Option σ) (s : σ) : Prop := ∃ t, Reaches f s t ∧ f t = none

theorem halts_of_progress (pos : σ → Nat) (bound : Nat)
    (hpos : ∀ s t, Reaches f start s → f s = some t → pos s < pos t)
    (hbound : ∀ s t, Reaches f start s → f s = some t → pos s < bound) : Halts f start := by
  refine progress_induction pos bound hpos hbound fun s _ ih => ?_
  cases hs : f s with
  | none => exact ⟨s, .refl, hs⟩
  | some t =>
    obtain ⟨u, hu, hnone⟩ := ih t hs
    exact ⟨u, .head hs hu, hnone⟩

theorem reaches_cycle (hcycle : Reaches₁ f s s) (h : Reaches f s t) : Reaches₁ f t s := by
  induction h with
  | refl => exact hcycle
  | tail _ ht ih => exact Relation.TransGen.trans_right (reaches₁_fwd ih ht) hcycle

theorem Halts.acyclic (h : Halts f start) (hs : Reaches f start s) : ¬ Reaches₁ f s s := by
  intro hcycle
  obtain ⟨t, ht, hnone⟩ := h
  have hback : Reaches₁ f t s := by
    rcases reaches_total ht hs with hts | hst
    · exact Relation.TransGen.trans_right hts hcycle
    · exact reaches_cycle hcycle hst
  obtain ⟨u, hu, -⟩ := Relation.TransGen.head'_iff.mp hback
  exact absurd (hnone ▸ hu) (Option.not_mem_none u)

/-- The state after `n` steps of a walk that does not end. -/
theorem reaches_forever (h : ¬ Halts f start) : ∃ walk : Nat → σ,
    (∀ n, Reaches f start (walk n)) ∧ ∀ n, f (walk n) = some (walk (n + 1)) := by
  have hnext (s : {s // Reaches f start s}) :
      ∃ t : {t // Reaches f start t}, f s.val = some t.val := by
    cases hs : f s.val with
    | none => exact absurd ⟨s.val, s.property, hs⟩ h
    | some t => exact ⟨⟨t, reaches_step s.property hs⟩, rfl⟩
  choose next hnext using hnext
  have hstart : Reaches f start start := .refl
  refine ⟨fun n => (next^[n] ⟨start, hstart⟩).val, fun n => (next^[n] _).property, fun n => ?_⟩
  show f (next^[n] ⟨start, hstart⟩).val = some (next^[n + 1] ⟨start, hstart⟩).val
  rw [Function.iterate_succ_apply', hnext]

theorem reaches₁_of_lt {walk : Nat → σ} (h : ∀ n, f (walk n) = some (walk (n + 1))) (hij : i < j) :
    Reaches₁ f (walk i) (walk j) := by
  induction j, hij using Nat.le_induction with
  | base => exact .single (h i)
  | succ j _ ih => exact .tail ih (h j)

theorem halts_iff_acyclic (hfin : {s | Reaches f start s}.Finite) :
    Halts f start ↔ ∀ s, Reaches f start s → ¬ Reaches₁ f s s := by
  refine ⟨fun h s hs => h.acyclic hs, fun hacyclic => ?_⟩
  by_contra h
  obtain ⟨walk, hreach, hstep⟩ := reaches_forever h
  obtain ⟨i, -, j, -, hij, heq⟩ :=
    Set.infinite_univ.exists_ne_map_eq_of_mapsTo (f := walk) (fun n _ => hreach n) hfin
  rcases Nat.lt_or_gt_of_ne hij with hij | hij
  · exact hacyclic _ (hreach i) (by simpa [heq] using reaches₁_of_lt hstep hij)
  · exact hacyclic _ (hreach j) (by simpa [heq] using reaches₁_of_lt hstep hij)

-- A loop with fuel that follows the walk; `P n s` says that `n` is enough from `s`.

theorem halts_of_ends {P : Nat → σ → Prop} (hzero : ∀ s, ¬ P 0 s)
    (hsome : ∀ n s t, f s = some t → P (n + 1) s → P n t) (h : P n s) : Halts f s := by
  induction n generalizing s with
  | zero => exact absurd h (hzero s)
  | succ n ih =>
    cases hs : f s with
    | none => exact ⟨s, .refl, hs⟩
    | some t =>
      obtain ⟨u, hu, hstop⟩ := ih (hsome n s t hs h)
      exact ⟨u, .head hs hu, hstop⟩

theorem ends_of_halts {P : Nat → σ → Prop}
    (hsome : ∀ n s t, f s = some t → P n t → P (n + 1) s)
    (hnone : ∀ s, f s = none → ∃ n, P n s) (h : Halts f s) : ∃ n, P n s := by
  obtain ⟨t, ht, hstop⟩ := h
  induction ht using Relation.ReflTransGen.head_induction_on with
  | refl => exact hnone t hstop
  | head hs _ ih =>
    obtain ⟨n, hn⟩ := ih
    exact ⟨n + 1, hsome n _ _ hs hn⟩

end ItxLlama.Lib.Progress
