import ItxLlama.Lib.Bytes
import ItxLlama.Lib.Progress

/-!
# Programs over checked memory

A program may read only a part of the memory: a read outside stops it, and so
does a loop that is out of turns.
-/

namespace ItxLlama.Lib.Checked

open Bytes

inductive Stop where
  | outside
  | turns
  deriving DecidableEq, Repr

abbrev Guarded := Except Stop

/-- A memory that may be read from `lo` on and below `hi`. -/
def readIn (lo hi : Nat) (m : Nat → Byte) (a : Nat) : Guarded Byte :=
  if lo ≤ a ∧ a < hi then .ok (m a) else .error .outside

variable {α β : Type}

theorem readIn_ok (hlo : lo ≤ a) (hhi : a < hi) : readIn lo hi m a = .ok (m a) := if_pos ⟨hlo, hhi⟩

theorem readIn_eq_ok_iff : readIn lo hi m a = .ok b ↔ (lo ≤ a ∧ a < hi) ∧ m a = b := by
  unfold readIn
  split
  · rename_i hin
    exact ⟨fun h => ⟨hin, Except.ok.inj h⟩, fun h => congrArg Except.ok h.2⟩
  · rename_i hout
    exact ⟨fun h => (nomatch h), fun h => absurd h.1 hout⟩

@[simp] theorem ok_bind (a : α) (f : α → Guarded β) : (Except.ok a : Guarded α) >>= f = f a := rfl

theorem bind_eq_ok {x : Guarded α} {f : α → Guarded β} :
    x >>= f = .ok b ↔ ∃ a, x = .ok a ∧ f a = .ok b := by
  cases x with
  | error e => exact ⟨fun h => (nomatch h), fun ⟨_, h, _⟩ => (nomatch h)⟩
  | ok a => exact ⟨fun h => ⟨a, rfl, h⟩, fun ⟨_, h, hf⟩ => Except.ok.inj h ▸ hf⟩

theorem readIn_bind_eq_ok {f : Byte → Guarded β} :
    readIn lo hi m a >>= f = .ok b ↔ (lo ≤ a ∧ a < hi) ∧ f (m a) = .ok b := by
  rw [bind_eq_ok]
  constructor
  · rintro ⟨c, hc, hf⟩
    obtain ⟨hin, rfl⟩ := readIn_eq_ok_iff.mp hc
    exact ⟨hin, hf⟩
  · rintro ⟨hin, hf⟩
    exact ⟨m a, readIn_ok hin.1 hin.2, hf⟩

theorem mapM_ok {f : α → Guarded β} {g : α → β} {xs : List α} (h : ∀ x ∈ xs, f x = .ok (g x)) :
    xs.mapM f = .ok (xs.map g) := by
  induction xs with
  | nil => rfl
  | cons x xs ih =>
    obtain ⟨hx, hxs⟩ := List.forall_mem_cons.mp h
    rw [List.mapM_cons, hx, ok_bind, ih hxs]
    rfl

-- ---------------------------------------------------------------------------
-- Loops
-- ---------------------------------------------------------------------------

section Loop

open StateTransition Progress

variable {σ ρ : Type} {body : σ → Guarded (ρ ⊕ σ)} {pos : σ → Nat} {start s t : σ}

/-- A loop whose turn gives a result or the state of the next turn. -/
def loop (body : σ → Guarded (ρ ⊕ σ)) : (turns : Nat) → σ → Guarded ρ
  | 0, _ => throw .turns
  | turns + 1, s => do
    match ← body s with
    | .inl r => return r
    | .inr t => loop body turns t

def turn (body : σ → Guarded (ρ ⊕ σ)) (s : σ) : Option σ :=
  match body s with
  | .ok (.inr t) => some t
  | _ => none

theorem turn_eq_some_iff : turn body s = some t ↔ body s = .ok (.inr t) := by
  unfold turn
  split
  · rename_i u hu
    rw [hu]
    exact ⟨fun h => Option.some.inj h ▸ rfl, fun h => Sum.inr.inj (Except.ok.inj h) ▸ rfl⟩
  · rename_i hne
    exact ⟨fun h => (nomatch h), fun h => absurd h (hne t)⟩

theorem loop_turn (h : body s = .ok (.inr t)) (turns : Nat) :
    loop body (turns + 1) s = loop body turns t := by
  rw [loop, h]
  rfl

/-- A loop gives a result if every turn it comes to is allowed and the walk ends. -/
theorem loop_ok_iff : (∃ turns r, loop body turns start = .ok r) ↔
    (∀ s, Reaches (turn body) start s → ∃ r, body s = .ok r) ∧ Halts (turn body) start := by
  constructor
  · rintro ⟨turns, r, hr⟩
    induction turns generalizing start with
    | zero => exact nomatch hr
    | succ turns ih =>
      rw [loop] at hr
      obtain ⟨a, ha, hr⟩ := bind_eq_ok.mp hr
      cases a with
      | inl r =>
        have hstop : turn body start = none := by
          unfold turn
          rw [ha]
        refine ⟨fun s hs => ?_, start, .refl, hstop⟩
        rcases Relation.ReflTransGen.cases_head hs with rfl | ⟨t, ht, -⟩
        · exact ⟨_, ha⟩
        · exact absurd (hstop ▸ ht) (Option.not_mem_none t)
      | inr t =>
        obtain ⟨hall, u, hu, hstop⟩ := ih hr
        have hgo : turn body start = some t := turn_eq_some_iff.mpr ha
        refine ⟨fun s hs => ?_, u, .head hgo hu, hstop⟩
        rcases Relation.ReflTransGen.cases_head hs with rfl | ⟨t', ht', hs⟩
        · exact ⟨_, ha⟩
        · rw [Option.some.inj (ht'.symm.trans hgo)] at hs
          exact hall s hs
  · rintro ⟨hall, u, hu, hstop⟩
    induction hu using Relation.ReflTransGen.head_induction_on with
    | refl =>
      obtain ⟨a, ha⟩ := hall u .refl
      cases a with
      | inl r =>
        refine ⟨1, r, ?_⟩
        rw [loop, ha]
        rfl
      | inr t => exact absurd (turn_eq_some_iff.mpr ha) (by rw [hstop]; exact nofun)
    | head hs _ ih =>
      obtain ⟨turns, r, hr⟩ := ih fun s hreach => hall s (.head hs hreach)
      exact ⟨turns + 1, r, (loop_turn (turn_eq_some_iff.mp hs) turns).trans hr⟩

/-- A walk that has once stood still stands still for ever, as long as its turns are allowed. -/
theorem not_halts_of_stays (h : body s = .ok (.inr t)) (hpos : pos t = pos s)
    (hall : ∀ u, Reaches (turn body) s u → ∃ r, body u = .ok r)
    (hstay : ∀ s t, body s = .ok (.inr t) → pos t = pos s → (∃ r, body t = .ok r) →
      ∃ u, body t = .ok (.inr u) ∧ pos u = pos t) :
    ¬ Halts (turn body) s := by
  rintro ⟨u, hu, hstop⟩
  have hgo : ∃ v, body u = .ok (.inr v) ∧ pos v = pos u := by
    clear hstop
    induction hu with
    | refl => exact ⟨t, h, hpos⟩
    | tail hreach hstep ih =>
      obtain ⟨v, hv, hvpos⟩ := ih
      have heq := Option.some.inj (hstep.symm.trans (turn_eq_some_iff.mpr hv))
      rw [heq]
      exact hstay _ _ hv hvpos (hall v (heq ▸ .tail hreach hstep))
  obtain ⟨v, hv, -⟩ := hgo
  rw [turn_eq_some_iff.mpr hv] at hstop
  cases hstop

theorem Halts.from (h : Halts (turn body) start) (hs : Reaches (turn body) start s) :
    Halts (turn body) s := by
  obtain ⟨u, hu, hstop⟩ := h
  rcases reaches_total hu hs with hus | hsu
  · rcases Relation.ReflTransGen.cases_head hus with rfl | ⟨v, hv, -⟩
    · exact ⟨u, .refl, hstop⟩
    · exact absurd (hstop ▸ hv) (Option.not_mem_none v)
  · exact ⟨u, hsu, hstop⟩

/-- A loop that never goes back gives a result if every turn it comes to is allowed and moves on. -/
theorem walk_ok_iff (pos : σ → Nat) (bound : Nat)
    (hmono : ∀ s t, body s = .ok (.inr t) → pos s ≤ pos t)
    (hbound : ∀ s t, body s = .ok (.inr t) → pos s < bound)
    (hstay : ∀ s t, body s = .ok (.inr t) → pos t = pos s → (∃ r, body t = .ok r) →
      ∃ u, body t = .ok (.inr u) ∧ pos u = pos t) :
    (∃ turns r, loop body turns start = .ok r) ↔
      ∀ s, Reaches (turn body) start s → ∃ r, body s = .ok r ∧ ∀ t, r = .inr t → pos s < pos t := by
  rw [loop_ok_iff]
  constructor
  · rintro ⟨hall, hhalts⟩ s hs
    obtain ⟨r, hr⟩ := hall s hs
    refine ⟨r, hr, ?_⟩
    rintro t rfl
    refine Nat.lt_of_le_of_ne (hmono s t hr) fun hpos => ?_
    exact not_halts_of_stays hr hpos.symm (fun u hu => hall u (hs.trans hu)) hstay
      (Halts.from hhalts hs)
  · intro h
    refine ⟨fun s hs => (h s hs).imp fun _ hr => hr.1, ?_⟩
    refine halts_of_progress pos bound (fun s t hs ht => ?_) fun s t _ ht =>
      hbound s t (turn_eq_some_iff.mp ht)
    obtain ⟨r, hr, hlt⟩ := h s hs
    have heq := Except.ok.inj (hr.symm.trans (turn_eq_some_iff.mp ht))
    exact hlt t heq

/-- Where a turn without checks leads. -/
def next (result : σ → ρ ⊕ σ) (s : σ) : Option σ := (result s).getRight?

theorem next_eq_some_iff {result : σ → ρ ⊕ σ} : next result s = some t ↔ result s = .inr t := by
  unfold next
  rw [Sum.getRight?_eq_some_iff]

theorem walk_fits_iff {result : σ → ρ ⊕ σ} {Fits : σ → Prop} (pos : σ → Nat) (bound : Nat)
    (hbody : ∀ s r, body s = .ok r ↔ Fits s ∧ r = result s)
    (hmono : ∀ s t, result s = .inr t → pos s ≤ pos t)
    (hbound : ∀ s t, Fits s → result s = .inr t → pos s < bound)
    (hstay : ∀ s t, Fits s → Fits t → result s = .inr t → pos t = pos s →
      ∃ u, result t = .inr u ∧ pos u = pos t) :
    (∃ turns r, loop body turns start = .ok r) ↔
      ∀ s, Reaches (next result) start s → Fits s ∧ ∀ t, result s = .inr t → pos s < pos t := by
  have hresult (s t : σ) (h : body s = .ok (.inr t)) : Fits s ∧ result s = .inr t :=
    ((hbody s _).mp h).imp_right Eq.symm
  rw [walk_ok_iff pos bound]
  · constructor
    · intro h s hs
      have hturn : Reaches (turn body) start s := by
        induction hs with
        | refl => exact .refl
        | @tail u v _ huv ih =>
          obtain ⟨r, hr, -⟩ := h u ih
          have hv : r = .inr v := ((hbody u r).mp hr).2.trans (next_eq_some_iff.mp huv)
          exact reaches_step ih (turn_eq_some_iff.mpr (hv ▸ hr))
      obtain ⟨r, hr, hlt⟩ := h s hturn
      obtain ⟨hfits, rfl⟩ := (hbody s r).mp hr
      exact ⟨hfits, hlt⟩
    · intro h s hs
      have hnext : Reaches (next result) start s := by
        induction hs with
        | refl => exact .refl
        | tail _ huv ih =>
          exact reaches_step ih (next_eq_some_iff.mpr (hresult _ _ (turn_eq_some_iff.mp huv)).2)
      obtain ⟨hfits, hlt⟩ := h s hnext
      exact ⟨result s, (hbody s _).mpr ⟨hfits, rfl⟩, hlt⟩
  · intro s t h
    exact hmono s t (hresult s t h).2
  · intro s t h
    exact hbound s t (hresult s t h).1 (hresult s t h).2
  · rintro s t h hpos ⟨r, hr⟩
    obtain ⟨hfits, ht⟩ := hresult s t h
    have hfits' := ((hbody t r).mp hr).1
    obtain ⟨u, hu, hu'⟩ := hstay s t hfits hfits' ht hpos
    exact ⟨u, (hbody t _).mpr ⟨hfits', hu.symm⟩, hu'⟩

theorem loop_more (h : loop body turns s = .ok r) (more : Nat) :
    loop body (turns + more) s = .ok r := by
  induction turns generalizing s with
  | zero => exact nomatch h
  | succ turns ih =>
    rw [loop] at h
    rw [Nat.succ_add, loop]
    obtain ⟨a, ha, h⟩ := bind_eq_ok.mp h
    rw [ha]
    cases a with
    | inl r' => exact h
    | inr t => exact ih h

theorem loop_result {result : σ → ρ ⊕ σ} {Fits : σ → Prop}
    (hbody : ∀ s r, body s = .ok r ↔ Fits s ∧ r = result s) (h : loop body turns start = .ok r) :
    ∃ s, Reaches (next result) start s ∧ result s = .inl r := by
  induction turns generalizing start with
  | zero => exact nomatch h
  | succ turns ih =>
    rw [loop] at h
    obtain ⟨a, ha, h⟩ := bind_eq_ok.mp h
    have hresult := ((hbody start a).mp ha).2
    cases a with
    | inl r' =>
      rw [Except.ok.inj h] at hresult
      exact ⟨start, .refl, hresult.symm⟩
    | inr t =>
      obtain ⟨s, hs, hr⟩ := ih h
      exact ⟨s, .head (next_eq_some_iff.mpr hresult.symm) hs, hr⟩

theorem last_unique {result : σ → ρ ⊕ σ} (hs : Reaches (next result) start s)
    (ht : Reaches (next result) start t)
    (hr : result s = .inl r) (hr' : result t = .inl r') : s = t := by
  have hstop {u v : σ} {r : ρ} (hu : result u = .inl r) (h : Reaches (next result) u v) :
    u = v := by
    rcases Relation.ReflTransGen.cases_head h with heq | ⟨w, hw, -⟩
    · exact heq
    · exact absurd ((next_eq_some_iff.mp hw).symm.trans hu) nofun
  rcases reaches_total hs ht with hst | hts
  · exact hstop hr hst
  · exact (hstop hr' hts).symm

end Loop

end ItxLlama.Lib.Checked
