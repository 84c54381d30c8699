/-!
# Programs that may fail

A program changes a state and returns, or breaks off with an error. Triples
say what holds on either way out.
-/

namespace ItxLlama.Lib.Failing

def Program (σ ε α : Type) : Type := σ → Except ε α × σ

variable {σ ε α β : Type}

instance : Monad (Program σ ε) where
  pure a := fun s => (.ok a, s)
  bind x f := fun s =>
    match x s with
    | (.ok a, s) => f a s
    | (.error e, s) => (.error e, s)

def raise (e : ε) : Program σ ε α := fun s => (.error e, s)

def current : Program σ ε σ := fun s => (.ok s, s)

def change (f : σ → σ) : Program σ ε Unit := fun s => (.ok (), f s)

/-- The program's error as a value. -/
def attempt (x : Program σ ε α) : Program σ ε (Except ε α) := fun s => (.ok (x s).1, (x s).2)

/-- The program where `c` holds. -/
def provided (c : Prop) [Decidable c] (x : Program σ ε Unit) : Program σ ε Unit :=
  if c then x else pure ()

variable {x : Program σ ε α} {f : α → Program σ ε β} {s : σ}
  {Q Q' : α → σ → Prop} {R : β → σ → Prop} {E E' : ε → σ → Prop}

/-- From `s` the program returns with `Q` or breaks off with `E`. -/
def Triple (x : Program σ ε α) (s : σ) (Q : α → σ → Prop) (E : ε → σ → Prop) : Prop :=
  match x s with
  | (.ok a, s') => Q a s'
  | (.error e, s') => E e s'

theorem Triple.pure {a : α} (h : Q a s) : Triple (Pure.pure a) s Q E := h

theorem Triple.raise {e : ε} (h : E e s) : Triple (raise e) s Q E := h

theorem Triple.current {Q : σ → σ → Prop} (h : Q s s) : Triple current s Q E := h

theorem Triple.change {Q : Unit → σ → Prop} {g : σ → σ} (h : Q () (g s)) :
    Triple (change g) s Q E := h

theorem Triple.bind (hx : Triple x s Q E) (hf : ∀ a s', Q a s' → Triple (f a) s' R E) :
    Triple (x >>= f) s R E := by
  show match (match x s with | (.ok a, s) => f a s | (.error e, s) => (.error e, s)) with
    | (.ok b, s') => R b s'
    | (.error e, s') => E e s'
  unfold Triple at hx
  match hrun : x s with
  | (.ok a, s') =>
    rw [hrun] at hx
    exact hf a s' hx
  | (.error e, s') =>
    rw [hrun] at hx
    exact hx

theorem Triple.current_bind {f : σ → Program σ ε β} (h : Triple (f s) s R E) :
    Triple (Failing.current >>= f) s R E := h

theorem Triple.change_bind {f : Unit → Program σ ε β} {g : σ → σ} (h : Triple (f ()) (g s) R E) :
    Triple (Failing.change g >>= f) s R E := h

theorem Triple.provided {c : Prop} [Decidable c] {x : Program σ ε Unit} {Q : Unit → σ → Prop}
    (hx : c → Triple x s Q E) (hskip : ¬ c → Q () s) : Triple (Failing.provided c x) s Q E := by
  unfold Failing.provided
  split
  case isTrue hc => exact hx hc
  case isFalse hc => exact hskip hc

theorem Triple.mono (h : Triple x s Q E) (hQ : ∀ a s', Q a s' → Q' a s')
    (hE : ∀ e s', E e s' → E' e s') : Triple x s Q' E' := by
  unfold Triple at *
  match hrun : x s with
  | (.ok a, s') =>
    rw [hrun] at h
    exact hQ a s' h
  | (.error e, s') =>
    rw [hrun] at h
    exact hE e s' h

theorem Triple.attempt (h : Triple x s Q E) :
    Triple (attempt x) s
      (fun r s' => (∃ a, r = .ok a ∧ Q a s') ∨ ∃ e, r = .error e ∧ E e s') E' := by
  unfold Triple at h
  show (∃ a, (x s).1 = .ok a ∧ Q a (x s).2) ∨ ∃ e, (x s).1 = .error e ∧ E e (x s).2
  match hrun : x s with
  | (.ok a, s') =>
    rw [hrun] at h
    exact .inl ⟨a, rfl, h⟩
  | (.error e, s') =>
    rw [hrun] at h
    exact .inr ⟨e, rfl, h⟩

end ItxLlama.Lib.Failing
