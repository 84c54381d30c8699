import Mathlib.Data.List.Basic

/-!
# A one-place buffer

A buffer that holds one value at most. Values are put where it is empty and
taken out in the order they were put, none twice and none lost.
-/

namespace ItxLlama.Lib.Mailbox

variable {α : Type}

inductive Act (α : Type) where
  | put (a : α)
  | get (a : α)
  deriving DecidableEq, Repr

def puts : List (Act α) → List α
  | [] => []
  | .put a :: l => a :: puts l
  | .get _ :: l => puts l

def gets : List (Act α) → List α
  | [] => []
  | .put _ :: l => gets l
  | .get a :: l => a :: gets l

/-- From one content of the buffer to another. -/
inductive Moves : Option α → List (Act α) → Option α → Prop where
  | refl (s : Option α) : Moves s [] s
  | put {a : α} (h : Moves (some a) l s) : Moves none (.put a :: l) s
  | get {a : α} (h : Moves none l s) : Moves (some a) (.get a :: l) s

theorem Moves.append (h : Moves s l t) (h' : Moves t l' u) : Moves s (l ++ l') u := by
  induction h with
  | refl => exact h'
  | put _ ih => exact .put (ih h')
  | get _ ih => exact .get (ih h')

theorem Moves.inOrder (h : Moves s l t) : s.toList ++ puts l = gets l ++ t.toList := by
  induction h with
  | refl => simp [puts, gets]
  | put _ ih => simpa [puts, gets] using ih
  | get _ ih => simpa [puts, gets] using ih

theorem Moves.get_last (h : Moves s (l ++ [.get a]) t) : t = none := by
  induction l generalizing s with
  | nil =>
    cases h with
    | get h => cases h; rfl
  | cons act l ih =>
    cases h with
    | put h => exact ih h
    | get h => exact ih h

theorem Moves.put_before (h : Moves s (l ++ .get a :: l') t) : s = some a ∨ .put a ∈ l := by
  induction l generalizing s with
  | nil =>
    cases h
    exact .inl rfl
  | cons act l ih =>
    cases h with
    | put h =>
      rcases ih h with hs | hmem
      · cases hs
        exact .inr List.mem_cons_self
      · exact .inr (List.mem_cons_of_mem _ hmem)
    | get h =>
      rcases ih h with hs | hmem
      · cases hs
      · exact .inr (List.mem_cons_of_mem _ hmem)

end ItxLlama.Lib.Mailbox
