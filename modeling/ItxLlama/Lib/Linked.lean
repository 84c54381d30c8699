import Mathlib.Data.List.Basic
import Mathlib.Logic.Function.Basic

/-!
# Lists linked by words

A word leads to a node or ends the list; every node holds the word behind it.
Several words may lead into one list.
-/

namespace ItxLlama.Lib.Linked

variable {W A : Type*}

/-- The nodes behind a word. -/
inductive Chain (target : W → Option A) (next : A → W) : W → List A → Prop
  | nil (h : target w = none) : Chain target next w []
  | cons (h : target w = some a) (rest : Chain target next (next a) l) :
    Chain target next w (a :: l)

variable {target : W → Option A} {next next' : A → W} {w w' : W} {b n : A}
  {l l' front back : List A}

theorem Chain.unique (h : Chain target next w l) (h' : Chain target next w l') : l = l' := by
  induction h generalizing l' with
  | nil hnone =>
    cases h' with
    | nil => rfl
    | cons hsome => exact absurd (hnone.symm.trans hsome) nofun
  | cons hsome rest ih =>
    cases h' with
    | nil hnone => exact absurd (hnone.symm.trans hsome) nofun
    | cons hsome' rest' =>
      obtain rfl := Option.some.inj (hsome.symm.trans hsome')
      rw [ih rest']

theorem Chain.congr (h : Chain target next w l) (heq : ∀ a ∈ l, next' a = next a) :
    Chain target next' w l := by
  induction h with
  | nil hnone => exact .nil hnone
  | cons hsome rest ih =>
    obtain ⟨ha, hl⟩ := List.forall_mem_cons.mp heq
    exact .cons hsome (ha ▸ ih hl)

theorem chain_append : Chain target next w (front ++ b :: back) ↔
    ∃ v, (∀ back', Chain target next v (b :: back') → Chain target next w (front ++ b :: back')) ∧
      Chain target next v (b :: back) := by
  constructor
  · intro h
    induction front generalizing w with
    | nil => exact ⟨w, fun _ h' => h', h⟩
    | cons a front ih =>
      cases h with
      | cons hsome rest =>
        obtain ⟨v, hfront, hback⟩ := ih rest
        exact ⟨v, fun back' h' => .cons hsome (hfront back' h'), hback⟩
  · rintro ⟨v, hfront, hback⟩
    exact hfront back hback

variable [DecidableEq A]

theorem Chain.push (h : Chain target next w l) (hn : n ∉ l) (hw : target w' = some n) :
    Chain target (Function.update next n w) w' (n :: l) := by
  refine .cons hw ?_
  rw [Function.update_self]
  exact h.congr fun a ha => Function.update_of_ne (fun heq : a = n => hn (heq ▸ ha)) _ _

theorem Chain.insert (h : Chain target next w (front ++ b :: back))
    (hnodup : (front ++ b :: back).Nodup) (hn : n ∉ front ++ b :: back) (hw : target w' = some n) :
    Chain target (Function.update (Function.update next n (next b)) b w') w
      (front ++ b :: n :: back) := by
  obtain ⟨hfront, hback, hapart⟩ := List.nodup_append.mp hnodup
  obtain ⟨hbback, -⟩ := List.nodup_cons.mp hback
  have hnb : n ≠ b := fun heq => hn (heq ▸ by simp)
  have hafter : Chain target (Function.update (Function.update next n (next b)) b w')
      w' (n :: back) := by
    refine .cons hw ?_
    rw [Function.update_of_ne hnb, Function.update_self]
    have hrest : Chain target next (next b) back := by
      obtain ⟨v, -, hv⟩ := chain_append.mp h
      cases hv with
      | cons _ rest => exact rest
    refine hrest.congr fun a ha => ?_
    have hab : a ≠ b := fun heq => hbback (heq ▸ ha)
    have han : a ≠ n := fun heq => hn (heq ▸ by simp [ha])
    rw [Function.update_of_ne hab, Function.update_of_ne han]
  induction front generalizing w with
  | nil =>
    cases h with
    | cons hsome rest =>
      refine .cons hsome ?_
      rw [Function.update_self]
      exact hafter
  | cons a front ih =>
    cases h with
    | cons hsome rest =>
      have hab : a ≠ b := hapart a List.mem_cons_self b List.mem_cons_self
      have han : a ≠ n := fun heq => hn (heq ▸ List.mem_cons_self)
      refine .cons hsome ?_
      rw [Function.update_of_ne hab, Function.update_of_ne han]
      exact ih rest (List.nodup_cons.mp hnodup).2 (fun hmem => hn (List.mem_cons_of_mem a hmem))
        (List.nodup_cons.mp hfront).2 fun x hx => hapart x (List.mem_cons_of_mem a hx)

end ItxLlama.Lib.Linked
