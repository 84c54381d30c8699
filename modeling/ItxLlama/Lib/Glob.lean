import Mathlib.Data.List.Basic

/-!
# Prefix matching against a pattern with stars

A star stands for a run of letters up to the next pattern letter, never
across a separator. The match is greedy and does not back up: it succeeds
when the pattern is used up at a separator or at the end.
-/

namespace ItxLlama.Lib.Glob

variable {α : Type u} [DecidableEq α]

/-- What is left after a star that is followed by `stop`. -/
def skip (sep : α) (stop : Option α) : List α → List α
  | [] => []
  | c :: str => if c = sep ∨ stop = some c then c :: str else skip sep stop str

/-- The rest of the string behind the match. -/
def matchPrefix (star sep : α) : (glob str : List α) → Option (List α)
  | [], [] => some []
  | [], c :: str => if c = sep then some (c :: str) else none
  | g :: glob, str =>
    if g = star then matchPrefix star sep glob (skip sep glob.head? str)
    else match str with
      | [] => none
      | c :: str => if g = c then matchPrefix star sep glob str else none

variable {star sep : α}

theorem matchPrefix_cons (hg : g ≠ star) (glob str : List α) :
    matchPrefix star sep (g :: glob) (g :: str) = matchPrefix star sep glob str := by
  simp [matchPrefix, hg]

theorem matchPrefix_cons_ne (hg : g ≠ star) (hc : g ≠ c) (glob str : List α) :
    matchPrefix star sep (g :: glob) (c :: str) = none := by
  simp [matchPrefix, hg, hc]

theorem matchPrefix_cons_nil (hg : g ≠ star) (glob : List α) :
    matchPrefix star sep (g :: glob) [] = none := by
  simp [matchPrefix, hg]

theorem matchPrefix_nil_cons (hc : c ≠ sep) (str : List α) :
    matchPrefix star sep [] (c :: str) = none := by
  simp [matchPrefix, hc]

theorem matchPrefix_star_cons (glob str : List α) :
    matchPrefix star sep (star :: glob) str =
      matchPrefix star sep glob (skip sep glob.head? str) := by
  conv_lhs => unfold matchPrefix
  rw [if_pos rfl]

theorem matchPrefix_append (hw : star ∉ w) (glob str : List α) :
    matchPrefix star sep (w ++ glob) (w ++ str) = matchPrefix star sep glob str := by
  induction w with
  | nil => rfl
  | cons g w ih =>
    simp only [List.mem_cons, not_or] at hw
    rw [List.cons_append, List.cons_append, matchPrefix_cons (Ne.symm hw.1), ih hw.2]

theorem skip_append (hw : stop ∉ w) (hs : sep ∉ w) (str : List α) :
    skip sep (some stop) (w ++ stop :: str) = stop :: str := by
  induction w with
  | nil => simp [skip]
  | cons c w ih =>
    simp only [List.mem_cons, not_or] at hw hs
    rw [List.cons_append, skip, if_neg, ih hw.2 hs.2]
    rintro (rfl | h)
    · exact hs.1 rfl
    · exact hw.1 (Option.some.inj h)

theorem matchPrefix_star (hw : stop ∉ w) (hs : sep ∉ w) (glob str : List α) :
    matchPrefix star sep (star :: stop :: glob) (w ++ stop :: str) =
      matchPrefix star sep (stop :: glob) (stop :: str) := by
  rw [matchPrefix_star_cons, List.head?_cons, skip_append hw hs]

theorem matchPrefix_lone_star (hne : star ≠ sep) (glob : List α) :
    (matchPrefix star sep glob [star]).isSome ↔ glob ≠ [] ∧ ∀ g ∈ glob, g = star := by
  induction glob with
  | nil => simp [matchPrefix, hne]
  | cons g glob ih =>
    by_cases hg : g = star
    · subst hg
      rw [matchPrefix, if_pos rfl]
      cases glob with
      | nil => simp [skip, hne, matchPrefix]
      | cons g' glob =>
        by_cases hg' : g' = g
        · subst hg'
          simpa [skip] using ih
        · simp [skip, hne, hg', matchPrefix]
    · have : matchPrefix star sep (g :: glob) [star] = none := matchPrefix_cons_ne hg hg ..
      simp [this, hg]

-- ---------------------------------------------------------------------------
-- Words
-- ---------------------------------------------------------------------------

/-- A list that does not go on with a letter of the class. -/
def Ends (p : α → Prop) (l : List α) : Prop := ∀ c ∈ l.head?, ¬ p c

omit [DecidableEq α] in
theorem Ends.cons {p : α → Prop} (h : ¬ p c) (l : List α) : Ends p (c :: l) :=
  fun _ hc => Option.some.inj hc ▸ h

omit [DecidableEq α] in
theorem Ends.nil {p : α → Prop} : Ends p ([] : List α) := nofun

section
variable {p : α → Prop} (hstar : ¬ p star) (hsep : ¬ p sep)
  {glob str : List α} (hglob : Ends p glob) (hstr : Ends p str) (hg : glob.head? ≠ some star)
include hstar hsep hglob hstr hg

theorem matchPrefix_words (w w' : List α) (hw : ∀ c ∈ w, p c) (hw' : ∀ c ∈ w', p c) :
    matchPrefix star sep (w ++ glob) (w' ++ str) =
      if w = w' then matchPrefix star sep glob str else none := by
  induction w generalizing w' with
  | nil =>
    cases w' with
    | nil => rfl
    | cons c w' =>
      rw [if_neg (by simp), List.nil_append, List.cons_append]
      have hc := hw' c (by simp)
      cases glob with
      | nil =>
        have hcs : c ≠ sep := by rintro rfl; exact hsep hc
        exact matchPrefix_nil_cons hcs _
      | cons g glob =>
        have hgs : g ≠ star := fun h => hg (congrArg some h)
        have hgc : c ≠ g := by rintro rfl; exact hglob _ rfl hc
        exact matchPrefix_cons_ne hgs hgc.symm _ _
  | cons g w ih =>
    have hgp := hw g (by simp)
    have hgs : g ≠ star := by rintro rfl; exact hstar hgp
    cases w' with
    | nil =>
      rw [if_neg (by simp), List.nil_append, List.cons_append]
      cases str with
      | nil => exact matchPrefix_cons_nil hgs _
      | cons c str =>
        have hgc : g ≠ c := by rintro rfl; exact hstr _ rfl hgp
        exact matchPrefix_cons_ne hgs hgc _ _
    | cons c w' =>
      rw [List.cons_append, List.cons_append]
      by_cases hgc : g = c
      · subst hgc
        rw [matchPrefix_cons hgs, ih w' (fun c hc => hw c (List.mem_cons_of_mem _ hc))
          fun c hc => hw' c (List.mem_cons_of_mem _ hc)]
        simp
      · rw [matchPrefix_cons_ne hgs hgc, if_neg]
        exact fun h => hgc (List.cons.inj h).1

end

-- ---------------------------------------------------------------------------
-- What a pattern stands for
-- ---------------------------------------------------------------------------

/-- The words of a pattern: a star stands for a run without separators and
without the letter behind the star. -/
inductive Expands (star sep : α) : List α → List α → Prop where
  | nil : Expands star sep [] []
  | letter : g ≠ star → Expands star sep glob e → Expands star sep (g :: glob) (g :: e)
  | star : (∀ c ∈ run, c ≠ sep ∧ glob.head? ≠ some c) → Expands star sep glob e →
      Expands star sep (star :: glob) (run ++ e)

/-- No two stars side by side. -/
def Separate (star : α) (glob : List α) : Prop :=
  glob.IsChain fun a b => ¬ (a = star ∧ b = star)

/-- A rest that is empty or starts with a separator. -/
def AtSep (sep : α) (p : List α) : Prop := ∀ c ∈ p.head?, c = sep

instance (star : α) (glob : List α) : Decidable (Separate star glob) :=
  inferInstanceAs (Decidable (List.IsChain ..))

omit [DecidableEq α] in
theorem atSep_iff : AtSep sep p ↔ p = [] ∨ p.head? = some sep := by
  cases p <;> simp [AtSep]

theorem skip_spec (sep : α) (stop : Option α) (str : List α) :
    ∃ run, str = run ++ skip sep stop str ∧ ∀ c ∈ run, c ≠ sep ∧ stop ≠ some c := by
  induction str with
  | nil => exact ⟨[], rfl, nofun⟩
  | cons c str ih =>
    by_cases h : c = sep ∨ stop = some c
    · exact ⟨[], by simp [skip, h], nofun⟩
    · obtain ⟨run, hstr, hrun⟩ := ih
      refine ⟨c :: run, ?_, List.forall_mem_cons.mpr ⟨not_or.mp h, hrun⟩⟩
      rw [skip, if_neg h, List.cons_append, ← hstr]

theorem skip_run {run : List α} (hrun : ∀ c ∈ run, c ≠ sep ∧ stop ≠ some c)
    (hstr : ∀ c ∈ str.head?, c = sep ∨ stop = some c) : skip sep stop (run ++ str) = str := by
  induction run with
  | nil =>
    cases str with
    | nil => rfl
    | cons c str => exact if_pos (hstr c rfl)
  | cons c run ih =>
    obtain ⟨hc, hrun⟩ := List.forall_mem_cons.mp hrun
    rw [List.cons_append, skip, if_neg (not_or.mpr hc), ih hrun]

theorem matchPrefix_sound {glob str p : List α} (h : matchPrefix star sep glob str = some p) :
    ∃ e, str = e ++ p ∧ Expands star sep glob e ∧ AtSep sep p := by
  induction glob generalizing str with
  | nil =>
    cases str with
    | nil =>
      obtain rfl := Option.some.inj h
      exact ⟨[], rfl, .nil, nofun⟩
    | cons c str =>
      simp only [matchPrefix, Option.ite_none_right_eq_some, Option.some.injEq] at h
      obtain ⟨rfl, rfl⟩ := h
      exact ⟨[], rfl, .nil, fun _ hc => (Option.some.inj hc).symm⟩
  | cons g glob ih =>
    by_cases hg : g = star
    · subst hg
      rw [matchPrefix_star_cons] at h
      obtain ⟨run, hstr, hrun⟩ := skip_spec sep glob.head? str
      obtain ⟨e, he, hexp, hp⟩ := ih h
      refine ⟨run ++ e, ?_, .star hrun hexp, hp⟩
      rw [List.append_assoc, ← he, ← hstr]
    · cases str with
      | nil =>
        rw [matchPrefix_cons_nil hg] at h
        cases h
      | cons c str =>
        obtain ⟨rfl, hrest⟩ : g = c ∧ matchPrefix star sep glob str = some p := by
          simpa [matchPrefix, hg] using h
        obtain ⟨e, rfl, hexp, hp⟩ := ih hrest
        exact ⟨g :: e, rfl, .letter hg hexp, hp⟩

omit [DecidableEq α] in
theorem Expands.head {glob e : List α} (h : Expands star sep glob e)
    (hg : glob.head? ≠ some star) : e.head? = glob.head? := by
  cases h with
  | nil => rfl
  | letter => rfl
  | star => exact absurd rfl hg

theorem Expands.matchPrefix {glob e p : List α} (h : Expands star sep glob e)
    (hstars : Separate star glob) (hp : AtSep sep p) :
    matchPrefix star sep glob (e ++ p) = some p := by
  induction h with
  | nil =>
    cases p with
    | nil => rfl
    | cons c p => exact if_pos (hp c rfl)
  | letter hg _ ih =>
    rw [List.cons_append, matchPrefix_cons hg]
    exact ih (List.isChain_of_isChain_cons hstars)
  | @star run glob e hrun hexp ih =>
    have hhead : glob.head? ≠ some star := by
      intro hg
      obtain ⟨glob, rfl⟩ := List.head?_eq_some_iff.mp hg
      exact (List.isChain_cons_cons.mp hstars).1 ⟨rfl, rfl⟩
    rw [matchPrefix_star_cons, List.append_assoc, skip_run hrun]
    · exact ih (List.isChain_of_isChain_cons hstars)
    · intro c hc
      cases e with
      | nil => exact .inl (hp c hc)
      | cons a e =>
        obtain rfl := Option.some.inj hc
        exact .inr (hexp.head hhead).symm

end ItxLlama.Lib.Glob
