import Mathlib.Data.Finset.Card
import Mathlib.Data.List.MinMax

/-!
# Enumerating a list by successor

The elements of a list by decreasing key, those of one key in the order they
are met. The successor of an element is found by one walk over the list, which
knows nothing but that element; it is the right one unless two elements of one
key are met in turns.
-/

namespace ItxLlama.Lib.Successor

variable {α K : Type*} [DecidableEq α] [LinearOrder K]

section

variable (key : α → K) (xs : List α)

/-- Its key is larger, or they have one key and it is met first. -/
def Precedes (p q : α) : Prop := key q < key p ∨ (key p = key q ∧ xs.idxOf p < xs.idxOf q)

instance : DecidableRel (Precedes key xs) := fun _ _ => inferInstanceAs (Decidable (_ ∨ _))

/-- Everything is behind nothing. -/
def Behind : Option α → α → Prop
  | none, _ => True
  | some p, q => Precedes key xs p q

instance (last : Option α) (q : α) : Decidable (Behind key xs last q) :=
  match last with
  | none => isTrue trivial
  | some p => inferInstanceAs (Decidable (Precedes key xs p q))

variable (want : α → Bool)

/-- What is left behind `last`. -/
def rest (last : Option α) : List α := xs.filter fun p => want p && decide (Behind key xs last p)

/-- The first of what is left. -/
def next (last : Option α) : Option α := (rest key xs want last).argmax key

end

section

variable {key : α → K} {xs : List α} {want : α → Bool} {p q r : α} {last : Option α}

theorem Precedes.irrefl (p : α) : ¬ Precedes key xs p p := by
  rintro (hlt | ⟨-, hlt⟩)
  · exact lt_irrefl _ hlt
  · exact Nat.lt_irrefl _ hlt

theorem Precedes.trans (hpq : Precedes key xs p q) (hqr : Precedes key xs q r) :
    Precedes key xs p r := by
  obtain hpq | ⟨hkpq, hpq⟩ := hpq <;> obtain hqr | ⟨hkqr, hqr⟩ := hqr
  · exact .inl (hqr.trans hpq)
  · exact .inl (hkqr ▸ hpq)
  · exact .inl (hkpq ▸ hqr)
  · exact .inr ⟨hkpq.trans hkqr, Nat.lt_trans hpq hqr⟩

theorem mem_rest : p ∈ rest key xs want last ↔ p ∈ xs ∧ want p = true ∧ Behind key xs last p := by
  simp [rest]

/-- Leaving elements out does not change which of two others is met first. -/
theorem idxOf_le_of_filter {P : α → Bool} {l : List α} (hq : P q = true)
    (h : (l.filter P).idxOf p ≤ (l.filter P).idxOf q) : l.idxOf p ≤ l.idxOf q := by
  induction l with
  | nil => exact Nat.le_refl _
  | cons x l ih =>
    by_cases hxp : x = p
    · rw [hxp, List.idxOf_cons_self]
      exact Nat.zero_le _
    · by_cases hxq : x = q
      · rw [List.filter_cons_of_pos (hxq ▸ hq), hxq, List.idxOf_cons_self,
          List.idxOf_cons_ne _ (hxq ▸ hxp)] at h
        exact absurd h (Nat.not_succ_le_zero _)
      · rw [List.idxOf_cons_ne _ hxp, List.idxOf_cons_ne _ hxq]
        refine Nat.succ_le_succ (ih ?_)
        cases hx : P x with
        | false => rwa [List.filter_cons_of_neg (by simp [hx])] at h
        | true =>
          rw [List.filter_cons_of_pos hx, List.idxOf_cons_ne _ hxp, List.idxOf_cons_ne _ hxq] at h
          exact Nat.le_of_succ_le_succ h

theorem next_eq_some (h : next key xs want last = some p) : p ∈ rest key xs want last ∧
    ∀ q ∈ rest key xs want last, q ≠ p → Precedes key xs p q := by
  obtain ⟨hmem, hle, hidx⟩ := List.argmax_eq_some_iff.mp h
  refine ⟨hmem, fun q hq hne => ?_⟩
  obtain hlt | heq := lt_or_eq_of_le (hle q hq)
  · exact .inl hlt
  · have hfilter := hidx q hq heq.ge
    obtain ⟨hxs, hwant, hbehind⟩ := mem_rest.mp hmem
    obtain ⟨-, hwantq, hbehindq⟩ := mem_rest.mp hq
    have hxidx := idxOf_le_of_filter (by simp [hwantq, hbehindq]) hfilter
    refine .inr ⟨heq.symm, Nat.lt_of_le_of_ne hxidx fun hsame => hne ?_⟩
    exact ((List.idxOf_inj hxs).mp hsame).symm

theorem next_eq_none : next key xs want last = none ↔ rest key xs want last = [] :=
  List.argmax_eq_none

end

section

omit [DecidableEq α]

/-- The list of what one call after the other yields, until one yields nothing. -/
inductive Yields (call : Option α → Option α) : Option α → List α → Prop
  | null (h : call last = none) : Yields call last []
  | next (h : call last = some p) (rest : Yields call (some p) l) : Yields call last (p :: l)

theorem Yields.congr {call call' : Option α → Option α} {P : Option α → Prop}
    (heq : ∀ last, P last → call last = call' last)
    (hstep : ∀ last p, P last → call last = some p → P (some p)) (hlast : P last)
    (h : Yields call last l) : Yields call' last l := by
  induction h with
  | null hnone => exact .null (heq _ hlast ▸ hnone)
  | next hsome rest ih => exact .next (heq _ hlast ▸ hsome) (ih (hstep _ _ hlast hsome))

end

/-- Once each, and in order. -/
structure Enumerates (key : α → K) (xs : List α) (want : α → Prop) (l : List α) : Prop where
  nodup : l.Nodup
  mem : ∀ p, p ∈ l ↔ p ∈ xs ∧ want p
  ordered : l.Pairwise (Precedes key xs)

theorem yields_next (key : α → K) (xs : List α) (want : α → Bool) (last : Option α) :
    ∃ l, Yields (next key xs want) last l ∧ l.Pairwise (Precedes key xs) ∧
      ∀ p, p ∈ l ↔ p ∈ rest key xs want last := by
  induction hn : (rest key xs want last).toFinset.card using Nat.strong_induction_on
    generalizing last with
  | _ n ih =>
    cases hnext : next key xs want last with
    | none =>
      refine ⟨[], .null hnext, .nil, fun p => ?_⟩
      rw [next_eq_none.mp hnext]
    | some p =>
      obtain ⟨hp, hfirst⟩ := next_eq_some hnext
      obtain ⟨hxs, hwant, hbehind⟩ := mem_rest.mp hp
      -- what is left behind `p` is all but `p`
      have hrest (q : α) : q ∈ rest key xs want (some p) ↔ q ∈ rest key xs want last ∧ q ≠ p := by
        constructor
        · intro hq
          obtain ⟨hqxs, hqwant, hpq⟩ := mem_rest.mp hq
          refine ⟨mem_rest.mpr ⟨hqxs, hqwant, ?_⟩, fun heq => Precedes.irrefl p (heq ▸ hpq)⟩
          cases last with
          | none => trivial
          | some l => exact Precedes.trans hbehind hpq
        · rintro ⟨hq, hne⟩
          obtain ⟨hqxs, hqwant, -⟩ := mem_rest.mp hq
          exact mem_rest.mpr ⟨hqxs, hqwant, hfirst q hq hne⟩
      have hcard : (rest key xs want (some p)).toFinset.card < n := by
        rw [← hn]
        refine Finset.card_lt_card ⟨fun q hq => ?_, fun hsub => ?_⟩
        · exact List.mem_toFinset.mpr ((hrest q).mp (List.mem_toFinset.mp hq)).1
        · exact ((hrest p).mp (List.mem_toFinset.mp (hsub (List.mem_toFinset.mpr hp)))).2 rfl
      obtain ⟨l, hyields, hordered, hmem⟩ := ih _ hcard (some p) rfl
      refine ⟨p :: l, .next hnext hyields, List.pairwise_cons.mpr ⟨fun q hq => ?_, hordered⟩,
        fun q => ?_⟩
      · obtain ⟨hq, hne⟩ := (hrest q).mp ((hmem q).mp hq)
        exact hfirst q hq hne
      · rw [List.mem_cons, hmem, hrest]
        by_cases heq : q = p
        · simp [heq, hp]
        · simp [heq]

theorem exists_enumerates (key : α → K) (xs : List α) (want : α → Bool) :
    ∃ l, Yields (next key xs want) none l ∧ Enumerates key xs (want · = true) l := by
  obtain ⟨l, hyields, hordered, hmem⟩ := yields_next key xs want none
  refine ⟨l, hyields, ?_, fun p => ?_, hordered⟩
  · refine List.Pairwise.imp ?_ hordered
    rintro p q hlt rfl
    exact Precedes.irrefl p hlt
  · rw [hmem, mem_rest]
    exact and_congr_right fun _ => and_iff_left trivial

-- ---------------------------------------------------------------------------
-- Finding the successor
-- ---------------------------------------------------------------------------

/-- Whether an element may follow the last one, which has been met or not. -/
def follows (key : α → K) (last : Option α) (met : Bool) (p : α) : Bool :=
  match last with
  | none => true
  | some l => decide (key p < key l) || (decide (key p = key l) && met)

/-- What a walk that looks out for the last element considers. -/
def walk (key : α → K) (want : α → Bool) (last : Option α) : (met : Bool) → List α → List α
  | _, [] => []
  | met, p :: l =>
    if last = some p then walk key want last true l
    else if want p && follows key last met p then p :: walk key want last met l
    else walk key want last met l

/-- No two wanted elements of one key are met in turns. -/
def NotInTurns (key : α → K) (xs : List α) (want : α → Bool) : Prop :=
  ∀ p q, want p = true → want q = true → p ≠ q → key p = key q → ¬ List.Sublist [p, q, p] xs

section

variable {key : α → K} {xs : List α} {want : α → Bool} {last : α}

omit [DecidableEq α] [LinearOrder K] in
/-- A list that meets each element once meets none in turns. -/
theorem notInTurns_of_nodup (h : xs.Nodup) : NotInTurns key xs want := by
  rintro p q - - - - hsub
  exact absurd (hsub.nodup h) (by simp)

theorem rest_none : rest key xs want none = xs.filter want :=
  List.filter_congr fun _ _ => Bool.and_true _

theorem walk_none (met : Bool) (l : List α) : walk key want none met l = l.filter want := by
  induction l with
  | nil => rfl
  | cons p l ih =>
    rw [walk, if_neg nofun, List.filter_cons, ih]
    simp [follows]

theorem walk_append (h : last ∉ a) (met : Bool) (b : List α) :
    walk key want (some last) met (a ++ b) =
      a.filter (fun p => want p && follows key (some last) met p) ++
        walk key want (some last) met b := by
  induction a with
  | nil => rfl
  | cons p a ih =>
    obtain ⟨hne, hnot⟩ := not_or.mp (mt List.mem_cons.mpr h)
    rw [List.cons_append, walk, if_neg (fun heq => hne (Option.some.inj heq)), ih hnot,
      List.filter_cons]
    split <;> rfl

theorem walk_met (l : List α) : walk key want (some last) true l =
    l.filter fun p => decide (p ≠ last) && (want p && follows key (some last) true p) := by
  induction l with
  | nil => rfl
  | cons p l ih =>
    rw [walk, List.filter_cons]
    by_cases heq : p = last
    · rw [if_pos (congrArg some heq.symm), ih, if_neg (by simp [heq])]
    · rw [if_neg (fun h => heq (Option.some.inj h).symm), ih]
      simp [heq]

theorem walk_eq (h : NotInTurns key xs want) (hlast : last ∈ xs) (hwant : want last = true) :
    walk key want (some last) false xs = rest key xs want (some last) := by
  obtain ⟨a, b, rfl, hnot⟩ := List.eq_append_cons_of_mem hlast
  have hidx : (a ++ last :: b).idxOf last = a.length := by
    rw [List.idxOf_append_of_notMem hnot, List.idxOf_cons_self, Nat.add_zero]
  have hself : ¬ (want last && decide (Behind key (a ++ last :: b) (some last) last)) = true := by
    have hirrefl : ¬ Behind key (a ++ last :: b) (some last) last := Precedes.irrefl last
    simp [hirrefl]
  rw [walk_append hnot, walk, if_pos rfl, walk_met, rest, List.filter_append, List.filter_cons,
    if_neg hself]
  congr 1
  · -- before the last element only smaller keys are left
    refine List.filter_congr fun p hp => congrArg _ ?_
    have hlt : (a ++ last :: b).idxOf p < (a ++ last :: b).idxOf last := by
      rw [hidx, List.idxOf_append_of_mem hp]
      exact List.idxOf_lt_length_of_mem hp
    have hnlt : ¬ (a ++ last :: b).idxOf last < (a ++ last :: b).idxOf p := Nat.lt_asymm hlt
    simp [follows, Behind, Precedes, hnlt]
  · refine List.filter_congr fun p hp => ?_
    by_cases heq : p = last
    · simp [heq, Behind, Precedes.irrefl]
    · cases hp' : want p with
      | false => simp
      | true =>
        by_cases hkey : key last = key p
        · -- one of the same key has not been met before
          have hpa : p ∉ a := fun hmem => h p last hp' hwant heq hkey.symm <|
            (List.singleton_sublist.mpr hmem).append
              ((List.singleton_sublist.mpr hp).cons_cons last)
          have hlt : (a ++ last :: b).idxOf last < (a ++ last :: b).idxOf p := by
            rw [hidx, List.idxOf_append_of_notMem hpa, List.idxOf_cons_ne _ (Ne.symm heq)]
            omega
          simp [heq, follows, Behind, Precedes, hkey, hlt]
        · simp [heq, follows, Behind, Precedes, hkey, Ne.symm hkey]

end

end ItxLlama.Lib.Successor
