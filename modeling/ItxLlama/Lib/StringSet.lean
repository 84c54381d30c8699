import Mathlib.Data.List.Basic
import Mathlib.Data.List.Induction
import Mathlib.Data.List.Nodup

/-!
# Runs of terminated strings

A string is a list without a zero; a set of strings is stored one after the other,
each with a zero behind it, and one more zero ends the run. The empty string ends a
run, so it is never in a set.
-/

namespace ItxLlama.Lib.StringSet

variable {α : Type} [Zero α] [DecidableEq α]

def firstString (run : List α) : List α := run.takeWhile (· ≠ 0)

/-- The strings with their zeroes. -/
def terminated (ss : List (List α)) : List α := ss.flatMap (· ++ [0])

/-- The strings of a run, up to the empty one. -/
def strings : (fuel : Nat) → List α → List (List α)
  | 0, _ => []
  | fuel + 1, run =>
    if firstString run = [] then []
    else firstString run :: strings fuel (run.drop ((firstString run).length + 1))

def stringSet (run : List α) : List (List α) := strings run.length run

/-- The place behind the first two zeroes in a row. -/
def firstDouble : List α → Nat
  | a :: b :: run => if a = 0 ∧ b = 0 then 2 else firstDouble (b :: run) + 1
  | run => run.length

/-- Nonempty strings without zeroes, none twice. -/
structure Strings (ss : List (List α)) : Prop where
  nonempty : ∀ s ∈ ss, s ≠ []
  noZero : ∀ s ∈ ss, (0 : α) ∉ s
  nodup : ss.Nodup

section Run

variable {s : List α} {ss : List (List α)}

omit [DecidableEq α] in
theorem Strings.tail (h : Strings (s :: ss)) : Strings ss where
  nonempty t ht := h.nonempty t (List.mem_cons_of_mem _ ht)
  noZero t ht := h.noZero t (List.mem_cons_of_mem _ ht)
  nodup := (List.nodup_cons.mp h.nodup).2

theorem firstString_append (hs : (0 : α) ∉ s) (run : List α) : firstString (s ++ 0 :: run) = s := by
  have hall : ∀ a ∈ s, decide (a ≠ 0) = true := by
    intro a ha
    exact decide_eq_true fun hzero => hs (hzero ▸ ha)
  unfold firstString
  rw [List.takeWhile_append_of_pos hall, List.takeWhile_cons_of_neg (by simp), List.append_nil]

theorem firstString_zero (run : List α) : firstString (0 :: run) = [] := by
  rw [firstString, List.takeWhile_cons_of_neg (by simp)]

omit [DecidableEq α] in
theorem drop_string (s run : List α) : (s ++ 0 :: run).drop (s.length + 1) = run := by
  rw [List.append_cons, List.drop_left' (by rw [List.length_append]; rfl)]

omit [DecidableEq α] in
theorem terminated_cons (s : List α) (ss : List (List α)) (run : List α) :
    terminated (s :: ss) ++ run = s ++ 0 :: (terminated ss ++ run) := by
  rw [terminated, List.flatMap_cons, List.append_assoc, List.append_assoc]
  rfl

theorem strings_terminated (h : Strings ss) (junk : List α) (hfuel : ss.length < fuel) :
    strings fuel (terminated ss ++ 0 :: junk) = ss := by
  induction ss generalizing fuel with
  | nil =>
    obtain ⟨fuel, rfl⟩ := Nat.exists_eq_succ_of_ne_zero (Nat.ne_of_gt hfuel)
    rw [strings]
    exact if_pos (firstString_zero junk)
  | cons s ss ih =>
    obtain ⟨fuel, rfl⟩ :=
      Nat.exists_eq_succ_of_ne_zero (Nat.ne_of_gt (Nat.lt_of_le_of_lt (Nat.zero_le _) hfuel))
    have hfirst := h.nonempty s List.mem_cons_self
    rw [terminated_cons, strings, firstString_append (h.noZero s List.mem_cons_self), if_neg hfirst,
      drop_string, ih h.tail (Nat.lt_of_succ_lt_succ hfuel)]

omit [DecidableEq α] in
theorem length_terminated_ge (ss : List (List α)) : ss.length ≤ (terminated ss).length := by
  induction ss with
  | nil => exact Nat.le_refl _
  | cons s ss ih =>
    have hcons := terminated_cons s ss []
    rw [List.append_nil, List.append_nil] at hcons
    rw [hcons, List.length_append, List.length_cons, List.length_cons]
    omega

theorem stringSet_terminated (h : Strings ss) (junk : List α) :
    stringSet (terminated ss ++ 0 :: junk) = ss := by
  refine strings_terminated h junk ?_
  have hlen := length_terminated_ge ss
  rw [List.length_append, List.length_cons]
  omega

-- ---------------------------------------------------------------------------
-- Collecting
-- ---------------------------------------------------------------------------

/-- The set with one more string; one that is there is not added again. -/
def add (ss : List (List α)) (s : List α) : List (List α) := if s = [] ∨ s ∈ ss then ss else ss ++ [s]

/-- The number of a string in the set, from one on, or that of the end. -/
def position (ss : List (List α)) (s : List α) : Nat :=
  if s ∈ ss then ss.idxOf s + 1 else ss.length + 1

/-- The different nonempty strings of a list, in the order of their first places. -/
def collect (strs : List (List α)) : List (List α) := strs.foldl add []

omit [Zero α] in
theorem prefix_add (ss : List (List α)) (s : List α) : ss <+: add ss s := by
  unfold add
  split
  · exact List.prefix_refl _
  · exact List.prefix_append _ _

theorem Strings.add (h : Strings ss) (hs : (0 : α) ∉ s) : Strings (add ss s) := by
  unfold StringSet.add
  by_cases hold : s = [] ∨ s ∈ ss
  · rw [if_pos hold]
    exact h
  · obtain ⟨hne, hnew⟩ := not_or.mp hold
    rw [if_neg hold]
    refine ⟨fun t ht => ?_, fun t ht => ?_, ?_⟩
    · obtain ht | ht := List.mem_append.mp ht
      · exact h.nonempty t ht
      · exact List.mem_singleton.mp ht ▸ hne
    · obtain ht | ht := List.mem_append.mp ht
      · exact h.noZero t ht
      · exact List.mem_singleton.mp ht ▸ hs
    · exact List.nodup_append.mpr ⟨h.nodup, List.nodup_singleton s, fun t ht u hu heq =>
        hnew (List.mem_singleton.mp hu ▸ heq ▸ ht)⟩

omit [Zero α] in
theorem getElem?_position (hs : s ≠ []) (ss : List (List α)) :
    (add ss s)[position ss s - 1]? = some s := by
  unfold add position
  by_cases hold : s ∈ ss
  · rw [if_pos (Or.inr hold), if_pos hold, Nat.add_sub_cancel]
    exact List.getElem?_idxOf hold
  · rw [if_neg (not_or.mpr ⟨hs, hold⟩), if_neg hold, Nat.add_sub_cancel,
      List.getElem?_append_right (Nat.le_refl _),
      Nat.sub_self]
    rfl

omit [Zero α] in
theorem collect_concat (strs : List (List α)) (s : List α) :
    collect (strs ++ [s]) = add (collect strs) s := by
  rw [collect, List.foldl_append]
  rfl

theorem strings_collect {strs : List (List α)} (h : ∀ s ∈ strs, (0 : α) ∉ s) :
    Strings (collect strs) := by
  induction strs using List.reverseRecOn with
  | nil => exact ⟨fun _ hs => (nomatch hs), fun _ hs => (nomatch hs), List.nodup_nil⟩
  | append_singleton strs s ih =>
    rw [collect_concat]
    exact (ih fun t ht => h t (List.mem_append_left _ ht)).add
      (h s (List.mem_append_right _ (List.mem_singleton_self s)))

omit [Zero α] in
theorem mem_collect {strs : List (List α)} (h : s ∈ strs) (hs : s ≠ []) : s ∈ collect strs := by
  induction strs using List.reverseRecOn with
  | nil => exact nomatch h
  | append_singleton strs t ih =>
    rw [collect_concat]
    obtain h | h := List.mem_append.mp h
    · exact (prefix_add _ t).subset (ih h)
    · obtain rfl := List.mem_singleton.mp h
      have hplace := getElem?_position hs (collect strs)
      exact List.mem_of_getElem? hplace

omit [Zero α] in
theorem position_eq_length_iff (hnodup : ss.Nodup) (hs : s ∈ ss) :
    position ss s = ss.length ↔ ss.getLast? = some s := by
  rw [position, if_pos hs, List.getLast?_eq_getElem?]
  have hlt := List.idxOf_lt_length_of_mem hs
  constructor
  · intro hend
    have hplace : ss.length - 1 = ss.idxOf s := by omega
    rw [hplace]
    exact List.getElem?_idxOf hs
  · intro hend
    obtain ⟨hin, hlast⟩ := List.getElem?_eq_some_iff.mp hend
    have hplace := hnodup.idxOf_getElem _ hin
    rw [hlast] at hplace
    omega

omit [Zero α] in
theorem length_collect_le (strs : List (List α)) : (collect strs).length ≤ strs.length := by
  induction strs using List.reverseRecOn with
  | nil => exact Nat.le_refl _
  | append_singleton strs s ih =>
    rw [collect_concat, List.length_append, List.length_singleton]
    unfold add
    split
    · exact Nat.le_succ_of_le ih
    · rw [List.length_append, List.length_singleton]
      exact Nat.succ_le_succ ih

omit [Zero α] in
theorem add_cons_ne {t : List α} (hne : t ≠ s) (ss : List (List α)) :
    add (t :: ss) s = t :: add ss s := by
  unfold add
  simp only [List.mem_cons, Ne.symm hne, false_or]
  split
  · rfl
  · rfl

omit [Zero α] in
theorem position_cons_ne {t : List α} (hne : t ≠ s) (ss : List (List α)) :
    position (t :: ss) s = position ss s + 1 := by
  unfold position
  simp only [List.mem_cons, Ne.symm hne, false_or]
  split
  · rw [List.idxOf_cons_ne _ hne]
  · rfl

omit [Zero α] in
theorem position_pos (ss : List (List α)) (s : List α) : 0 < position ss s := by
  unfold position
  split
  · exact Nat.succ_pos _
  · exact Nat.succ_pos _

omit [Zero α] in
theorem position_le (ss : List (List α)) (s : List α) : position ss s ≤ ss.length + 1 := by
  unfold position
  split
  · exact Nat.succ_le_succ (List.idxOf_le_length)
  · exact Nat.le_refl _

-- ---------------------------------------------------------------------------
-- The end of a run
-- ---------------------------------------------------------------------------

theorem firstDouble_zeros (run : List α) :
    firstDouble ((0 : α) :: 0 :: run) = 2 := if_pos ⟨rfl, rfl⟩

theorem firstDouble_string (hs : (0 : α) ∉ s) (run : List α) :
    firstDouble (s ++ 0 :: run) = s.length + firstDouble (0 :: run) := by
  induction s with
  | nil => rw [List.nil_append, List.length_nil, Nat.zero_add]
  | cons a s ih =>
    have ha : a ≠ 0 := fun h => hs (h ▸ List.mem_cons_self)
    have hrest : (0 : α) ∉ s := fun h => hs (List.mem_cons_of_mem _ h)
    cases s with
    | nil =>
      show (if a = 0 ∧ (0 : α) = 0 then 2 else firstDouble (0 :: run) + 1) = 1 + firstDouble (0 :: run)
      rw [if_neg (fun h => ha h.1), Nat.add_comm]
    | cons b s =>
      have hstep : firstDouble (a :: b :: s ++ 0 :: run) = firstDouble (b :: s ++ 0 :: run) + 1 :=
        if_neg fun h => ha h.1
      rw [hstep, ih hrest, List.length_cons (a := a)]
      omega

theorem firstDouble_cons (ha : a ≠ 0) (run : List α) :
    firstDouble ((0 : α) :: a :: run) = firstDouble (a :: run) + 1 := if_neg fun h => ha h.2

theorem firstDouble_separated (hnonempty : ∀ s ∈ ss, s ≠ []) (hzero : ∀ s ∈ ss, (0 : α) ∉ s)
    (hne : ss ≠ []) (junk : List α) :
    firstDouble (terminated ss ++ 0 :: junk) = (terminated ss).length + 1 := by
  induction ss with
  | nil => exact absurd rfl hne
  | cons s ss ih =>
    have hs := hzero s List.mem_cons_self
    have hlen : (terminated (s :: ss)).length = s.length + 1 + (terminated ss).length := by
      have hcons := terminated_cons s ss []
      rw [List.append_nil, List.append_nil] at hcons
      rw [hcons, List.length_append, List.length_cons]
      omega
    rw [terminated_cons, firstDouble_string hs, hlen]
    cases ss with
    | nil =>
      show s.length + firstDouble ((0 : α) :: 0 :: junk) = s.length + 1 + 0 + 1
      rw [firstDouble_zeros]
    | cons t ss =>
      obtain ⟨-, hnonempty'⟩ := List.forall_mem_cons.mp hnonempty
      obtain ⟨-, hzero'⟩ := List.forall_mem_cons.mp hzero
      have hend := ih hnonempty' hzero' (List.cons_ne_nil _ _)
      obtain ⟨a, t', rfl⟩ := List.exists_cons_of_ne_nil (hnonempty' t List.mem_cons_self)
      have ha : a ≠ 0 := fun h => hzero' _ List.mem_cons_self (h ▸ List.mem_cons_self)
      rw [terminated_cons, List.cons_append] at hend ⊢
      rw [firstDouble_cons ha, hend]
      omega

theorem firstDouble_terminated (h : Strings ss) (hne : ss ≠ []) (junk : List α) :
    firstDouble (terminated ss ++ 0 :: junk) = (terminated ss).length + 1 :=
  firstDouble_separated h.nonempty h.noZero hne junk

end Run

end ItxLlama.Lib.StringSet
