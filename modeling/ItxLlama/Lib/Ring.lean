import Mathlib.Data.List.Basic
import Mathlib.Data.Nat.ModEq

/-!
# Bounded queues in a ring of slots

A queue of at most `cap` elements with its three calls, and a ring of
`cap + 1` slots that holds one: the oldest element is at the head, the next
free slot is the tail, and one slot always stays free so that a full ring and
an empty one differ.
-/

namespace ItxLlama.Lib.Ring

section Queue

inductive Call (α : Type) where
  | put (a : α)
  | take
  | look
deriving Repr, DecidableEq

inductive Answer (α : Type) where
  | stored
  | refused
  | taken (a : α)
  | seen (a : α)
  | nothing
deriving Repr, DecidableEq

variable {α : Type}

/-- A queue of capacity `cap`: elements leave at the front. -/
def Call.step (cap : Nat) (q : List α) : Call α → List α × Answer α
  | .put a => if q.length < cap then (q ++ [a], .stored) else (q, .refused)
  | .take =>
    match q with
    | [] => ([], .nothing)
    | a :: q => (q, .taken a)
  | .look =>
    match q with
    | [] => ([], .nothing)
    | a :: q => (a :: q, .seen a)

/-- The queue after a list of calls, and the answers in order. -/
def runCalls (cap : Nat) (q : List α) : List (Call α) → List α × List (Answer α)
  | [] => (q, [])
  | c :: cs =>
    let r := runCalls cap (c.step cap q).1 cs
    (r.1, (c.step cap q).2 :: r.2)

/-- The elements the queue accepted, in the order of their calls. -/
def accepted : List (Call α) → List (Answer α) → List α
  | .put a :: cs, .stored :: rs => a :: accepted cs rs
  | _ :: cs, _ :: rs => accepted cs rs
  | _, _ => []

/-- The elements that left the queue, in order. -/
def delivered : List (Answer α) → List α
  | [] => []
  | .taken a :: rs => a :: delivered rs
  | _ :: rs => delivered rs

theorem accepted_eq (cap : Nat) (q : List α) (cs : List (Call α)) :
    q ++ accepted cs (runCalls cap q cs).2 =
      delivered (runCalls cap q cs).2 ++ (runCalls cap q cs).1 := by
  induction cs generalizing q with
  | nil => simp [runCalls, accepted, delivered]
  | cons c cs ih =>
    cases c with
    | put a =>
      by_cases h : q.length < cap
      · have := ih (q ++ [a])
        simpa [runCalls, Call.step, h, accepted, delivered] using this
      · simpa [runCalls, Call.step, h, accepted, delivered] using ih q
    | take =>
      cases q with
      | nil => simpa [runCalls, Call.step, accepted, delivered] using ih []
      | cons a q => simpa [runCalls, Call.step, accepted, delivered] using ih q
    | look =>
      cases q with
      | nil => simpa [runCalls, Call.step, accepted, delivered] using ih []
      | cons a q => simpa [runCalls, Call.step, accepted, delivered] using ih (a :: q)

end Queue

section Slots

/-- The slot after `i` in a ring of `n`. -/
def next (n i : Nat) : Nat := if i + 1 < n then i + 1 else 0

theorem next_lt {n i : Nat} (h : i < n) : next n i < n := by
  unfold next
  split
  · assumption
  · exact Nat.zero_lt_of_lt h

theorem next_eq_mod {n i : Nat} (h : i < n) : next n i = (i + 1) % n := by
  unfold next
  split
  · rw [Nat.mod_eq_of_lt ‹_›]
  · have : i + 1 = n := by omega
    rw [this, Nat.mod_self]

/-- The slots from `head` up to `tail` hold `q`, oldest first. -/
structure Holds {α : Type} (n : Nat) (read : Nat → α) (head tail : Nat) (q : List α) : Prop where
  head_lt : head < n
  room : q.length < n
  tail_eq : tail = (head + q.length) % n
  slots : ∀ i (h : i < q.length), read ((head + i) % n) = q[i]

variable {α : Type} {n head tail : Nat} {read : Nat → α} {q : List α}

theorem holds_nil (h : head < n) : Holds n read head head [] where
  head_lt := h
  room := Nat.zero_lt_of_lt h
  tail_eq := (Nat.mod_eq_of_lt h).symm
  slots i hi := absurd hi (Nat.not_lt_zero i)

theorem Holds.congr {read' : Nat → α} (h : Holds n read head tail q)
    (hs : ∀ i, i < n → read' i = read i) : Holds n read' head tail q where
  head_lt := h.head_lt
  room := h.room
  tail_eq := h.tail_eq
  slots i hi := by
    rw [hs _ (Nat.mod_lt _ (Nat.zero_lt_of_lt h.head_lt))]
    exact h.slots i hi

theorem Holds.tail_lt (h : Holds n read head tail q) : tail < n := by
  rw [h.tail_eq]
  exact Nat.mod_lt _ (Nat.zero_lt_of_lt h.head_lt)

/-- Two offsets below the size meet in the ring only when they are equal. -/
theorem add_mod_inj {n a i j : Nat} (hi : i < n) (hj : j < n)
    (h : (a + i) % n = (a + j) % n) : i = j := by
  have hm : i ≡ j [MOD n] := Nat.ModEq.add_left_cancel' a h
  exact Nat.ModEq.eq_of_lt_of_lt hm hi hj

theorem Holds.empty_iff (h : Holds n read head tail q) : head = tail ↔ q = [] := by
  rw [h.tail_eq]
  constructor
  · intro he
    have he : (head + 0) % n = (head + q.length) % n := by
      rw [Nat.add_zero, Nat.mod_eq_of_lt h.head_lt]
      exact he
    have hl := add_mod_inj (Nat.zero_lt_of_lt h.head_lt) h.room he
    exact List.eq_nil_of_length_eq_zero hl.symm
  · rintro rfl
    exact (Nat.mod_eq_of_lt h.head_lt).symm

theorem Holds.next_tail (h : Holds n read head tail q) :
    next n tail = (head + (q.length + 1)) % n := by
  rw [next_eq_mod h.tail_lt, h.tail_eq, Nat.mod_add_mod, Nat.add_assoc]

theorem Holds.full_iff (h : Holds n read head tail q) :
    next n tail = head ↔ q.length + 1 = n := by
  rw [h.next_tail]
  constructor
  · intro he
    by_contra hne
    have hlt : q.length + 1 < n := lt_of_le_of_ne h.room hne
    have he : (head + (q.length + 1)) % n = (head + 0) % n := by
      rw [he, Nat.add_zero, Nat.mod_eq_of_lt h.head_lt]
    exact absurd (add_mod_inj hlt (Nat.zero_lt_of_lt h.head_lt) he) (Nat.succ_ne_zero _)
  · intro he
    rw [he, Nat.add_mod_right, Nat.mod_eq_of_lt h.head_lt]

theorem Holds.push {read' : Nat → α} {a : α} (h : Holds n read head tail q)
    (hr : q.length + 1 < n) (hsame : ∀ i, i < n → i ≠ tail → read' i = read i)
    (hat : read' tail = a) : Holds n read' head (next n tail) (q ++ [a]) where
  head_lt := h.head_lt
  room := by simpa using hr
  tail_eq := by simpa using h.next_tail
  slots i hi := by
    have hn := Nat.zero_lt_of_lt h.head_lt
    by_cases hiq : i < q.length
    · have hne : (head + i) % n ≠ tail := by
        intro he
        have := add_mod_inj (lt_trans hiq h.room) h.room (he.trans h.tail_eq)
        omega
      rw [hsame _ (Nat.mod_lt _ hn) hne, h.slots i hiq, List.getElem_append_left hiq]
    · have hl : i = q.length := by
        simp only [List.length_append, List.length_singleton] at hi
        omega
      subst hl
      rw [← h.tail_eq, hat]
      simp

theorem Holds.head_eq {a : α} (h : Holds n read head tail (a :: q)) : read head = a := by
  have := h.slots 0 (Nat.succ_pos _)
  rwa [Nat.add_zero, Nat.mod_eq_of_lt h.head_lt] at this

theorem Holds.pop {a : α} (h : Holds n read head tail (a :: q)) :
    Holds n read (next n head) tail q where
  head_lt := next_lt h.head_lt
  room := lt_trans (Nat.lt_succ_self _) h.room
  tail_eq := by
    rw [h.tail_eq, next_eq_mod h.head_lt, Nat.mod_add_mod, List.length_cons]
    congr 1
    omega
  slots i hi := by
    have := h.slots (i + 1) (Nat.succ_lt_succ hi)
    rw [next_eq_mod h.head_lt, Nat.mod_add_mod, show head + 1 + i = head + (i + 1) by omega]
    simpa using this

end Slots

end ItxLlama.Lib.Ring

/-!
## Rings whose slots say whether they are full

In a ring of `n` slots, all of which may be full, each slot tells whether it
holds an element: the oldest is at the head, the next slot to fill is the tail.
-/

namespace ItxLlama.Lib.FlaggedRing

open Lib.Ring

/-- From the head on the slots hold `q`, oldest first, and then nothing. -/
structure Holds {α : Type} (n : Nat) (slot : Nat → Option α → Prop) (head tail : Nat) (q : List α) :
    Prop where
  head_lt : head < n
  room : q.length ≤ n
  tail_eq : tail = (head + q.length) % n
  slots : ∀ j < n, slot ((head + j) % n) q[j]?

variable {α : Type} {n head tail : Nat} {slot slot' : Nat → Option α → Prop} {q : List α} {a : α}

theorem holds_nil (h : head < n) (hslots : ∀ i < n, slot i none) : Holds n slot head head [] where
  head_lt := h
  room := Nat.zero_le n
  tail_eq := (Nat.mod_eq_of_lt h).symm
  slots _ _ := hslots _ (Nat.mod_lt _ (Nat.zero_lt_of_lt h))

theorem Holds.tail_lt (h : Holds n slot head tail q) : tail < n := by
  rw [h.tail_eq]
  exact Nat.mod_lt _ (Nat.zero_lt_of_lt h.head_lt)

theorem Holds.head_slot (h : Holds n slot head tail q) : slot head q.head? := by
  have hslot := h.slots 0 (Nat.zero_lt_of_lt h.head_lt)
  rwa [Nat.add_zero, Nat.mod_eq_of_lt h.head_lt, ← List.head?_eq_getElem?] at hslot

theorem Holds.tail_slot (h : Holds n slot head tail q) (hroom : q.length < n) : slot tail none := by
  have hslot := h.slots q.length hroom
  rwa [← h.tail_eq, List.getElem?_eq_none (Nat.le_refl _)] at hslot

theorem Holds.full (h : Holds n slot head tail q) (hfull : q.length = n) : tail = head := by
  rw [h.tail_eq, hfull, Nat.add_mod_right, Nat.mod_eq_of_lt h.head_lt]

theorem Holds.push (h : Holds n slot head tail q) (hroom : q.length < n)
    (hsame : ∀ i < n, i ≠ tail → ∀ o, slot i o → slot' i o) (hat : slot' tail (some a)) :
    Holds n slot' head (next n tail) (q ++ [a]) where
  head_lt := h.head_lt
  room := by rwa [List.length_append]
  tail_eq := by
    rw [next_eq_mod h.tail_lt, h.tail_eq, Nat.mod_add_mod, List.length_append, Nat.add_assoc]
    rfl
  slots j hj := by
    by_cases hlast : j = q.length
    · rw [hlast, ← h.tail_eq, List.getElem?_concat_length]
      exact hat
    · have hne : (head + j) % n ≠ tail := fun heq =>
        hlast (add_mod_inj hj hroom (heq.trans h.tail_eq))
      have hget : (q ++ [a])[j]? = q[j]? := by
        rcases Nat.lt_or_gt_of_ne hlast with hlt | hgt
        · exact List.getElem?_append_left hlt
        · rw [List.getElem?_eq_none (Nat.le_of_lt hgt), List.getElem?_eq_none]
          rwa [List.length_append]
      rw [hget]
      exact hsame _ (Nat.mod_lt _ (Nat.zero_lt_of_lt h.head_lt)) hne _ (h.slots j hj)

theorem Holds.pop (h : Holds n slot head tail (a :: q))
    (hsame : ∀ i < n, i ≠ head → ∀ o, slot i o → slot' i o) (hat : slot' head none) :
    Holds n slot' (next n head) tail q where
  head_lt := next_lt h.head_lt
  room := Nat.le_of_lt h.room
  tail_eq := by
    rw [h.tail_eq, next_eq_mod h.head_lt, Nat.mod_add_mod, List.length_cons, Nat.add_assoc,
      Nat.add_comm 1]
  slots j hj := by
    have hn := Nat.zero_lt_of_lt h.head_lt
    have hindex : (next n head + j) % n = (head + (j + 1)) % n := by
      rw [next_eq_mod h.head_lt, Nat.mod_add_mod, Nat.add_assoc, Nat.add_comm 1]
    rw [hindex]
    by_cases hlast : j + 1 = n
    · have hroom : q.length + 1 ≤ n := h.room
      have hnone : q[j]? = none := List.getElem?_eq_none (by omega)
      rw [hlast, Nat.add_mod_right, Nat.mod_eq_of_lt h.head_lt, hnone]
      exact hat
    · have hlt : j + 1 < n := Nat.lt_of_le_of_ne hj hlast
      have hne : (head + (j + 1)) % n ≠ head := fun heq =>
        absurd (add_mod_inj hlt hn (heq.trans (Nat.mod_eq_of_lt h.head_lt).symm))
          (Nat.succ_ne_zero j)
      exact hsame _ (Nat.mod_lt _ hn) hne _ (h.slots (j + 1) hlt)

end ItxLlama.Lib.FlaggedRing

/-!
## Rings whose entries carry the bit of their lap

A writer fills the `n` slots of a ring again and again, and every entry has a
bit that flips from lap to lap. A reader that follows by at most a lap knows
from the bit of its slot whether there is another entry.
-/

namespace ItxLlama.Lib.CycleRing

/-- The bit of the lap that a position is in: true in the first one. -/
def phase (n p : Nat) : Bool := decide (p / n % 2 = 0)

theorem phase_lap (hn : 0 < n) (p : Nat) : phase n (p + n) = !phase n p := by
  unfold phase
  rw [Nat.add_div_right p hn, Bool.eq_iff_iff]
  simp only [decide_eq_true_eq, Bool.not_eq_true', decide_eq_false_iff_not]
  omega

theorem phase_first (h : p < n) : phase n p = true := by
  unfold phase
  rw [Nat.div_eq_of_lt h]
  rfl

theorem mod_succ (hn : 0 < n) (p : Nat) :
    (p + 1) % n = if p % n + 1 = n then 0 else p % n + 1 := by
  have hlt := Nat.mod_lt p hn
  rw [Nat.add_mod_eq_add_mod_right 1 (Nat.mod_mod p n).symm]
  split
  · rw [‹p % n + 1 = n›, Nat.mod_self]
  · exact Nat.mod_eq_of_lt (by omega)

theorem phase_succ (hn : 0 < n) (p : Nat) :
    phase n (p + 1) = if p % n + 1 = n then !phase n p else phase n p := by
  have hdiv : (p + 1) / n = if p % n + 1 = n then p / n + 1 else p / n := by
    rw [Nat.succ_div]
    have hdvd : n ∣ p + 1 ↔ p % n + 1 = n := by
      rw [Nat.dvd_iff_mod_eq_zero, mod_succ hn]
      split <;> simp [*]
    simp only [hdvd]
    split <;> rfl
  unfold phase
  rw [hdiv]
  split
  · rw [Bool.eq_iff_iff]
    simp only [decide_eq_true_eq, Bool.not_eq_true', decide_eq_false_iff_not]
    omega
  · rfl

/-- The last `n` of the first `w` entries are in the slots, and the slots that were
never written have no bit. -/
structure Written {β : Type} (n : Nat) (flag : β → Bool) (entry : Nat → β) (slot : Nat → β)
    (w : Nat) : Prop where
  flags : ∀ p < w, flag (entry p) = phase n p
  last : ∀ p < w, w ≤ p + n → slot (p % n) = entry p
  blank : ∀ p < n, w ≤ p → flag (slot p) = false

variable {β : Type} {n w r : Nat} {flag : β → Bool} {entry entry' slot slot' : Nat → β}

theorem written_zero (h : ∀ p < n, flag (slot p) = false) : Written n flag entry slot 0 :=
  ⟨nofun, nofun, fun p hp _ => h p hp⟩

theorem Written.congr (h : Written n flag entry slot w) (heq : ∀ p < w, entry' p = entry p) :
    Written n flag entry' slot w :=
  ⟨fun p hp => heq p hp ▸ h.flags p hp, fun p hp hle => (h.last p hp hle).trans (heq p hp).symm,
    h.blank⟩

theorem mod_ne (hlt : p < w) (hlap : w < p + n) : p % n ≠ w % n := by
  intro heq
  have hdvd : n ∣ w - p := (Nat.modEq_iff_dvd' (Nat.le_of_lt hlt)).mp heq
  have hle := Nat.le_of_dvd (Nat.sub_pos_of_lt hlt) hdvd
  omega

theorem Written.push (h : Written n flag entry slot w) (hflag : flag (entry w) = phase n w)
    (hat : slot' (w % n) = entry w) (hsame : ∀ i < n, i ≠ w % n → slot' i = slot i) :
    Written n flag entry slot' (w + 1) := by
  refine ⟨fun p hp => ?_, fun p hp hle => ?_, fun p hp hle => ?_⟩
  · rcases Nat.lt_succ_iff_lt_or_eq.mp hp with hlt | rfl
    · exact h.flags p hlt
    · exact hflag
  · rcases Nat.lt_succ_iff_lt_or_eq.mp hp with hlt | rfl
    · have hne := mod_ne hlt (Nat.lt_of_succ_le hle)
      rw [hsame _ (Nat.mod_lt _ (by omega)) hne]
      exact h.last p hlt (Nat.le_of_succ_le hle)
    · exact hat
  · have hne : p ≠ w % n := by
      rw [Nat.mod_eq_of_lt (by omega)]
      omega
    rw [hsame p hp hne]
    exact h.blank p hp (Nat.le_of_succ_le hle)

/-- The reader's slot has the bit of its lap if and only if another entry is there. -/
theorem Written.flag_iff (h : Written n flag entry slot w) (hn : 0 < n) (hle : r ≤ w)
    (hroom : w ≤ r + n) : flag (slot (r % n)) = phase n r ↔ r < w := by
  constructor
  · intro hflag
    by_contra hge
    obtain rfl : r = w := Nat.le_antisymm hle (Nat.le_of_not_lt hge)
    by_cases hlap : r < n
    · rw [Nat.mod_eq_of_lt hlap, h.blank r hlap (Nat.le_refl r), phase_first hlap] at hflag
      exact Bool.false_ne_true hflag
    · obtain ⟨p, rfl⟩ := Nat.exists_eq_add_of_le' (Nat.le_of_not_lt hlap)
      rw [Nat.add_mod_right, h.last p (by omega) (Nat.le_refl _), h.flags p (by omega),
        phase_lap hn] at hflag
      exact absurd hflag.symm (Bool.not_ne_self _)
  · intro hlt
    rw [h.last r hlt hroom, h.flags r hlt]

end ItxLlama.Lib.CycleRing
