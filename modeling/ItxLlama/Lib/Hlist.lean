import Mathlib.Data.List.Basic
import Mathlib.Data.List.Pairwise
import Mathlib.Data.List.Perm.Basic
import Mathlib.Tactic.Tauto

/-!
# Doubly linked lists in word memory

A node keeps the address of its successor in its first word and, in the word
after it, the address of the word that points to the node. The list ends in
a null pointer. `Chain m loc l` says that the word at `loc` starts a list of
the nodes `l`; linking a node in and out is inserting it into `l` and
deleting it, as long as no two of the nodes overlap.
-/

namespace ItxLlama.Lib.Hlist

abbrev Mem := Nat → Nat

def store (m : Mem) (a v : Nat) : Mem := fun b => if b = a then v else m b

@[simp] theorem store_same (m : Mem) (a v : Nat) : store m a v a = v := by simp [store]

theorem store_ne (m : Mem) (v : Nat) (h : b ≠ a) : store m a v b = m b := by simp [store, h]

/-- Link `n` in behind the word `pprev`. -/
def hlistAdd (m : Mem) (n pprev : Nat) : Mem :=
  let next := m pprev
  let m := store m (n + 4) pprev
  let m := store m n next
  let m := if next = 0 then m else store m (next + 4) n
  store m pprev n

def hlistAddBefore (m : Mem) (n next : Nat) : Mem := hlistAdd m n (m (next + 4))

def hlistDel (m : Mem) (n : Nat) : Mem :=
  let next := m n
  let pprev := m (n + 4)
  let m := store m pprev next
  if next = 0 then m else store m (next + 4) pprev

/-- Walk the list behind the word `pprev` up to a node that satisfies `p`,
and return the word that points to it, or the last word of the list. -/
def hlistFind (m : Mem) (p : Nat → Bool) : (fuel : Nat) → (pprev : Nat) → Option Nat
  | 0, _ => none
  | fuel + 1, pprev =>
    if m pprev = 0 then some pprev
    else if p (m pprev) then some pprev
    else hlistFind m p fuel (m pprev)

/-- The addresses of the records in the list behind `loc`. -/
def listRecords (m : Mem) : (fuel : Nat) → (loc : Nat) → List Nat
  | 0, _ => []
  | fuel + 1, loc => if m loc = 0 then [] else m loc :: listRecords m fuel (m loc)

-- ---------------------------------------------------------------------------
-- Chains
-- ---------------------------------------------------------------------------

def Chain (m : Mem) (loc : Nat) : List Nat → Prop
  | [] => m loc = 0
  | a :: l => m loc = a ∧ a ≠ 0 ∧ m (a + 4) = loc ∧ Chain m a l

instance : (loc : Nat) → (l : List Nat) → Decidable (Chain m loc l)
  | loc, [] => inferInstanceAs (Decidable (m loc = 0))
  | loc, a :: l =>
    have : Decidable (Chain m a l) := instDecidableChain a l
    inferInstanceAs (Decidable (m loc = a ∧ a ≠ 0 ∧ m (a + 4) = loc ∧ Chain m a l))

/-- Two records of `w` bytes do not overlap. -/
def Apart (w a b : Nat) : Prop := a + w ≤ b ∨ b + w ≤ a

instance (w a b : Nat) : Decidable (Apart w a b) := inferInstanceAs (Decidable (_ ∨ _))

theorem Apart.symm (h : Apart w a b) : Apart w b a := Or.symm h

theorem Apart.mono (h : Apart w a b) (hw : v ≤ w) : Apart v a b := by
  unfold Apart at h ⊢
  omega

theorem Apart.ne (h : Apart w a b) (hw : 0 < w) : a ≠ b := by
  unfold Apart at h
  omega

theorem apart_or_eq {l : List Nat} (h : l.Pairwise (Apart w)) (ha : a ∈ l) (hb : b ∈ l) :
    a = b ∨ Apart w a b := by
  induction l with
  | nil => simp at ha
  | cons c l ih =>
    rw [List.pairwise_cons] at h
    cases ha with
    | head =>
      cases hb with
      | head => exact .inl rfl
      | tail _ hb => exact .inr (h.1 b hb)
    | tail _ ha =>
      cases hb with
      | head => exact .inr (h.1 a ha).symm
      | tail _ hb => exact ih h.2 ha hb

/-- The word that points behind the last node of `l`. -/
def lastLoc (loc : Nat) (l : List Nat) : Nat := l.getLastD loc

@[simp] theorem lastLoc_nil (loc : Nat) : lastLoc loc [] = loc := rfl

@[simp] theorem lastLoc_cons (loc a : Nat) (l : List Nat) : lastLoc loc (a :: l) = lastLoc a l :=
  List.getLastD_cons ..

theorem lastLoc_mem (loc : Nat) (l : List Nat) : lastLoc loc l ∈ loc :: l := by
  induction l generalizing loc with
  | nil => simp
  | cons a l ih =>
    rw [lastLoc_cons]
    exact List.mem_cons_of_mem _ (ih a)

theorem chain_append (A B : List Nat) :
    Chain m loc (A ++ B) → Chain m (lastLoc loc A) B := by
  induction A generalizing loc with
  | nil => exact id
  | cons a A ih =>
    rintro ⟨-, -, -, h⟩
    rw [lastLoc_cons]
    exact ih h

theorem Chain.next (h : Chain m loc (A ++ B)) : m (lastLoc loc A) = B.headD 0 := by
  have h := chain_append A B h
  cases B with
  | nil => exact h
  | cons b B => exact h.1

theorem Chain.pprev (h : Chain m loc (A ++ b :: B)) : m (b + 4) = lastLoc loc A :=
  (chain_append A _ h).2.2.1

theorem Chain.next_of (h : Chain m loc (A ++ b :: B)) : m b = B.headD 0 := by
  have h : Chain m loc ((A ++ [b]) ++ B) := by simpa using h
  simpa [lastLoc] using h.next

theorem Chain.ne_zero (h : Chain m loc l) (ha : a ∈ l) : a ≠ 0 := by
  obtain ⟨A, B, rfl⟩ := List.append_of_mem ha
  exact (chain_append A _ h).2.1

theorem listRecords_chain (h : Chain m loc l) (hf : l.length < fuel) :
    listRecords m fuel loc = l := by
  induction l generalizing loc fuel with
  | nil =>
    have h0 : m loc = 0 := h
    cases fuel <;> simp [listRecords, h0]
  | cons a l ih =>
    obtain ⟨ha, ha0, -, hrest⟩ := h
    cases fuel with
    | zero => simp at hf
    | succ fuel =>
      rw [listRecords, ha, if_neg ha0, ih hrest (Nat.lt_of_succ_lt_succ hf)]

theorem Chain.length_lt (h : Chain m loc l) (hap : l.Pairwise (Apart w)) (hw : 0 < w) (hn : 0 < n)
    (hlt : ∀ a ∈ l, a < n) : l.length < n := by
  have hnd : (0 :: l).Nodup :=
    List.nodup_cons.mpr ⟨fun h0 => h.ne_zero h0 rfl, hap.imp fun hab => hab.ne hw⟩
  have hsub : 0 :: l ⊆ List.range n := by
    intro a ha
    rcases List.mem_cons.mp ha with rfl | ha
    · exact List.mem_range.mpr hn
    · exact List.mem_range.mpr (hlt a ha)
  have := (List.subperm_of_subset hnd hsub).length_le
  rwa [List.length_cons, List.length_range] at this

/-- A chain is read through its nodes' two words and the word it starts at. -/
theorem Chain.frame (h : Chain m loc l) (hloc : m' loc = m loc)
    (hl : ∀ a ∈ l, m' a = m a ∧ m' (a + 4) = m (a + 4)) : Chain m' loc l := by
  induction l generalizing loc with
  | nil => exact hloc.trans h
  | cons a l ih =>
    obtain ⟨h1, h2, h3, h4⟩ := h
    rw [List.forall_mem_cons] at hl
    exact ⟨hloc.trans h1, h2, hl.1.2.trans h3, ih h4 hl.1.1 hl.2⟩

-- ---------------------------------------------------------------------------
-- Linking in and out
-- ---------------------------------------------------------------------------

theorem hlistAdd_other (m : Mem) (hn : k ≠ n) (hn4 : k ≠ n + 4) (hp : k ≠ pprev)
    (hnext : m pprev ≠ 0 → k ≠ m pprev + 4) : hlistAdd m n pprev k = m k := by
  simp only [hlistAdd]
  rw [store_ne _ _ hp]
  split
  · rw [store_ne _ _ hn, store_ne _ _ hn4]
  · rename_i h
    rw [store_ne _ _ (hnext h), store_ne _ _ hn, store_ne _ _ hn4]

theorem hlistDel_other (m : Mem) (hp : k ≠ m (n + 4)) (hnext : m n ≠ 0 → k ≠ m n + 4) :
    hlistDel m n k = m k := by
  simp only [hlistDel]
  split
  · rw [store_ne _ _ hp]
  · rename_i h
    rw [store_ne _ _ (hnext h), store_ne _ _ hp]

/-- The word that points to `B`, and the node that starts it, are among the
records of a list `A ++ B`. -/
theorem Chain.end_mem (h : Chain m loc (A ++ B)) {l : List Nat} (hA : ∀ a ∈ loc :: A, a ∈ l)
    (hB : ∀ b ∈ B, b ∈ l) :
    lastLoc loc A ∈ l ∧ (m (lastLoc loc A) ≠ 0 → m (lastLoc loc A) ∈ l) := by
  refine ⟨hA _ (lastLoc_mem loc A), ?_⟩
  rw [h.next]
  cases B with
  | nil => exact fun h => absurd rfl h
  | cons b B => exact fun _ => hB b (by simp)

/-- Linking a node in leaves what the records hold behind their links. -/
theorem Chain.add_payload (h : Chain m loc (A ++ B))
    (hap : (loc :: (A ++ n :: B)).Pairwise (Apart w)) (hr : r ∈ loc :: (A ++ n :: B)) (hi : 8 ≤ i)
    (hw : i < w) : hlistAdd m n (lastLoc loc A) (r + i) = m (r + i) := by
  obtain ⟨hp, hnext⟩ := h.end_mem (l := loc :: (A ++ n :: B))
    (fun a ha => by simp only [List.mem_cons, List.mem_append] at ha ⊢; tauto)
    (fun b hb => by simp [hb])
  have hn := apart_or_eq hap hr (b := n) (by simp)
  have hp := apart_or_eq hap hr hp
  have hnext := fun h0 => apart_or_eq hap hr (hnext h0)
  simp only [Apart] at hn hp hnext
  exact hlistAdd_other m (by omega) (by omega) (by omega) (by omega)

theorem Chain.del_payload (h : Chain m loc (A ++ n :: B))
    (hap : (loc :: (A ++ n :: B)).Pairwise (Apart w)) (hr : r ∈ loc :: (A ++ n :: B)) (hi : 8 ≤ i)
    (hw : i < w) : hlistDel m n (r + i) = m (r + i) := by
  have hmem : lastLoc loc A ∈ loc :: (A ++ n :: B) := by
    have := lastLoc_mem loc A
    simp only [List.mem_cons, List.mem_append] at this ⊢
    tauto
  have hp := apart_or_eq hap hr hmem
  have hnext : m n ≠ 0 → r = m n ∨ Apart w r (m n) := by
    rw [h.next_of]
    cases B with
    | nil => exact fun h => absurd rfl h
    | cons b B => exact fun _ => apart_or_eq hap hr (by simp)
  simp only [Apart] at hp hnext
  exact hlistDel_other m (by rw [h.pprev]; omega) (by omega)

theorem Chain.add (h : Chain m loc (A ++ B)) (hn : n ≠ 0)
    (hap : (loc :: (A ++ n :: B)).Pairwise (Apart 8)) :
    Chain (hlistAdd m n (lastLoc loc A)) loc (A ++ n :: B) := by
  induction A generalizing loc with
  | nil =>
    simp only [List.nil_append, List.pairwise_cons, List.forall_mem_cons, lastLoc_nil,
      Apart] at h hap ⊢
    obtain ⟨⟨hln, hlB⟩, hnB, hB⟩ := hap
    cases B with
    | nil =>
      have h0 : m loc = 0 := h
      refine ⟨by simp [hlistAdd], hn, ?_, ?_⟩
      · simp only [hlistAdd, h0, if_true]
        rw [store_ne _ _ (by omega), store_ne _ _ (by omega), store_same]
      · show hlistAdd m n loc n = 0
        simp only [hlistAdd, h0, if_true]
        rw [store_ne _ _ (by omega), store_same]
    | cons b B =>
      obtain ⟨hb, hb0, hbp, hrest⟩ := h
      rw [List.forall_mem_cons] at hlB hnB
      rw [List.pairwise_cons] at hB
      refine ⟨by simp [hlistAdd], hn, ?_, ?_, hb0, ?_, ?_⟩
      · simp only [hlistAdd, hb, if_neg hb0]
        rw [store_ne _ _ (by omega), store_ne _ _ (by omega), store_ne _ _ (by omega), store_same]
      · simp only [hlistAdd, hb, if_neg hb0]
        rw [store_ne _ _ (by omega), store_ne _ _ (by omega), store_same]
      · simp only [hlistAdd, hb, if_neg hb0]
        rw [store_ne _ _ (by omega), store_same]
      · have keep : ∀ k, k ≠ n → k ≠ n + 4 → k ≠ loc → k ≠ b + 4 → hlistAdd m n loc k = m k :=
          fun k h1 h2 h3 h4 => hlistAdd_other m h1 h2 h3 fun _ => by rw [hb]; exact h4
        refine hrest.frame (keep b ?_ ?_ ?_ ?_) fun c hc => ?_
        · omega
        · omega
        · omega
        · omega
        · have := hlB.2 c hc
          have := hnB.2 c hc
          have := hB.1 c hc
          simp only [Apart] at this
          exact ⟨keep c (by omega) (by omega) (by omega) (by omega),
            keep (c + 4) (by omega) (by omega) (by omega) (by omega)⟩
  | cons a A ih =>
    obtain ⟨ha, ha0, hap', hrest⟩ := h
    rw [List.cons_append, List.pairwise_cons, List.forall_mem_cons] at hap
    obtain ⟨⟨hla, hl⟩, hap⟩ := hap
    have hnext := hrest.next
    rw [lastLoc_cons]
    -- the words written belong to nodes behind `loc`, and not to the word `a + 4`
    have hloc : lastLoc a A = a ∨ Apart 8 loc (lastLoc a A) ∧ Apart 8 a (lastLoc a A) := by
      rcases List.mem_cons.mp (lastLoc_mem a A) with h | h
      · exact .inl h
      · exact .inr ⟨hl _ (by simp [h]), (List.pairwise_cons.mp hap).1 _ (by simp [h])⟩
    have hn8 : Apart 8 loc n ∧ Apart 8 a n :=
      ⟨hl n (by simp), (List.pairwise_cons.mp hap).1 n (by simp)⟩
    have hB : m (lastLoc a A) ≠ 0 → Apart 8 loc (m (lastLoc a A)) ∧
      Apart 8 a (m (lastLoc a A)) := by
      rw [hnext]
      cases B with
      | nil => simp
      | cons b B =>
        exact fun _ => ⟨hl b (by simp), (List.pairwise_cons.mp hap).1 b (by simp)⟩
    simp only [Apart] at hla hloc hn8 hB
    refine ⟨?_, ha0, ?_, ih hrest hap⟩
    · rw [hlistAdd_other m (by omega) (by omega) (by omega) (by omega), ha]
    · rw [hlistAdd_other m (by omega) (by omega) (by omega) (by omega), hap']

theorem Chain.del (h : Chain m loc (A ++ n :: B))
    (hap : (loc :: (A ++ n :: B)).Pairwise (Apart 8)) : Chain (hlistDel m n) loc (A ++ B) := by
  have hpprev : m (n + 4) = lastLoc loc A := h.pprev
  have hnext : m n = B.headD 0 := h.next_of
  induction A generalizing loc with
  | nil =>
    obtain ⟨hln, hn0, hnp, hrest⟩ := h
    simp only [List.nil_append, List.pairwise_cons, List.forall_mem_cons, Apart] at hap ⊢
    obtain ⟨⟨hln8, hlB⟩, hnB, hB⟩ := hap
    cases B with
    | nil =>
      have h0 : m n = 0 := hrest
      show hlistDel m n loc = 0
      simp [hlistDel, h0, hnp]
    | cons b B =>
      obtain ⟨hb, hb0, hbp, hrest⟩ := hrest
      rw [List.forall_mem_cons] at hlB hnB
      rw [List.pairwise_cons] at hB
      refine ⟨?_, hb0, ?_, ?_⟩
      · simp only [hlistDel, hb, if_neg hb0, hnp]
        rw [store_ne _ _ (by omega), store_same]
      · simp only [hlistDel, hb, if_neg hb0, hnp, store_same]
      · have keep : ∀ k, k ≠ loc → k ≠ b + 4 → hlistDel m n k = m k := fun k h1 h2 =>
          hlistDel_other m (by rw [hnp]; exact h1) fun _ => by rw [hb]; exact h2
        refine hrest.frame (keep b ?_ ?_) fun c hc => ?_
        · omega
        · omega
        · have := hlB.2 c hc
          have := hB.1 c hc
          simp only [Apart] at this
          exact ⟨keep c (by omega) (by omega), keep (c + 4) (by omega) (by omega)⟩
  | cons a A ih =>
    obtain ⟨ha, ha0, hap', hrest⟩ := h
    rw [List.cons_append, List.pairwise_cons, List.forall_mem_cons] at hap
    obtain ⟨⟨hla, hl⟩, hap⟩ := hap
    rw [lastLoc_cons] at hpprev
    have hloc : lastLoc a A = a ∨ Apart 8 loc (lastLoc a A) ∧ Apart 8 a (lastLoc a A) := by
      rcases List.mem_cons.mp (lastLoc_mem a A) with h | h
      · exact .inl h
      · exact .inr ⟨hl _ (by simp [h]), (List.pairwise_cons.mp hap).1 _ (by simp [h])⟩
    have hB : m n ≠ 0 → Apart 8 loc (m n) ∧ Apart 8 a (m n) := by
      rw [hnext]
      cases B with
      | nil => simp
      | cons b B =>
        exact fun _ => ⟨hl b (by simp), (List.pairwise_cons.mp hap).1 b (by simp)⟩
    simp only [Apart] at hla hloc hB
    refine ⟨?_, ha0, ?_, ih hrest hap hpprev⟩
    · rw [hlistDel_other m (by omega) (by omega), ha]
    · rw [hlistDel_other m (by omega) (by omega), hap']

/-- The walk stops at the first node that satisfies `p`, or at the end. -/
theorem Chain.find (h : Chain m loc (A ++ B)) (hA : ∀ a ∈ A, p a = false)
    (hB : ∀ b ∈ B.head?, p b = true) (hf : A.length < fuel) :
    hlistFind m p fuel loc = some (lastLoc loc A) := by
  induction A generalizing loc fuel with
  | nil =>
    cases fuel with
    | zero => simp at hf
    | succ fuel =>
      cases B with
      | nil =>
        have h0 : m loc = 0 := h
        simp [hlistFind, h0]
      | cons b B =>
        obtain ⟨hb, hb0, -, -⟩ := h
        simp [hlistFind, hb, hB b rfl]
  | cons a A ih =>
    obtain ⟨ha, ha0, -, hrest⟩ := h
    rw [List.forall_mem_cons] at hA
    cases fuel with
    | zero => simp at hf
    | succ fuel =>
      rw [hlistFind, ha, if_neg ha0, hA.1, if_neg (by simp), lastLoc_cons]
      exact ih hrest hA.2 (Nat.lt_of_succ_lt_succ hf)

theorem hlistFind_sat (h : hlistFind m p fuel loc = some loc') (h0 : m loc' ≠ 0) :
    p (m loc') = true := by
  induction fuel generalizing loc with
  | zero => cases h
  | succ fuel ih =>
    simp only [hlistFind] at h
    split at h
    · cases h
      contradiction
    · split at h
      · cases h
        assumption
      · exact ih h

end ItxLlama.Lib.Hlist

/-!
## Circular lists in word memory

The nodes of a doubly linked list whose last node points back to the first.
There is no end and no head: the list can be read from each of its nodes.
`Circle m a l` reads it from `a` on, and `l` are the nodes behind `a`.
-/

namespace ItxLlama.Lib.Hlist

/-- The word at `loc` starts the nodes `l`, and the last of them points to
`stop`. -/
def Loop (m : Mem) (stop loc : Nat) : List Nat → Prop
  | [] => m loc = stop ∧ m (stop + 4) = loc
  | a :: l => m loc = a ∧ m (a + 4) = loc ∧ Loop m stop a l

def Circle (m : Mem) (a : Nat) (l : List Nat) : Prop := Loop m a a l

section Circle

variable {m m' : Mem} {stop loc a b n : Nat} {l A B : List Nat}

theorem Loop.frame (h : Loop m stop loc l) (hloc : m' loc = m loc)
    (hstop : m' (stop + 4) = m (stop + 4))
    (hl : ∀ a ∈ l, m' a = m a ∧ m' (a + 4) = m (a + 4)) : Loop m' stop loc l := by
  induction l generalizing loc with
  | nil => exact ⟨hloc.trans h.1, hstop.trans h.2⟩
  | cons a l ih =>
    obtain ⟨h₁, h₂, h₃⟩ := h
    rw [List.forall_mem_cons] at hl
    exact ⟨hloc.trans h₁, hl.1.2.trans h₂, ih h₃ hl.1.1 hl.2⟩

theorem Circle.frame (h : Circle m a l)
    (hl : ∀ c ∈ a :: l, m' c = m c ∧ m' (c + 4) = m (c + 4)) : Circle m' a l := by
  rw [List.forall_mem_cons] at hl
  exact Loop.frame h hl.1.1 hl.1.2 hl.2

theorem Circle.next (h : Circle m a l) : m a = l.headD a := by
  cases l with
  | nil => exact h.1
  | cons b l => exact h.1

theorem Loop.snoc (h : Loop m stop loc l) (hs : m stop = b) (hb : m (b + 4) = stop) :
    Loop m b loc (l ++ [stop]) := by
  induction l generalizing loc with
  | nil => exact ⟨h.1, h.2, hs, hb⟩
  | cons a l ih =>
    obtain ⟨h₁, h₂, h₃⟩ := h
    exact ⟨h₁, h₂, ih h₃⟩

theorem Circle.rotate (h : Circle m a (b :: l)) : Circle m b (l ++ [a]) :=
  Loop.snoc h.2.2 h.1 h.2.1

theorem Circle.read_from (h : Circle m a (A ++ b :: B)) : Circle m b (B ++ a :: A) := by
  induction A generalizing a B with
  | nil => exact Circle.rotate h
  | cons c A ih =>
    have h : Circle m c (A ++ b :: (B ++ [a])) := by
      simpa using Circle.rotate h
    simpa using ih h

theorem Circle.add (h : Circle m a l) (hap : (a :: n :: l).Pairwise (Apart 8))
    (h0 : ∀ c ∈ a :: l, c ≠ 0) : Circle (hlistAdd m n a) a (n :: l) := by
  simp only [List.pairwise_cons, List.forall_mem_cons, Apart] at hap
  obtain ⟨⟨han, hal⟩, hnl, hl⟩ := hap
  rw [List.forall_mem_cons] at h0
  cases l with
  | nil =>
    have hnext : m a = a := h.1
    refine ⟨by simp [hlistAdd], ?_, ?_, ?_⟩
    · simp only [hlistAdd, hnext, if_neg h0.1]
      rw [store_ne _ _ (by omega), store_ne _ _ (by omega), store_ne _ _ (by omega), store_same]
    · simp only [hlistAdd, hnext, if_neg h0.1]
      rw [store_ne _ _ (by omega), store_ne _ _ (by omega), store_same]
    · simp only [hlistAdd, hnext, if_neg h0.1]
      rw [store_ne _ _ (by omega), store_same]
  | cons b l =>
    obtain ⟨hb, hbp, hrest⟩ := h
    rw [List.forall_mem_cons] at hal hnl
    rw [List.forall_mem_cons] at h0
    rw [List.pairwise_cons] at hl
    have hb0 := h0.2.1
    refine ⟨by simp [hlistAdd], ?_, ?_, ?_, ?_⟩
    · simp only [hlistAdd, hb, if_neg hb0]
      rw [store_ne _ _ (by omega), store_ne _ _ (by omega), store_ne _ _ (by omega), store_same]
    · simp only [hlistAdd, hb, if_neg hb0]
      rw [store_ne _ _ (by omega), store_ne _ _ (by omega), store_same]
    · simp only [hlistAdd, hb, if_neg hb0]
      rw [store_ne _ _ (by omega), store_same]
    · have keep : ∀ k, k ≠ n → k ≠ n + 4 → k ≠ a → k ≠ b + 4 → hlistAdd m n a k = m k :=
        fun k h1 h2 h3 h4 => hlistAdd_other m h1 h2 h3 fun _ => by rw [hb]; exact h4
      refine hrest.frame (keep b ?_ ?_ ?_ ?_) (keep (a + 4) ?_ ?_ ?_ ?_) fun c hc => ?_
      any_goals omega
      have := hal.2 c hc
      have := hnl.2 c hc
      have := hl.1 c hc
      simp only [Apart] at this
      exact ⟨keep c (by omega) (by omega) (by omega) (by omega),
        keep (c + 4) (by omega) (by omega) (by omega) (by omega)⟩

theorem Loop.last_next (h : Loop m stop loc (l ++ [n])) : m n = stop := by
  induction l generalizing loc with
  | nil => exact h.2.2.1
  | cons a l ih => exact ih h.2.2

theorem Loop.last_pprev (h : Loop m stop loc (l ++ [n])) : m (n + 4) ∈ loc :: l := by
  induction l generalizing loc with
  | nil => simpa using h.2.1
  | cons a l ih => exact List.mem_cons_of_mem _ (ih h.2.2)

theorem Loop.del_last (h : Loop m stop loc (l ++ [n])) (hs0 : stop ≠ 0)
    (hloc : loc = stop ∨ Apart 8 loc stop)
    (hap : (n :: loc :: l).Pairwise (Apart 8)) (hstop : ∀ c ∈ n :: l, Apart 8 stop c) :
    Loop (hlistDel m n) stop loc l := by
  have hnext : m n = stop := h.last_next
  induction l generalizing loc with
  | nil =>
    obtain ⟨h₁, h₂, h₃, h₄⟩ := h
    simp only [List.pairwise_cons, List.forall_mem_cons, Apart] at hap hstop hloc
    simp only [hlistDel, h₂, h₃, if_neg hs0]
    exact ⟨by rw [store_ne _ _ (by omega), store_same], store_same ..⟩
  | cons a l ih =>
    obtain ⟨h₁, h₂, h₃⟩ := h
    have hap' : (n :: a :: l).Pairwise (Apart 8) := by
      simp only [List.pairwise_cons, List.forall_mem_cons] at hap ⊢
      exact ⟨hap.1.2, hap.2.2⟩
    have hstop' : ∀ c ∈ n :: l, Apart 8 stop c := by
      simp only [List.forall_mem_cons] at hstop ⊢
      exact ⟨hstop.1, hstop.2.2⟩
    have hrest := ih h₃ (.inr ((List.forall_mem_cons.mp (List.forall_mem_cons.mp hstop).2).1.symm))
      hap' hstop'
    have hpprev : m (n + 4) ∈ a :: l := Loop.last_pprev h₃
    simp only [List.pairwise_cons, List.forall_mem_cons] at hap hstop
    obtain ⟨⟨hnloc, hna, hnl⟩, ⟨hloca, hlocl⟩, hal, -⟩ := hap
    obtain ⟨hsn, hsa, hsl⟩ := hstop
    have hlocp : Apart 8 loc (m (n + 4)) := by
      rcases List.mem_cons.mp hpprev with hp | hp
      · rw [hp]; exact hloca
      · exact hlocl _ hp
    have hap4 : m (n + 4) = a ∨ Apart 8 a (m (n + 4)) := by
      rcases List.mem_cons.mp hpprev with hp | hp
      · exact .inl hp
      · exact .inr (hal _ hp)
    simp only [Apart] at hlocp hap4 hsa hloca hloc
    refine ⟨?_, ?_, hrest⟩
    · rw [hlistDel_other m (by omega) (by rw [hnext]; omega), h₁]
    · rw [hlistDel_other m (by omega) (by rw [hnext]; omega), h₂]

theorem Circle.del_last (h : Circle m a (l ++ [n])) (ha0 : a ≠ 0)
    (hap : (n :: a :: l).Pairwise (Apart 8)) : Circle (hlistDel m n) a l := by
  refine Loop.del_last h ha0 (.inl rfl) hap ?_
  simp only [List.pairwise_cons, List.forall_mem_cons] at hap ⊢
  exact ⟨hap.1.1.symm, hap.2.1⟩

end Circle

end ItxLlama.Lib.Hlist
