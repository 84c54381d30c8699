import ItxLlama.Seabios.Threads
import Mathlib.Data.List.Rotate

/-!
# The ring of threads

In every state that the machine can reach, the list read from the running
thread on is a circle of the main thread and the threads that were created
and not reaped, each exactly once.
-/

namespace ItxLlama.Seabios

open Lib.Word Lib.Hlist

section Ring

variable (main : Nat)

/-- The thread that runs, or the one whose end is being handled. -/
def active (s : Threads) : Nat :=
  match s.ending with
  | none => getCurThread main s.esp
  | some (old, _) => old

/-- Where a `thread_info` can be. -/
def IsThread (t : Nat) : Prop := t = main ∨ threadStackSize ∣ t ∧ mainStackMax ≤ t

/-- The invariant, with the threads behind the active one in the order in
which they will run. -/
structure ThreadsOk (s : Threads) (others : List Nat) : Prop where
  circle : Circle s.mem (active main s + 4) (others.map (· + 4))
  nodup : (active main s :: others).Nodup
  main_mem : main ∈ active main s :: others
  threads : ∀ t ∈ active main s :: others, IsThread main t
  allocated : ∀ t, t ∈ s.allocated ↔ t ∈ active main s :: others ∧ t ≠ main
  allocated_nodup : s.allocated.Nodup
  live : ∀ t, t ∈ s.live ↔ t ∈ s.allocated ∧ ∀ e ∈ s.ending, t ≠ e.1
  live_nodup : s.live.Nodup
  saved : ∀ t ∈ others, OnStack main t (s.mem t + 8)
  current : s.ending = none → OnStack main (active main s) s.esp
  leaving : ∀ e ∈ s.ending, e.1 ≠ main ∧ e.2 = s.mem (e.1 + 4) ∧ s.esp = s.mem main
  held : ∀ t mutex, s.holds t mutex = true → s.isLocked mutex = true
  exclusive : ∀ t t' mutex, s.holds t mutex = true → s.holds t' mutex = true → t = t'

variable {main} {s : Threads} {others : List Nat}

theorem active_none (h : s.ending = none) : active main s = getCurThread main s.esp := by
  simp [active, h]

theorem active_some {e : Nat × Nat} (h : s.ending = some e) : active main s = e.1 := by
  simp [active, h]

theorem getCurThread_eq (ht : IsThread main t) (he : OnStack main t esp) :
    getCurThread main esp = t := by
  unfold OnStack at he
  unfold getCurThread
  split at he
  · subst t
    rw [if_pos he.2]
  · rcases ht with ht | ⟨⟨k, rfl⟩, hmax⟩
    · contradiction
    · simp only [threadStackSize] at he hmax ⊢
      rw [if_neg (by omega)]
      unfold alignDown
      omega

theorem OnStack.esp_ge (h : OnStack main t esp) : 8 ≤ esp := by
  unfold OnStack at h
  split at h <;> omega

theorem thread_apart (hmain : main + 12 ≤ mainStackMax) (ht : IsThread main t)
    (ht' : IsThread main t') (hne : t ≠ t') : Apart 12 t t' := by
  unfold Apart
  rcases ht with rfl | ⟨⟨k, rfl⟩, hk⟩
  · rcases ht' with rfl | ⟨-, hk'⟩
    · contradiction
    · omega
  · rcases ht' with rfl | ⟨⟨k', rfl⟩, hk'⟩
    · omega
    · simp only [threadStackSize] at hne ⊢
      omega

theorem ThreadsOk.pairwise (h : ThreadsOk main s others) (hmain : main + 12 ≤ mainStackMax) :
    (active main s :: others).Pairwise (Apart 12) :=
  h.nodup.imp_of_mem fun ht ht' hne => thread_apart hmain (h.threads _ ht) (h.threads _ ht') hne

theorem nodes_pairwise {ts : List Nat} (h : ts.Pairwise (Apart 12)) :
    (ts.map (· + 4)).Pairwise (Apart 8) := by
  rw [List.pairwise_map]
  refine h.imp fun {a b} hab => ?_
  unfold Apart at hab ⊢
  omega

theorem circle_stackpos {m : Mem} {ts : List Nat} (hc : Circle m (a + 4) (ts.map (· + 4)))
    (hap : ∀ t ∈ a :: ts, t = b ∨ Apart 12 t b) (v : Nat) :
    Circle (store m b v) (a + 4) (ts.map (· + 4)) := by
  refine hc.frame fun c hcm => ?_
  have hcm : c ∈ (a :: ts).map (· + 4) := hcm
  obtain ⟨t, ht, rfl⟩ := List.mem_map.mp hcm
  have := hap t ht
  unfold Apart at this
  exact ⟨store_ne _ _ (by omega), store_ne _ _ (by omega)⟩

theorem ThreadsOk.isThread (h : ThreadsOk main s others) : IsThread main (active main s) :=
  h.threads _ (by simp)

-- ---------------------------------------------------------------------------
-- Switching
-- ---------------------------------------------------------------------------

theorem switchNext_alone (h : ThreadsOk main s []) (he : s.ending = none) :
    switchNext main s = s := by
  have hn := h.circle.next
  rw [active_none he] at hn
  simp only [List.map_nil, List.headD_nil] at hn
  simp only [switchNext, hn, Nat.add_sub_cancel, if_true]

theorem switchNext_eq (h : ThreadsOk main s (n :: others)) (he : s.ending = none) :
    switchNext main s =
      { s with
        mem := store s.mem (active main s) (s.esp - 8)
        esp := s.mem n + 8 } := by
  have hcur : active main s = getCurThread main s.esp := active_none he
  have hn := h.circle.next
  have hne : active main s ≠ n := by
    have := h.nodup
    simp only [List.nodup_cons, List.mem_cons, not_or] at this
    exact this.1.1
  simp only [List.map_cons, List.headD_cons, hcur] at hn
  rw [hcur] at hne
  simp only [switchNext, hn, Nat.add_sub_cancel, if_neg hne, hcur]
  rw [store_ne _ _ (Ne.symm hne)]

/-- A switch saves the running thread's stack, runs the next thread where it
left off, and moves the first one behind all others. -/
theorem switchNext_spec (hmain : main + 12 ≤ mainStackMax) (h : ThreadsOk main s (n :: others))
    (he : s.ending = none) :
    active main (switchNext main s) = n ∧
      ThreadsOk main (switchNext main s) (others ++ [active main s]) := by
  have heq := switchNext_eq h he
  have he' : (switchNext main s).ending = none := by rw [heq]; exact he
  have hact : active main (switchNext main s) = n := by
    rw [active_none he', heq]
    exact getCurThread_eq (h.threads n (by simp)) (h.saved n (by simp))
  have hperm : ∀ t, t ∈ n :: (others ++ [active main s]) ↔ t ∈ active main s :: n :: others := by
    intro t
    simp only [List.mem_cons, List.mem_append, List.not_mem_nil, or_false]
    tauto
  have hap := h.pairwise hmain
  refine ⟨hact, ?_⟩
  constructor
  · rw [hact, heq]
    have hc := circle_stackpos (b := active main s) h.circle
      (fun t ht => apart_or_eq hap ht (by simp)) (s.esp - 8)
    have := Circle.rotate hc
    simpa using this
  · rw [hact]
    have hrot : (n :: others ++ [active main s]).Perm ([active main s] ++ n :: others) :=
      List.perm_append_comm
    exact hrot.nodup_iff.mpr h.nodup
  · rw [hact, hperm]
    exact h.main_mem
  · rw [hact]
    intro t ht
    exact h.threads t ((hperm t).mp ht)
  · rw [hact, heq]
    intro t
    rw [hperm]
    exact h.allocated t
  · rw [heq]
    exact h.allocated_nodup
  · rw [heq]
    exact h.live
  · rw [heq]
    exact h.live_nodup
  · intro t ht
    rw [heq]
    rcases List.mem_append.mp ht with ht | ht
    · have hne : t ≠ active main s := by
        rintro rfl
        exact (List.nodup_cons.mp h.nodup).1 (List.mem_cons_of_mem _ ht)
      show OnStack main t (store s.mem (active main s) (s.esp - 8) t + 8)
      rw [store_ne _ _ hne]
      exact h.saved t (List.mem_cons_of_mem _ ht)
    · obtain rfl := List.mem_singleton.mp ht
      show OnStack main _ (store s.mem (active main s) (s.esp - 8) (active main s) + 8)
      have hon := h.current he
      rw [store_same, Nat.sub_add_cancel hon.esp_ge]
      exact hon
  · intro _
    rw [hact, heq]
    exact h.saved n (by simp)
  · rw [he']
    intro e hem
    cases hem
  · rw [heq]
    exact h.held
  · rw [heq]
    exact h.exclusive

-- ---------------------------------------------------------------------------
-- Starting and ending a thread
-- ---------------------------------------------------------------------------

/-- The words that an insertion behind `a` or the removal of a node changes
are words of list nodes, not the `stackpos` of a thread. -/
theorem stackpos_ne (h : t = u ∨ Apart 12 t u) : t ≠ u + 4 ∧ t ≠ u + 8 := by
  unfold Apart at h
  omega

/-- A fresh stack is not in the ring, and its `thread_info` is apart from those that are. -/
structure Outside (main : Nat) (s : Threads) (others : List Nat) (t : Nat) : Prop where
  isThread : IsThread main t
  ne_main : t ≠ main
  notMem : t ∉ active main s :: others
  apart : ∀ u ∈ active main s :: others, Apart 12 t u

theorem ThreadsOk.outside (h : ThreadsOk main s others) (hmain : main + 12 ≤ mainStackMax)
    (hf : FreshStack s t) : Outside main s others t := by
  obtain ⟨h4096, hmax, hfree⟩ := hf
  have hne : t ≠ main := by omega
  have hthread : IsThread main t := .inr ⟨h4096, hmax⟩
  have hnot : t ∉ active main s :: others := fun hm => hfree ((h.allocated t).mpr ⟨hm, hne⟩)
  refine ⟨hthread, hne, hnot, fun u hu => ?_⟩
  exact thread_apart hmain hthread (h.threads u hu) fun heq => hnot (heq ▸ hu)

/-- The node of a thread is put behind the running one's: no saved stack pointer changes. -/
theorem hlistAdd_stackpos {m : Mem} {a t : Nat} (hc : Circle m (a + 4) (others.map (· + 4)))
    (hap : (a :: t :: others).Pairwise (Apart 12)) (hu : u ∈ a :: t :: others) :
    hlistAdd m (t + 4) (a + 4) u = m u := by
  have hnode (v : Nat) (hv : v ∈ a :: t :: others) : u = v ∨ Apart 12 u v := apart_or_eq hap hu hv
  have hnext : m (a + 4) ∈ (a :: others).map (· + 4) := by
    rw [hc.next]
    cases others with
    | nil => simp
    | cons v others => simp
  obtain ⟨v, hv, hv'⟩ := List.mem_map.mp hnext
  have hvin : v ∈ a :: t :: others := by
    rcases List.mem_cons.mp hv with rfl | hv
    · exact List.mem_cons_self
    · exact List.mem_cons_of_mem _ (List.mem_cons_of_mem _ hv)
  refine hlistAdd_other _ (stackpos_ne (hnode t (by simp))).1 (stackpos_ne (hnode t (by simp))).2
    (stackpos_ne (hnode a (by simp))).1 fun _ => ?_
  rw [← hv']
  exact (stackpos_ne (hnode v hvin)).2

/-- The memory once a thread has been started: its stack's end is saved, its node is behind the
running thread's, whose stack pointer is saved too. -/
structure Started (main : Nat) (s : Threads) (others : List Nat) (t : Nat) (m : Mem) : Prop where
  circle : Circle m (active main s + 4) ((t :: others).map (· + 4))
  fresh : m t = t + threadStackSize
  current : m (active main s) = s.esp - 8
  kept : ∀ u ∈ others, m u = s.mem u

theorem runThread_eq (hmain : main + 12 ≤ mainStackMax) (h : ThreadsOk main s others)
    (he : s.ending = none) (hout : Outside main s others t) :
    ∃ m, Started main s others t m ∧ runThread main s (some t) =
      { s with
        mem := m
        esp := t + threadStackSize - 4
        allocated := t :: s.allocated
        live := t :: s.live
        waits := Function.update s.waits t .running } := by
  have hap := h.pairwise hmain
  have hall : (active main s :: t :: others).Pairwise (Apart 12) := by
    have hapt := hout.apart
    simp only [List.pairwise_cons, List.forall_mem_cons] at hap hapt ⊢
    exact ⟨⟨hapt.1.symm, hap.1⟩, hapt.2, hap.2⟩
  have hne {u : Nat} (hu : u ∈ active main s :: others) : u ≠ t := by
    rintro rfl
    exact hout.notMem hu
  -- the new thread's stack is saved, its node linked in, the old stack saved
  obtain ⟨m₁, hm₁⟩ : ∃ m₁, m₁ = store s.mem t (t + threadStackSize) := ⟨_, rfl⟩
  obtain ⟨m₂, hm₂⟩ : ∃ m₂, m₂ = hlistAdd m₁ (t + 4) (active main s + 4) := ⟨_, rfl⟩
  obtain ⟨m₃, hm₃⟩ : ∃ m₃, m₃ = store m₂ (active main s) (s.esp - 8) := ⟨_, rfl⟩
  have hc₁ : Circle m₁ (active main s + 4) (others.map (· + 4)) := by
    rw [hm₁]
    exact circle_stackpos h.circle (fun u hu => .inr (hout.apart u hu).symm) _
  have hc₂ : Circle m₂ (active main s + 4) ((t :: others).map (· + 4)) := by
    rw [hm₂]
    refine hc₁.add (nodes_pairwise hall) fun c hc => ?_
    have hc : c ∈ (active main s :: others).map (· + 4) := hc
    obtain ⟨u, -, rfl⟩ := List.mem_map.mp hc
    exact Nat.succ_ne_zero _
  have hkeep {u : Nat} (hu : u ∈ active main s :: t :: others) : m₂ u = m₁ u := by
    rw [hm₂]
    exact hlistAdd_stackpos hc₁ hall hu
  have hfresh : m₃ t = t + threadStackSize := by
    rw [hm₃, store_ne _ _ (hne List.mem_cons_self).symm, hkeep (by simp), hm₁, store_same]
  refine ⟨m₃, ⟨?_, hfresh, ?_, fun u hu => ?_⟩, ?_⟩
  · rw [hm₃]
    exact circle_stackpos hc₂ (fun u hu => apart_or_eq hall hu List.mem_cons_self) _
  · rw [hm₃, store_same]
  · have hua : u ≠ active main s := by
      rintro rfl
      exact (List.nodup_cons.mp h.nodup).1 hu
    have hin : u ∈ active main s :: others := List.mem_cons_of_mem _ hu
    rw [hm₃, store_ne _ _ hua, hkeep (by simp [hu]), hm₁, store_ne _ _ (hne hin)]
  · have hcur : active main s = getCurThread main s.esp := active_none he
    rw [← hfresh, hm₃, hm₂, hm₁, hcur]
    rfl

/-- A new thread runs at once, and the one that started it is behind all others. -/
theorem runThread_spec (hmain : main + 12 ≤ mainStackMax) (h : ThreadsOk main s others)
    (he : s.ending = none) (hf : FreshStack s t) :
    active main (runThread main s (some t)) = t ∧
      ThreadsOk main (runThread main s (some t)) (others ++ [active main s]) := by
  have hout := h.outside hmain hf
  have hfree := hf.2.2
  obtain ⟨m, hm, hrun⟩ := runThread_eq hmain h he hout
  have hstack : OnStack main t (t + threadStackSize - 4) := by
    simp only [OnStack, if_neg hout.ne_main, threadStackSize]
    omega
  have he' : (runThread main s (some t)).ending = none := by rw [hrun]; exact he
  have hact : active main (runThread main s (some t)) = t := by
    rw [active_none he', hrun]
    exact getCurThread_eq hout.isThread hstack
  have hperm : ∀ u, u ∈ t :: (others ++ [active main s]) ↔ u = t ∨ u ∈ active main s :: others := by
    intro u
    simp only [List.mem_cons, List.mem_append, List.not_mem_nil, or_false]
    tauto
  refine ⟨hact, ?_⟩
  constructor
  · rw [hact, hrun]
    simpa using Circle.rotate hm.circle
  · rw [hact]
    have hrot : (others ++ [active main s]).Perm ([active main s] ++ others) :=
      List.perm_append_comm
    exact (hrot.cons t).nodup_iff.mpr (List.nodup_cons.mpr ⟨hout.notMem, h.nodup⟩)
  · rw [hact, hperm]
    exact .inr h.main_mem
  · rw [hact]
    intro u hu
    rcases (hperm u).mp hu with rfl | hu
    · exact hout.isThread
    · exact h.threads u hu
  · rw [hact, hrun]
    intro u
    rw [hperm, List.mem_cons, h.allocated u]
    constructor
    · rintro (rfl | ⟨hu, hum⟩)
      · exact ⟨.inl rfl, hout.ne_main⟩
      · exact ⟨.inr hu, hum⟩
    · rintro ⟨rfl | hu, hum⟩
      · exact .inl rfl
      · exact .inr ⟨hu, hum⟩
  · rw [hrun]
    exact List.nodup_cons.mpr ⟨hfree, h.allocated_nodup⟩
  · rw [hrun]
    intro u
    show u ∈ t :: s.live ↔ u ∈ t :: s.allocated ∧ ∀ e ∈ s.ending, u ≠ e.1
    have hl := h.live u
    simp only [he, Option.not_mem_none, false_implies, implies_true, and_true] at hl ⊢
    rw [List.mem_cons, List.mem_cons, hl]
  · rw [hrun]
    exact List.nodup_cons.mpr ⟨fun hl => hfree ((h.live t).mp hl).1, h.live_nodup⟩
  · intro u hu
    rw [hrun]
    show OnStack main u (m u + 8)
    rcases List.mem_append.mp hu with hu | hu
    · rw [hm.kept u hu]
      exact h.saved u hu
    · obtain rfl := List.mem_singleton.mp hu
      have hon := h.current he
      rw [hm.current, Nat.sub_add_cancel hon.esp_ge]
      exact hon
  · intro _
    rw [hact, hrun]
    exact hstack
  · rw [he']
    intro e hem
    cases hem
  · rw [hrun]
    exact h.held
  · rw [hrun]
    exact h.exclusive

theorem leaveThread_spec (h : ThreadsOk main s others) (he : s.ending = none)
    (hne : getCurThread main s.esp ≠ main) :
    ThreadsOk main (leaveThread main s) others := by
  have hcur : active main s = getCurThread main s.esp := active_none he
  have hact : active main (leaveThread main s) = active main s := by
    rw [active_some rfl, hcur]
  constructor
  · rw [hact]
    exact h.circle
  · rw [hact]
    exact h.nodup
  · rw [hact]
    exact h.main_mem
  · rw [hact]
    exact h.threads
  · rw [hact]
    exact h.allocated
  · exact h.allocated_nodup
  · intro t
    show t ∈ s.live.erase (getCurThread main s.esp) ↔ _
    rw [h.live_nodup.mem_erase_iff, h.live t]
    simp only [he, leaveThread, Option.mem_some_iff, forall_eq', Option.not_mem_none,
      false_implies, implies_true, and_true]
    tauto
  · exact h.live_nodup.erase _
  · exact h.saved
  · intro hnone
    cases hnone
  · intro e hem
    obtain rfl := Option.mem_some_iff.mp hem
    exact ⟨hne, rfl, rfl⟩
  · exact h.held
  · exact h.exclusive

theorem endThread_spec (hmain : main + 12 ≤ mainStackMax) (h : ThreadsOk main s others)
    (he : s.ending = some (old, next)) :
    ∃ n others', others = n :: others' ∧ active main (endThread s old next) = n ∧
      ThreadsOk main (endThread s old next) others' := by
  obtain ⟨hold, hnext, -⟩ := h.leaving _ he
  have hact₀ : active main s = old := active_some he
  have hmain_mem : main ∈ others := by
    have := h.main_mem
    rw [hact₀] at this
    exact (List.mem_cons.mp this).resolve_left (Ne.symm hold)
  cases others with
  | nil => simp at hmain_mem
  | cons n others =>
    have hap := h.pairwise hmain
    have hc := h.circle
    have hnodup := h.nodup
    rw [hact₀] at hap hc hnodup
    have hn : s.mem (old + 4) = n + 4 := hc.next
    have hnext : next = n + 4 := hnext.trans hn
    have hrot : Circle s.mem (n + 4) (others.map (· + 4) ++ [old + 4]) := Circle.rotate hc
    have hpprev : s.mem (old + 4 + 4) ∈ (n :: others).map (· + 4) := Loop.last_pprev hrot
    obtain ⟨p, hp, hp'⟩ := List.mem_map.mp hpprev
    have hdel : Circle (hlistDel s.mem (old + 4)) (n + 4) (others.map (· + 4)) :=
      hrot.del_last (Nat.succ_ne_zero _) (nodes_pairwise hap)
    have hkeep : ∀ u ∈ n :: others, hlistDel s.mem (old + 4) u = s.mem u := by
      intro u hu
      have hap' := (List.pairwise_cons.mp hap).2
      refine hlistDel_other _ ?_ fun _ => ?_
      · rw [← hp']
        exact (stackpos_ne (apart_or_eq hap' hu hp)).1
      · rw [hn]
        exact (stackpos_ne (apart_or_eq hap' hu (by simp))).2
    have hsaved := h.saved n (by simp)
    have hesp : (endThread s old next).esp = s.mem n + 8 := by
      show hlistDel s.mem (old + 4) (next - 4) + 8 = _
      rw [hnext, Nat.add_sub_cancel, hkeep n (by simp)]
    have hactive : active main (endThread s old next) = n := by
      rw [active_none rfl, hesp]
      exact getCurThread_eq (h.threads n (by simp)) hsaved
    have hweak : ∀ t mutex, (endThread s old next).holds t mutex = true →
        s.holds t mutex = true := by
      intro t mutex hh
      by_cases hto : t = old
      · subst t
        simp [endThread] at hh
      · simpa [endThread, Function.update_of_ne hto] using hh
    refine ⟨n, others, rfl, hactive, ?_⟩
    constructor
    · rw [hactive]
      exact hdel
    · rw [hactive]
      exact (List.nodup_cons.mp hnodup).2
    · rw [hactive]
      exact hmain_mem
    · rw [hactive]
      intro t ht
      exact h.threads t (List.mem_cons_of_mem _ ht)
    · rw [hactive]
      intro t
      show t ∈ s.allocated.erase old ↔ _
      rw [h.allocated_nodup.mem_erase_iff, h.allocated t, hact₀, List.mem_cons (a := t) (b := old)]
      constructor
      · rintro ⟨hne, hm, htm⟩
        exact ⟨hm.resolve_left hne, htm⟩
      · rintro ⟨hm, htm⟩
        refine ⟨?_, .inr hm, htm⟩
        rintro rfl
        exact (List.nodup_cons.mp hnodup).1 hm
    · exact h.allocated_nodup.erase _
    · intro t
      show t ∈ s.live ↔ t ∈ s.allocated.erase old ∧ ∀ e ∈ (none : Option (Nat × Nat)), t ≠ e.1
      rw [h.live t, h.allocated_nodup.mem_erase_iff, he]
      simp only [Option.mem_some_iff, forall_eq', Option.not_mem_none, false_implies, implies_true,
        and_true]
      tauto
    · exact h.live_nodup
    · intro t ht
      show OnStack main t (hlistDel s.mem (old + 4) t + 8)
      rw [hkeep t (List.mem_cons_of_mem _ ht)]
      exact h.saved t (List.mem_cons_of_mem _ ht)
    · intro _
      rw [hactive, hesp]
      exact hsaved
    · intro e hem
      cases hem
    · exact fun t mutex hh => h.held t mutex (hweak t mutex hh)
    · exact fun t t' mutex hh hh' => h.exclusive t t' mutex (hweak _ _ hh) (hweak _ _ hh')

end Ring

end ItxLlama.Seabios
