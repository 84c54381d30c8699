import ItxLlama.Seabios.ThreadLaws

/-!
# What holds in every run of the threads

The invariant of the ring is kept by every step, so every reachable state has
it; the guarantees of the thread functions are read off it.
-/

namespace ItxLlama.Seabios

open Lib.Word Lib.Hlist

section Runs

variable {main : Nat} {s s' s₀ : Threads} {others : List Nat}

theorem switchNext_ok (hmain : main + 12 ≤ mainStackMax) (h : ThreadsOk main s others)
    (he : s.ending = none) : ∃ others', ThreadsOk main (switchNext main s) others' := by
  cases others with
  | nil =>
    rw [switchNext_alone h he]
    exact ⟨_, h⟩
  | cons n others => exact ⟨_, (switchNext_spec hmain h he).2⟩

theorem ThreadsOk.take (h : ThreadsOk main s others) (hfree : s.isLocked mutex = false)
    (waits : Nat → ThreadWait) (t : Nat) :
    ThreadsOk main
      { s with
        isLocked := Function.update s.isLocked mutex true
        waits := waits
        holds := Function.update s.holds t (Function.update (s.holds t) mutex true) } others := by
  have hnone : ∀ u, s.holds u mutex = false := by
    intro u
    cases hh : s.holds u mutex with
    | false => rfl
    | true =>
      have := h.held u mutex hh
      rw [hfree] at this
      cases this
  have hcases : ∀ u ν, Function.update s.holds t (Function.update (s.holds t) mutex true) u ν = true →
      ν = mutex ∧ u = t ∨ ν ≠ mutex ∧ s.holds u ν = true := by
    intro u ν hh
    by_cases hν : ν = mutex
    · subst hν
      by_cases hu : u = t
      · exact .inl ⟨rfl, hu⟩
      · rw [Function.update_of_ne hu, hnone u] at hh
        cases hh
    · refine .inr ⟨hν, ?_⟩
      by_cases hu : u = t
      · subst hu
        simpa [Function.update_of_ne hν] using hh
      · simpa [Function.update_of_ne hu] using hh
  refine { h with held := ?_, exclusive := ?_ }
  · intro u ν hh
    rcases hcases u ν hh with ⟨rfl, -⟩ | ⟨hν, hh⟩
    · exact Function.update_self ..
    · show Function.update s.isLocked mutex true ν = true
      rw [Function.update_of_ne hν]
      exact h.held u ν hh
  · intro u u' ν hh hh'
    rcases hcases u ν hh with ⟨hν, hu⟩ | ⟨hν, hh⟩
    · rcases hcases u' ν hh' with ⟨-, hu'⟩ | ⟨hν', -⟩
      · rw [hu, hu']
      · contradiction
    · rcases hcases u' ν hh' with ⟨hν', -⟩ | ⟨-, hh'⟩
      · contradiction
      · exact h.exclusive u u' ν hh hh'

theorem ThreadsOk.give (h : ThreadsOk main s others) (t mutex : Nat)
    (hhold : s.holds t mutex = true) :
    ThreadsOk main
      { s with
        isLocked := Function.update s.isLocked mutex false
        holds := Function.update s.holds t (Function.update (s.holds t) mutex false) } others := by
  have hcases : ∀ u ν,
      Function.update s.holds t (Function.update (s.holds t) mutex false) u ν = true →
      ν ≠ mutex ∧ s.holds u ν = true := by
    intro u ν hh
    by_cases hu : u = t
    · subst hu
      by_cases hν : ν = mutex
      · subst hν
        simp at hh
      · exact ⟨hν, by simpa [Function.update_of_ne hν] using hh⟩
    · rw [Function.update_of_ne hu] at hh
      refine ⟨?_, hh⟩
      rintro rfl
      exact hu (h.exclusive u t ν hh hhold)
  refine { h with held := ?_, exclusive := ?_ }
  · intro u ν hh
    obtain ⟨hν, hh⟩ := hcases u ν hh
    show Function.update s.isLocked mutex false ν = true
    rw [Function.update_of_ne hν]
    exact h.held u ν hh
  · intro u u' ν hh hh'
    exact h.exclusive u u' ν (hcases u ν hh).2 (hcases u' ν hh').2

theorem ThreadsOk.waits (h : ThreadsOk main s others) (waits : Nat → ThreadWait) :
    ThreadsOk main { s with waits := waits } others :=
  { h with }

theorem ThreadsOk.move (h : ThreadsOk main s others) (he : s.ending = none)
    (hon : OnStack main (active main s) esp) :
    active main { s with esp := esp } = active main s ∧
      ThreadsOk main { s with esp := esp } others := by
  have hact : active main { s with esp := esp } = active main s := by
    rw [active_none (s := { s with esp := esp }) he]
    exact getCurThread_eq h.isThread hon
  refine ⟨hact, ?_⟩
  constructor
  · rw [hact]
    exact h.circle
  · rw [hact]
    exact h.nodup
  · rw [hact]
    exact h.main_mem
  · rw [hact]
    exact h.threads
  · rw [hact]
    exact h.allocated
  · exact h.allocated_nodup
  · exact h.live
  · exact h.live_nodup
  · exact h.saved
  · intro _
    rw [hact]
    exact hon
  · intro e hem
    rw [he] at hem
    cases hem
  · exact h.held
  · exact h.exclusive

theorem ThreadsOk.step (hmain : main + 12 ≤ mainStackMax) (h : ThreadsOk main s others)
    (hs : threadStep main s op = some s') : ∃ others', ThreadsOk main s' others' := by
  obtain ⟨mem, esp, ending, isLocked, allocated, live, waits, holds⟩ := s
  cases ending with
  | some e =>
    cases op with
    | finish =>
      cases hs
      obtain ⟨n, others', -, -, hok⟩ := endThread_spec hmain h rfl
      exact ⟨others', hok⟩
    | _ => cases hs
  | none =>
    cases hw : waits (getCurThread main esp) with
    | running =>
      cases op with
      | move esp' =>
        simp only [threadStep, hw] at hs
        split at hs
        · cases hs
          exact ⟨others, (h.move rfl ‹_›).2⟩
        · cases hs
      | run thread =>
        cases thread with
        | none =>
          simp only [threadStep, hw] at hs
          cases hs
          exact ⟨others, h⟩
        | some t =>
          simp only [threadStep, hw] at hs
          split at hs
          · cases hs
            exact ⟨_, (runThread_spec hmain h rfl ‹_›).2⟩
          · cases hs
      | yield =>
        simp only [threadStep, hw] at hs
        cases hs
        exact switchNext_ok hmain h rfl
      | lock mutex =>
        simp only [threadStep, hw] at hs
        cases hs
        exact ⟨others, h.waits _⟩
      | unlock mutex =>
        simp only [threadStep, hw] at hs
        split at hs
        · cases hs
          exact ⟨others, h.give _ _ ‹_›⟩
        · cases hs
      | wait =>
        simp only [threadStep, hw] at hs
        cases hs
        exact ⟨others, h.waits _⟩
      | leave =>
        simp only [threadStep, hw] at hs
        split at hs
        · cases hs
        · cases hs
          exact ⟨others, leaveThread_spec h rfl ‹_›⟩
      | spin | join | finish => simp [threadStep, hw] at hs
    | locking mutex =>
      cases op with
      | spin =>
        simp only [threadStep, hw] at hs
        split at hs
        · cases hs
          exact switchNext_ok hmain h rfl
        · rename_i hfree
          cases hs
          exact ⟨others, h.take (by simpa using hfree) _ _⟩
      | _ => simp [threadStep, hw] at hs
    | joining =>
      cases op with
      | join =>
        simp only [threadStep, hw] at hs
        split at hs
        · cases hs
          exact switchNext_ok hmain h rfl
        · cases hs
          exact ⟨others, h.waits _⟩
      | _ => simp [threadStep, hw] at hs

theorem ThreadsStart.ok (h : ThreadsStart main s) :
    ThreadsOk main s [] := by
  have hact : active main s = main := by
    rw [active_none h.ending]
    exact getCurThread_eq (.inl rfl) h.esp
  obtain ⟨m, hm⟩ := h.mem
  constructor
  · rw [hact, hm]
    constructor
    · show mainOnly main m (main + 4) = main + 4
      unfold mainOnly
      rw [store_ne _ _ (by omega), store_same]
    · show mainOnly main m (main + 4 + 4) = main + 4
      exact store_same ..
  · simp
  · simp [hact]
  · rw [hact]
    intro t ht
    exact .inl (List.mem_singleton.mp ht)
  · rw [hact, h.allocated]
    simp
  · rw [h.allocated]
    exact List.nodup_nil
  · rw [h.allocated, h.live]
    simp
  · rw [h.live]
    exact List.nodup_nil
  · intro t ht
    cases ht
  · intro _
    rw [hact]
    exact h.esp
  · rw [h.ending]
    intro e he
    cases he
  · intro t mutex hh
    rw [h.holds] at hh
    cases hh
  · intro t t' mutex hh
    rw [h.holds] at hh
    cases hh

theorem ThreadRun.ok (hmain : main + 12 ≤ mainStackMax) (h₀ : ThreadsStart main s₀)
    (hr : ThreadRun main s₀ s) : ∃ others, ThreadsOk main s others := by
  induction hr with
  | start => exact ⟨[], h₀.ok⟩
  | step op _ hs ih =>
    obtain ⟨others, h⟩ := ih
    exact h.step hmain hs

-- ---------------------------------------------------------------------------
-- What the invariant gives
-- ---------------------------------------------------------------------------

theorem ThreadsOk.round (hmain : main + 12 ≤ mainStackMax) (h : ThreadsOk main s others)
    (he : s.ending = none) (k : Nat) :
    (active main s :: others)[k % (others.length + 1)]? =
      some (active main ((switchNext main)^[k] s)) := by
  induction k generalizing s others with
  | zero => simp
  | succ k ih =>
    cases others with
    | nil =>
      have := ih h he
      rw [Function.iterate_succ_apply, switchNext_alone h he]
      simpa [Nat.mod_one] using this
    | cons n others =>
      obtain ⟨hact, hok⟩ := switchNext_spec hmain h he
      have he' : (switchNext main s).ending = none := by rw [switchNext_eq h he]; exact he
      have := ih hok he'
      rw [Function.iterate_succ_apply, ← this, hact]
      -- the ring after the switch is the ring rotated by one
      have hrot : n :: (others ++ [active main s]) = (active main s :: n :: others).rotate 1 := by
        simp
      have hlen : (others ++ [active main s]).length + 1 = (active main s :: n :: others).length := by
        simp
      rw [hrot, hlen, List.getElem?_rotate (Nat.mod_lt _ (by simp)), Nat.mod_add_mod]
      rfl

theorem ThreadsOk.from_main (h : ThreadsOk main s others) :
    ∃ l, Circle s.mem (main + 4) (l.map (· + 4)) ∧ (main :: l).Perm (active main s :: others) := by
  rcases List.mem_cons.mp h.main_mem with hm | hm
  · refine ⟨others, ?_, by rw [← hm]⟩
    have := h.circle
    rwa [← hm] at this
  · obtain ⟨A, B, rfl⟩ := List.append_of_mem hm
    have hc := h.circle
    rw [List.map_append, List.map_cons] at hc
    refine ⟨B ++ active main s :: A, by simpa using hc.read_from, ?_⟩
    have hrot : (main :: B ++ active main s :: A).Perm (active main s :: A ++ main :: B) :=
      List.perm_append_comm
    exact hrot

theorem ThreadsOk.alone (h : ThreadsOk main s others) (hno : haveThreads main s = false) :
    active main s = main ∧ others = [] := by
  have hself : s.mem (main + 4) = main + 4 := by
    simpa [haveThreads] using hno
  obtain ⟨l, hc, hperm⟩ := h.from_main
  have hn := hc.next
  rw [hself] at hn
  cases l with
  | nil =>
    have := List.perm_singleton.mp hperm.symm
    simpa using this
  | cons n l =>
    simp only [List.map_cons, List.headD_cons, Nat.add_right_cancel_iff] at hn
    have hnodup := hperm.nodup_iff.mpr h.nodup
    rw [hn] at hnodup
    simp at hnodup

theorem switchNext_fields (main : Nat) (s : Threads) :
    (switchNext main s).allocated = s.allocated ∧ (switchNext main s).waits = s.waits := by
  simp only [switchNext]
  split <;> exact ⟨rfl, rfl⟩

theorem threadStep_allocated (hs : threadStep main s op = some s') :
    (∃ e, s.ending = some e ∧ op = .finish ∧ s' = endThread s e.1 e.2) ∨
      (s.ending = none ∧ ∀ t ∈ s.allocated, t ∈ s'.allocated) := by
  have hsw := (switchNext_fields main s).1
  obtain ⟨mem, esp, ending, isLocked, allocated, live, waits, holds⟩ := s
  cases ending with
  | some e =>
    cases op with
    | finish =>
      cases hs
      exact .inl ⟨e, rfl, rfl, rfl⟩
    | _ => cases hs
  | none =>
    refine .inr ⟨rfl, fun t ht => ?_⟩
    cases hw : waits (getCurThread main esp) with
    | running =>
      cases op with
      | run thread =>
        cases thread with
        | none =>
          simp only [threadStep, hw] at hs
          cases hs
          exact ht
        | some t' =>
          simp only [threadStep, hw] at hs
          split at hs
          · cases hs
            exact List.mem_cons_of_mem _ ht
          · cases hs
      | yield =>
        simp only [threadStep, hw] at hs
        cases hs
        rw [hsw]
        exact ht
      | lock mutex | wait =>
        simp only [threadStep, hw] at hs
        cases hs
        exact ht
      | move | unlock | leave =>
        simp only [threadStep, hw] at hs
        split at hs <;> cases hs
        exact ht
      | spin | join | finish => simp [threadStep, hw] at hs
    | locking mutex =>
      cases op with
      | spin =>
        simp only [threadStep, hw] at hs
        split at hs <;> cases hs
        · rw [hsw]
          exact ht
        · exact ht
      | _ => simp [threadStep, hw] at hs
    | joining =>
      cases op with
      | join =>
        simp only [threadStep, hw] at hs
        split at hs <;> cases hs
        · rw [hsw]
          exact ht
        · exact ht
      | _ => simp [threadStep, hw] at hs

/-- `wait_threads` returns only when it finds the main thread alone. -/
theorem join_returns (hs : threadStep main s .join = some s')
    (hret : s'.waits (getCurThread main s.esp) = .running) : haveThreads main s = false := by
  have hsw := (switchNext_fields main s).2
  obtain ⟨mem, esp, ending, isLocked, allocated, live, waits, holds⟩ := s
  cases ending with
  | some e => cases hs
  | none =>
    cases hw : waits (getCurThread main esp) with
    | joining =>
      simp only [threadStep, hw] at hs
      split at hs
      · cases hs
        rw [hsw] at hret
        cases hw.symm.trans hret
      · rename_i hno
        exact Bool.eq_false_iff.mpr hno
    | _ => simp [threadStep, hw] at hs

/-- What the threads of a reachable state can rely on. -/
structure ThreadsSafe (main : Nat) (s : Threads) (others : List Nat) : Prop where
  circle : Circle s.mem (active main s + 4) (others.map (· + 4))
  once : (active main s :: others).Nodup
  /-- a thread whose function has returned stays in the list until the main
  thread's stack is in use -/
  members : ∀ t, t ∈ active main s :: others ↔
    t = main ∨ t ∈ s.live ∨ ∃ next, s.ending = some (t, next)
  running : s.ending = none → active main s = getCurThread main s.esp
  allocated : ∀ t ∈ s.live, t ∈ s.allocated
  ended : ∀ old next, s.ending = some (old, next) →
    old ∉ s.live ∧ getCurThread main s.esp = main ∧ old ≠ main ∧
      (∀ op s', threadStep main s op = some s' → op = .finish) ∧
      ∃ s', threadStep main s .finish = some s' ∧ s'.ending = none ∧ old ∉ s'.allocated ∧
        old ∉ s'.live ∧ getCurThread main s'.esp ≠ old
  freed : ∀ op s' t, threadStep main s op = some s' → t ∈ s.allocated → t ∉ s'.allocated →
    ∃ next, s.ending = some (t, next)
  round : s.ending = none → ∀ k, (active main s :: others)[k % (others.length + 1)]? =
    some (active main ((switchNext main)^[k] s))
  waited : ∀ s', threadStep main s .join = some s' →
    s'.waits (getCurThread main s.esp) = .running → s.live = []
  mutex : ∀ t t' mutex, s.holds t mutex = true → s.holds t' mutex = true → t = t'

theorem ThreadsOk.members (h : ThreadsOk main s others) (t : Nat) :
    t ∈ active main s :: others ↔ t = main ∨ t ∈ s.live ∨ ∃ next, s.ending = some (t, next) := by
  constructor
  · intro ht
    by_cases htm : t = main
    · exact .inl htm
    · have hst := (h.allocated t).mpr ⟨ht, htm⟩
      by_cases hend : ∃ next, s.ending = some (t, next)
      · exact .inr (.inr hend)
      · refine .inr (.inl ((h.live t).mpr ⟨hst, ?_⟩))
        rintro ⟨old, next⟩ he rfl
        exact hend ⟨next, he⟩
  · rintro (rfl | hl | ⟨next, he⟩)
    · exact h.main_mem
    · exact ((h.allocated t).mp ((h.live t).mp hl).1).1
    · rw [active_some he]
      exact List.mem_cons_self

theorem ThreadsOk.safe (hmain : main + 12 ≤ mainStackMax) (h : ThreadsOk main s others) :
    ThreadsSafe main s others where
  circle := h.circle
  once := h.nodup
  members := h.members
  running := active_none
  allocated t ht := ((h.live t).mp ht).1
  ended old next he := by
    obtain ⟨hold, -, hesp⟩ := h.leaving _ he
    have hnl : old ∉ s.live := fun hl => ((h.live old).mp hl).2 _ he rfl
    have hmm : main ∈ others := by
      have := h.main_mem
      rw [active_some he] at this
      exact (List.mem_cons.mp this).resolve_left (Ne.symm hold)
    have hon := h.saved main hmm
    simp only [OnStack, if_true] at hon
    have hcur : getCurThread main s.esp = main := by
      rw [hesp]
      exact if_pos (by omega)
    have hstep : threadStep main s .finish = some (endThread s old next) := by
      obtain ⟨mem, esp, ending, isLocked, allocated, live, waits, holds⟩ := s
      cases he
      rfl
    obtain ⟨n, others', rfl, hact, hok⟩ := endThread_spec hmain h he
    have hnodup := h.nodup
    rw [active_some he] at hnodup
    refine ⟨hnl, hcur, hold, fun op s' hs => ?_, _, hstep, rfl, ?_, hnl, ?_⟩
    · rcases threadStep_allocated hs with ⟨e, -, hop, -⟩ | ⟨hnone, -⟩
      · exact hop
      · rw [he] at hnone
        cases hnone
    · intro hm
      have := ((hok.allocated old).mp hm).1
      rw [hact] at this
      exact (List.nodup_cons.mp hnodup).1 this
    · rw [← active_none (s := endThread s old next) rfl, hact]
      rintro rfl
      exact (List.nodup_cons.mp hnodup).1 List.mem_cons_self
  freed op s' t hs ht hnt := by
    rcases threadStep_allocated hs with ⟨⟨old, next⟩, he, -, rfl⟩ | ⟨-, hkeep⟩
    · refine ⟨next, ?_⟩
      have hold : t = old := by
        by_contra hne
        exact hnt ((h.allocated_nodup.mem_erase_iff).mpr ⟨hne, ht⟩)
      rw [he, hold]
    · exact absurd (hkeep t ht) hnt
  round he k := h.round hmain he k
  waited s' hs hret := by
    obtain ⟨hact, rfl⟩ := h.alone (join_returns hs hret)
    apply List.eq_nil_iff_forall_not_mem.mpr
    intro t ht
    obtain ⟨hm, htm⟩ := (h.allocated t).mp ((h.live t).mp ht).1
    rw [hact] at hm
    exact htm (List.mem_singleton.mp hm)
  mutex := h.exclusive

/-- In every run of the machine, in whatever order its threads take their
steps. -/
theorem threads_safe (hmain : main + 12 ≤ mainStackMax) (h₀ : ThreadsStart main s₀)
    (hr : ThreadRun main s₀ s) : ∃ others, ThreadsSafe main s others := by
  obtain ⟨others, h⟩ := hr.ok hmain h₀
  exact ⟨others, h.safe hmain⟩

/-- `MainThread` at `0xf6000`, on a stack below `0x7000`. -/
def threadsStart : Threads where
  mem := mainOnly 0xf6000 fun _ => 0
  esp := 0x6f00
  ending := none
  isLocked := fun _ => false
  allocated := []
  live := []
  waits := fun _ => .running
  holds := fun _ _ => false

theorem threadsStart_ok : ThreadsStart 0xf6000 threadsStart where
  mem := ⟨_, rfl⟩
  esp := by decide
  ending := rfl
  allocated := rfl
  live := rfl
  waits := rfl
  holds _ _ := rfl

theorem threads_safe_started :
    ∃ s others, s.live = [0x200000] ∧ getCurThread 0xf6000 s.esp = 0x200000 ∧
      ThreadsSafe 0xf6000 s others := by
  obtain ⟨others, h⟩ := threads_safe (by decide) threadsStart_ok
    (.step (.run (some 0x200000)) .start rfl)
  exact ⟨_, others, rfl, by decide, h⟩

end Runs

end ItxLlama.Seabios
