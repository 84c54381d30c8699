import ItxLlama.Coreboot.BootStates

/-!
# One step of the boot state machine

What the machine and its clients' calls do to the counts of blockers, and
which phases are behind it.
-/

namespace ItxLlama.Coreboot.Boot

section Steps

variable {Cb : Type}

-- ---------------------------------------------------------------------------
-- The machine
-- ---------------------------------------------------------------------------

theorem id_le_runState (wake : Bool) (st : BootState) : st.id ≤ (st.runState wake).id := by
  cases st <;> cases wake <;> decide

theorem id_inj {st st' : BootState} (h : st.id = st'.id) : st = st' := by
  cases st <;> cases st' <;> first | rfl | exact absurd h (by decide)

/-- The next state is set before the current one is left. -/
def Forward (m : Machine Cb) : Prop :=
  m.current.seq = .onExit → m.control = .function ∨ m.current.state.id ≤ m.next.id

/-- What the boot state machine does to the blockers, and which phase it may leave. -/
structure Passes (m m' : Machine Cb) : Prop where
  blockers : ∀ p, (m'.phases p).blockers = (m.phases p).blockers
  current : m'.current = m.current ∨ (m.phases m.current).blockers = 0
  left : ∀ p, .left p ∈ m'.log → .left p ∈ m.log ∨ p = m.current ∧ (m.phases p).blockers = 0
  ran : m'.control ≠ .stopped → ∀ p, m.Ran p → m'.Ran p
  passed : m'.control ≠ .stopped → ∀ p, .left p ∈ m'.log → .left p ∈ m.log ∨ m'.Ran p
  forward : Forward m'

theorem bsWalk_eq (m : Machine Cb) : ∃ control, bsWalk m = { m with control } ∧
    control ≠ .function ∧ (control ≠ .stopped → m.complete m.current.state = false) := by
  unfold bsWalk
  split
  · exact ⟨_, rfl, nofun, fun h => absurd rfl h⟩
  · exact ⟨_, rfl, nofun, fun _ => eq_false_of_ne_true ‹_›⟩

theorem leavePhase_passes {m : Machine Cb} (h : (m.phases m.current).blockers = 0)
    (hnext : m.current.seq = .onExit → m.current.state.id ≤ m.next.id) :
    Passes m (leavePhase m) := by
  unfold leavePhase
  dsimp only
  split
  · rename_i hseq
    refine ⟨fun _ => rfl, Or.inr h, fun p hp => ?_, fun _ p hran => ?_, fun _ p hp => ?_,
      fun _ => Or.inl rfl⟩
    · simp only [List.mem_append, List.mem_singleton, reduceCtorEq, or_false,
        BootEvent.left.injEq] at hp
      exact hp.imp_right fun heq => ⟨heq, heq ▸ h⟩
    · rcases hran with hlt | ⟨-, hexit, -⟩
      · exact Or.inl hlt
      · exact absurd (hseq.symm.trans hexit) nofun
    · simp only [List.mem_append, List.mem_singleton, reduceCtorEq, or_false,
        BootEvent.left.injEq] at hp
      rcases hp with hp | rfl
      · exact Or.inl hp
      · exact Or.inr (Or.inr ⟨rfl, rfl, hseq⟩)
  · rename_i hseq
    obtain ⟨control, heq, -, hrunning⟩ := bsWalk_eq { m with
      current := ⟨m.next, .onEntry⟩
      complete := Function.update m.complete m.current.state true
      log := m.log ++ [.left m.current] ++ [.enter ⟨m.next, .onEntry⟩] }
    rw [heq]
    -- the state that is complete now is not the next
    have hlt (hcontrol : control ≠ .stopped) : m.current.state.id < m.next.id := by
      have hne : m.next ≠ m.current.state := by
        intro hsame
        have hcomplete := hrunning hcontrol
        simp only [hsame, Function.update_self] at hcomplete
        exact nomatch hcomplete
      exact Nat.lt_of_le_of_ne (hnext hseq) fun hid => hne (id_inj hid).symm
    refine ⟨fun _ => rfl, Or.inr h, fun p hp => ?_, fun hcontrol p hran => ?_,
      fun hcontrol p hp => ?_, nofun⟩
    · simp only [List.mem_append, List.mem_singleton, reduceCtorEq, or_false,
        BootEvent.left.injEq] at hp
      exact hp.imp_right fun heq => ⟨heq, heq ▸ h⟩
    · have hlt := hlt hcontrol
      rcases hran with hless | ⟨hsame, -, -⟩
      · exact Or.inl (Nat.lt_trans hless hlt)
      · exact Or.inl (hsame ▸ hlt)
    · simp only [List.mem_append, List.mem_singleton, reduceCtorEq, or_false,
        BootEvent.left.injEq] at hp
      rcases hp with hp | rfl
      · exact Or.inl hp
      · exact Or.inr (Or.inl (hlt hcontrol))

theorem bsCallCallbacks_passes {m : Machine Cb}
    (hnext : m.current.seq = .onExit → m.current.state.id ≤ m.next.id) :
    Passes m (bsCallCallbacks m) := by
  unfold bsCallCallbacks
  dsimp only
  split
  · refine ⟨fun p => ?_, Or.inl rfl, fun p hp => Or.inl (by simpa using hp), fun _ _ => id,
      fun _ p hp => Or.inl (by simpa using hp), fun hseq => Or.inr (hnext hseq)⟩
    rcases eq_or_ne p m.current with rfl | hne
    · simp only [Function.update_self]
    · simp only [Function.update_of_ne hne]
  · split
    · exact ⟨fun _ => rfl, Or.inl rfl, fun _ => Or.inl, fun _ _ => id, fun _ _ => Or.inl,
        fun hseq => Or.inr (hnext hseq)⟩
    · rename_i hblockers
      exact leavePhase_passes (not_not.mp hblockers) hnext

theorem resume_passes {m : Machine Cb} (hforward : Forward m) (wake : Bool) :
    Passes m (resume m wake) := by
  have hnext (hcontrol : m.control ≠ .function) (hseq : m.current.seq = .onExit) :
      m.current.state.id ≤ m.next.id := (hforward hseq).resolve_left hcontrol
  unfold resume
  split
  case h_1 hcontrol =>
    obtain ⟨control, heq, -, -⟩ := bsWalk_eq m
    rw [heq]
    exact ⟨fun _ => rfl, Or.inl rfl, fun _ => Or.inl, fun _ _ => id, fun _ _ => Or.inl,
      fun hseq => Or.inr (hnext (by rw [hcontrol]; nofun) hseq)⟩
  case h_5 =>
    have h := bsCallCallbacks_passes (m := { m with next := m.current.state.runState wake })
      fun _ => id_le_runState wake _
    exact ⟨h.blockers, h.current, h.left, h.ran, h.passed, h.forward⟩
  case h_6 =>
    exact ⟨fun _ => rfl, Or.inl rfl, fun _ => Or.inl, fun _ _ => id, fun _ _ => Or.inl, hforward⟩
  all_goals
    rename_i hcontrol
    exact bsCallCallbacks_passes (hnext (by rw [hcontrol]; nofun))

-- ---------------------------------------------------------------------------
-- The clients' calls
-- ---------------------------------------------------------------------------

theorem not_ran_current (m : Machine Cb) : ¬ m.Ran m.current := by
  rintro (hlt | ⟨-, hexit, hentry⟩)
  · exact Nat.lt_irrefl _ hlt
  · rw [hexit] at hentry
    exact nomatch hentry

/-- A call of a client that has returned `ret`, with `n` what an accepted one makes of the
blockers of its phase. -/
structure Counts (m : Machine Cb) (p : Phase) (ret : Int) (m' : Machine Cb) (n : Nat → Nat) : Prop
    where
  current : m'.current = m.current
  next : m'.next = m.next
  control : m'.control = m.control
  left : ∀ q, .left q ∈ m'.log ↔ .left q ∈ m.log
  others : ∀ q, q ≠ p → (m'.phases q).blockers = (m.phases q).blockers
  counted : ret = 0 → (m'.phases p).blockers = n (m.phases p).blockers
  refused : ret ≠ 0 → (m'.phases p).blockers = (m.phases p).blockers

theorem Counts.ran_iff (h : Counts m p ret m' n) : m'.Ran q ↔ m.Ran q := by
  unfold Machine.Ran
  rw [h.current]

theorem Counts.forward (h : Counts m p ret m' n) (hforward : Forward m) : Forward m' := by
  unfold Forward
  rw [h.current, h.control, h.next]
  exact hforward

theorem counts_refused (m : Machine Cb) (p : Phase) (n : Nat → Nat) : Counts m p (-1) m n :=
  ⟨rfl, rfl, rfl, fun _ => .rfl, fun _ _ => rfl, nofun, fun _ => rfl⟩

theorem counts_update (m : Machine Cb) (p : Phase) (e : BootEvent Cb) (he : ∀ q, e ≠ .left q)
    (phase : BootPhase Cb) (hphase : phase.blockers = n (m.phases p).blockers) :
    Counts m p 0 { m with phases := Function.update m.phases p phase, log := m.log ++ [e] } n := by
  refine ⟨rfl, rfl, rfl, fun q => ?_, fun q hne => ?_, fun _ => ?_, fun h => absurd rfl h⟩
  · simp [Ne.symm (he q)]
  · simp only [Function.update_of_ne hne]
  · simpa only [Function.update_self] using hphase

theorem bootStateBlock_counts (m : Machine Cb) (p : Phase) :
    Counts m p (bootStateBlock m p).1 (bootStateBlock m p).2 (· + 1) := by
  unfold bootStateBlock
  split
  · exact counts_refused m p _
  · exact counts_update m p (.block p) nofun _ rfl

theorem bootStateUnblock_counts (m : Machine Cb) (p : Phase) :
    Counts m p (bootStateUnblock m p).1 (bootStateUnblock m p).2 (· - 1) := by
  unfold bootStateUnblock
  split
  · exact counts_refused m p _
  · dsimp only
    split
    · exact counts_refused m p _
    · exact counts_update m p (.unblock p) nofun _ rfl

theorem bootStateSchedCallback_counts (m : Machine Cb) (cb : Cb) (p : Phase) :
    Counts m p (bootStateSchedCallback m cb p).1 (bootStateSchedCallback m cb p).2 id := by
  unfold bootStateSchedCallback
  split
  · exact counts_refused m p _
  · exact counts_update m p (.sched cb p) nofun _ rfl

theorem block_ran {m : Machine Cb} (h : (bootStateBlock m p).1 ≠ 0) : m.Ran p := by
  unfold bootStateBlock at h
  split at h
  · assumption
  · exact absurd rfl h

theorem block_not_ran {m : Machine Cb} (h : (bootStateBlock m p).1 = 0) : ¬ m.Ran p := by
  intro hran
  unfold bootStateBlock at h
  rw [if_pos hran] at h
  exact absurd h (by decide : (-1 : Int) ≠ 0)

theorem block_current (m : Machine Cb) : (bootStateBlock m m.current).1 = 0 := by
  unfold bootStateBlock
  rw [if_neg (not_ran_current m)]

theorem unblock_ran {m : Machine Cb} (h : m.Ran p) : (bootStateUnblock m p).1 ≠ 0 := by
  unfold bootStateUnblock
  rw [if_pos h]
  exact (by decide : (-1 : Int) ≠ 0)

end Steps

end ItxLlama.Coreboot.Boot
