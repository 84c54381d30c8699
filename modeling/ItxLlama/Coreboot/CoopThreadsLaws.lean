import ItxLlama.Coreboot.BootSteps
import ItxLlama.Coreboot.CoopThreads

/-!
# No thread is lost

Every thread is on the CPU, on one of the two lists or waiting for one timer,
so that there is always a thread to switch to; a function is entered once and
has its thread until it returns; and the phase that a thread blocks is not
left before.
-/

namespace ItxLlama.Coreboot.CoopThreads

open Timer Boot

section Laws

variable {Fn Cb : Type}

-- ---------------------------------------------------------------------------
-- The places of the threads
-- ---------------------------------------------------------------------------

/-- The threads that wait for a timer. -/
def Tocb.thread? : Tocb → Option Nat
  | .thread t => some t
  | .client _ => none

def waitingIn (queued : List Tocb) : List Nat := queued.filterMap Tocb.thread?

namespace Sys

variable (s : Sys Fn Cb) (cpu : List Nat)

def waiting : List Nat := waitingIn s.timers.tq.queued

/-- The threads that are not free, where `cpu` has the ones between two places. -/
def live : List Nat := cpu ++ (s.runnable ++ s.waiting)

/-- The blocks that wrappers hold. -/
def boundTo (p : Phase) : Nat := (s.live cpu).countP fun t => (s.threads t).bound = some p

def functions : List Fn := (s.live cpu).filterMap fun t => (s.threads t).entry

end Sys

/-- The wrapper of a thread has blocked what it should, and nothing that is left. -/
structure Wrapped (boot : Machine Cb) (thread : Thread Fn) : Prop where
  current : thread.wrapper = .blockCurrent → thread.bound = some boot.current
  state : ∀ p, thread.wrapper = .blockState p → thread.bound = some p ∨
    thread.bound = none ∧ (boot.control = .stopped ∨ boot.Ran p)
  main : thread.wrapper = .main ∨ thread.wrapper = .idle →
    thread.bound = none ∧ thread.entry = none
  left : ∀ p, thread.bound = some p → .left p ∉ boot.log

/-- What holds between the calls, where `cpu` has the threads between two places; `n` is the
idle thread. -/
structure InvOn (n : Nat) (s : Sys Fn Cb) (cpu : List Nat) : Prop where
  died : s.died = false
  places : (s.live cpu ++ s.free).Perm (List.range (n + 1))
  queue : WellFormed s.timers.expiration s.timers.tq
  idleReady : n ∈ cpu ++ s.runnable
  idle : ∀ t ∈ s.live cpu, (s.threads t).wrapper = .idle ↔ t = n
  idleStays : (s.threads n).started = true → (s.threads n).canYield = false
  main : 0 ∈ s.live cpu ∧ (s.threads 0).wrapper = .main
  started : ∀ t ∈ s.live cpu, t ≠ n → (s.threads t).started = true
  wrapped : ∀ t ∈ s.live cpu, Wrapped s.boot (s.threads t)
  blockers : ∀ p, s.held p + s.boundTo cpu p ≤ (s.boot.phases p).blockers
  forward : Forward s.boot
  passed : s.boot.control ≠ .stopped → ∀ p, .left p ∈ s.boot.log → s.boot.Ran p
  entered : s.entered = s.accepted
  functions : s.entered.Perm (s.finished ++ s.functions cpu)

/-- The thread on the CPU has been entered. -/
structure Inv (n : Nat) (s : Sys Fn Cb) : Prop extends InvOn n s [s.current] where
  running : (s.threads s.current).started = true

theorem InvOn.nodup (h : InvOn n s cpu) : (s.live cpu ++ s.free).Nodup :=
  h.places.nodup_iff.mpr List.nodup_range

theorem InvOn.not_live (h : InvOn n s cpu) (ht : t ∈ s.free) : t ∉ s.live cpu := fun hlive =>
  List.disjoint_of_nodup_append h.nodup hlive ht

/-- What is counted over the live threads only depends on which ones they are. -/
theorem boundTo_congr {s s' : Sys Fn Cb} (hlive : (s'.live cpu').Perm (s.live cpu))
    (hthreads : ∀ t ∈ s.live cpu, s'.threads t = s.threads t) (p : Phase) :
    s'.boundTo cpu' p = s.boundTo cpu p := by
  unfold Sys.boundTo
  rw [hlive.countP_eq]
  refine List.countP_congr fun t ht => ?_
  rw [hthreads t ht]

theorem functions_congr {s s' : Sys Fn Cb} (hlive : (s'.live cpu').Perm (s.live cpu))
    (hthreads : ∀ t ∈ s.live cpu, s'.threads t = s.threads t) :
    (s'.functions cpu').Perm (s.functions cpu) := by
  unfold Sys.functions
  refine (hlive.filterMap _).trans (List.Perm.of_eq (List.filterMap_congr fun t ht => ?_))
  rw [hthreads t ht]

/-- Only the places of the threads differ. -/
structure Same (s s' : Sys Fn Cb) : Prop where
  threads : s'.threads = s.threads
  free : s'.free = s.free
  boot : s'.boot = s.boot
  died : s'.died = s.died
  held : s'.held = s.held
  entered : s'.entered = s.entered
  accepted : s'.accepted = s.accepted
  finished : s'.finished = s.finished

theorem InvOn.move {s s' : Sys Fn Cb} (h : InvOn n s cpu) (hsame : Same s s')
    (hlive : (s'.live cpu').Perm (s.live cpu)) (hready : n ∈ cpu' ++ s'.runnable)
    (hqueue : WellFormed s'.timers.expiration s'.timers.tq) : InvOn n s' cpu' where
  died := hsame.died.trans h.died
  places := by
    rw [hsame.free]
    exact (hlive.append_right _).trans h.places
  queue := hqueue
  idleReady := hready
  idle t ht := hsame.threads ▸ h.idle t (hlive.mem_iff.mp ht)
  idleStays := hsame.threads ▸ h.idleStays
  main := ⟨hlive.mem_iff.mpr h.main.1, hsame.threads ▸ h.main.2⟩
  started t ht := hsame.threads ▸ h.started t (hlive.mem_iff.mp ht)
  wrapped t ht := hsame.threads ▸ hsame.boot ▸ h.wrapped t (hlive.mem_iff.mp ht)
  blockers p := by
    rw [hsame.held, hsame.boot, boundTo_congr hlive fun t _ => congrFun hsame.threads t]
    exact h.blockers p
  forward := hsame.boot ▸ h.forward
  passed := hsame.boot ▸ h.passed
  entered := by rw [hsame.entered, hsame.accepted, h.entered]
  functions := by
    rw [hsame.entered, hsame.finished]
    exact h.functions.trans
      ((functions_congr hlive fun t _ => congrFun hsame.threads t).symm.append_left _)

-- ---------------------------------------------------------------------------
-- Switching
-- ---------------------------------------------------------------------------

/-- The thread differs at most in what its wrapper does not decide. -/
structure SameJob (thread thread' : Thread Fn) : Prop where
  wrapper : thread'.wrapper = thread.wrapper
  entry : thread'.entry = thread.entry
  bound : thread'.bound = thread.bound
  started : thread.started = true → thread'.started = true

theorem InvOn.setThread {s : Sys Fn Cb} (h : InvOn n s cpu)
    (hjob : SameJob (s.threads t) thread)
    (hidle : t = n → thread.started = true → thread.canYield = false) :
    InvOn n (s.setThread t thread) cpu := by
  have hsame (u : Nat) : SameJob (s.threads u) ((s.setThread t thread).threads u) := by
    rcases eq_or_ne u t with rfl | hne
    · simpa only [Sys.setThread, Function.update_self] using hjob
    · simp only [Sys.setThread, Function.update_of_ne hne]
      exact ⟨rfl, rfl, rfl, id⟩
  constructor
  case died => exact h.died
  case places => exact h.places
  case queue => exact h.queue
  case idleReady => exact h.idleReady
  case idle => exact fun u hu => (hsame u).wrapper ▸ h.idle u hu
  case idleStays =>
    rcases eq_or_ne n t with rfl | hne
    · simp only [Sys.setThread, Function.update_self]
      exact hidle rfl
    · simp only [Sys.setThread, Function.update_of_ne hne]
      exact h.idleStays
  case main => exact ⟨h.main.1, (hsame 0).wrapper.trans h.main.2⟩
  case started => exact fun u hu hne => (hsame u).started (h.started u hu hne)
  case wrapped =>
    intro u hu
    have hwrapped := h.wrapped u hu
    constructor
    case current => exact (hsame u).wrapper ▸ (hsame u).bound ▸ hwrapped.current
    case state => exact (hsame u).wrapper ▸ (hsame u).bound ▸ hwrapped.state
    case main => exact (hsame u).wrapper ▸ (hsame u).bound ▸ (hsame u).entry ▸ hwrapped.main
    case left => exact (hsame u).bound ▸ hwrapped.left
  case blockers =>
    intro p
    have heq : (s.setThread t thread).boundTo cpu p = s.boundTo cpu p := by
      unfold Sys.boundTo
      simp only [(hsame _).bound]
      rfl
    rw [heq]
    exact h.blockers p
  case forward => exact h.forward
  case passed => exact h.passed
  case entered => exact h.entered
  case functions =>
    have heq : (s.setThread t thread).functions cpu = s.functions cpu := by
      unfold Sys.functions
      simp only [(hsame _).entry]
      rfl
    rw [heq]
    exact h.functions

theorem InvOn.switch {s : Sys Fn Cb} (h : InvOn n s [t]) : Inv n (s.switchToThread t) := by
  have hcurrent : InvOn n { s with current := t } [t] :=
    h.move ⟨rfl, rfl, rfl, rfl, rfl, rfl, rfl, rfl⟩ (.refl _) h.idleReady h.queue
  have hlive : t ∈ s.live [t] := List.mem_cons_self
  unfold Sys.switchToThread
  dsimp only
  split
  · exact ⟨hcurrent, ‹_›⟩
  · rename_i hfresh
    -- only the idle thread is switched to before it was entered
    have ht : t = n := by
      by_contra hne
      exact hfresh (h.started t hlive hne)
    have hwrapper : (s.threads t).wrapper = .idle := (h.idle t hlive).mpr ht
    rw [hwrapper]
    refine ⟨hcurrent.setThread ⟨hwrapper.symm, rfl, rfl, fun _ => rfl⟩ fun _ _ => rfl, ?_⟩
    simp only [Sys.setThread, Function.update_self]

theorem InvOn.schedule {s : Sys Fn Cb} (h : InvOn n s []) : Inv n (s.schedule none) := by
  have hready := h.idleReady
  unfold Sys.schedule
  cases hrunnable : s.runnable with
  | nil =>
    rw [hrunnable] at hready
    exact absurd hready List.not_mem_nil
  | cons t rest =>
    refine InvOn.switch (h.move ⟨rfl, rfl, rfl, rfl, rfl, rfl, rfl, rfl⟩ ?_ ?_ h.queue)
    · unfold Sys.live
      rw [hrunnable]
      exact .refl _
    · rwa [hrunnable] at hready

theorem InvOn.schedule_some {s : Sys Fn Cb} (h : InvOn n s [t, s.current]) :
    Inv n (s.schedule (some t)) := by
  refine InvOn.switch (h.move ⟨rfl, rfl, rfl, rfl, rfl, rfl, rfl, rfl⟩ (.refl _) ?_ h.queue)
  have hready := h.idleReady
  simp only [List.mem_append, List.mem_cons, List.not_mem_nil, or_false] at hready ⊢
  tauto

-- ---------------------------------------------------------------------------
-- Timers
-- ---------------------------------------------------------------------------

theorem waitingIn_push (h : queued'.Perm (tocb :: queued)) :
    (waitingIn queued').Perm (tocb.thread?.toList ++ waitingIn queued) := by
  have hperm := h.filterMap Tocb.thread?
  rw [List.filterMap_cons] at hperm
  cases htocb : tocb.thread? with
  | none => rwa [htocb] at hperm
  | some t => rwa [htocb] at hperm

theorem Inv.current_ne {s : Sys Fn Cb} (h : Inv n s)
    (hyield : (s.threads s.current).canYield = true) : s.current ≠ n := by
  intro heq
  have hrunning := h.running
  rw [heq] at hyield hrunning
  rw [h.idleStays hrunning] at hyield
  exact nomatch hyield

theorem InvOn.setTimers {s : Sys Fn Cb} (h : InvOn n s cpu) {timers : Timer.State Tocb}
    (hlive : (cpu' ++ (s.runnable ++ waitingIn timers.tq.queued)).Perm (s.live cpu))
    (hready : n ∈ cpu' ++ s.runnable) (hqueue : WellFormed timers.expiration timers.tq) :
    InvOn n { s with timers := timers } cpu' :=
  h.move ⟨rfl, rfl, rfl, rfl, rfl, rfl, rfl, rfl⟩ hlive hready hqueue

theorem InvOn.sched_refused {s : Sys Fn Cb} (h : InvOn n s cpu) (htime : InTime now us)
    (hrefused : Refused s.timers now us) (hnew : tocb ∉ s.timers.tq.queued) :
    InvOn n { s with timers := (timerSchedCallback s.timers now tocb us).2 } cpu := by
  obtain ⟨-, htq, hexp⟩ := Timer.sched_refused htime.2.2 htime.1 htime.2.1 hrefused
  refine h.setTimers ?_ h.idleReady ?_
  · rw [htq]
    exact .refl _
  · rw [htq]
    exact h.queue.congr fun p hp => hexp p fun heq => hnew (heq ▸ hp)

theorem Inv.not_waiting {s : Sys Fn Cb} (h : Inv n s) : .thread s.current ∉ s.timers.tq.queued := by
  intro hmem
  have hwaiting : s.current ∈ s.waiting := List.mem_filterMap.mpr ⟨_, hmem, rfl⟩
  have hnodup := (List.nodup_append.mp h.nodup).1
  exact (List.nodup_cons.mp hnodup).1 (List.mem_append_right s.runnable hwaiting)

theorem InvOn.wait {s : Sys Fn Cb} (h : InvOn n s [t]) (hne : t ≠ n) {timers : Timer.State Tocb}
    (hqueue : WellFormed timers.expiration timers.tq)
    (hperm : timers.tq.queued.Perm (.thread t :: s.timers.tq.queued)) :
    Inv n ({ s with timers := timers }.schedule none) := by
  refine InvOn.schedule (h.setTimers ?_ ?_ hqueue)
  · exact ((waitingIn_push hperm).append_left s.runnable).trans List.perm_middle
  · exact (List.mem_cons.mp h.idleReady).resolve_left (Ne.symm hne)

theorem Inv.threadYieldMicroseconds {s : Sys Fn Cb} (h : Inv n s) (htime : InTime now us) :
    Inv n (s.threadYieldMicroseconds now us) := by
  unfold Sys.threadYieldMicroseconds
  split
  · exact h
  · rename_i hyield
    have hne := h.current_ne (by simpa using hyield)
    dsimp only
    by_cases hrefused : Refused s.timers now us
    · rw [if_pos (by rw [(sched_refused htime.2.2 htime.1 htime.2.1 hrefused).1]; decide)]
      exact ⟨h.toInvOn.sched_refused htime hrefused h.not_waiting, h.running⟩
    · obtain ⟨hret, -, hqueue, hperm⟩ := sched_accepted htime.1 hrefused h.queue h.not_waiting
      rw [if_neg (by rw [hret]; decide)]
      exact h.toInvOn.wait hne hqueue hperm

theorem Inv.timerSchedCallback {s : Sys Fn Cb} (h : Inv n s) (htime : InTime now us)
    (hnew : .client c ∉ s.timers.tq.queued) :
    Inv n { s with timers := (Timer.timerSchedCallback s.timers now (.client c) us).2 } := by
  by_cases hrefused : Refused s.timers now us
  · exact ⟨h.toInvOn.sched_refused htime hrefused hnew, h.running⟩
  · obtain ⟨-, -, hqueue, hperm⟩ := sched_accepted htime.1 hrefused h.queue hnew
    refine ⟨h.toInvOn.setTimers ?_ h.idleReady hqueue, h.running⟩
    exact ((waitingIn_push hperm).append_left s.runnable).append_left [s.current]

theorem Inv.timersRun {s : Sys Fn Cb} (h : Inv n s) (now : Int) : Inv n (s.timersRun now) := by
  unfold Sys.timersRun
  dsimp only
  cases hpick : (timerQueueExpired s.timers.expiration s.timers.tq now).1 with
  | none =>
    dsimp only
    rw [(expired_none h.queue hpick).2]
    exact h
  | some tocb =>
    obtain ⟨-, -, -, hqueue, hperm⟩ := expired_some h.queue hpick
    have hwaiting := ((waitingIn_push hperm).symm.append_left s.runnable).append_left [s.current]
    cases tocb with
    | client c => exact ⟨h.toInvOn.setTimers hwaiting h.idleReady hqueue, h.running⟩
    | thread t =>
      refine InvOn.schedule_some (h.toInvOn.setTimers ?_ ?_ hqueue)
      · exact (@List.perm_middle _ _ (s.current :: s.runnable) _).symm.trans hwaiting
      · exact List.mem_cons_of_mem _ h.idleReady

-- ---------------------------------------------------------------------------
-- Starting and ending
-- ---------------------------------------------------------------------------

theorem boundTo_cons (s : Sys Fn Cb) (t : Nat) (cpu : List Nat) (p : Phase) :
    s.boundTo (t :: cpu) p = s.boundTo cpu p + if (s.threads t).bound = some p then 1 else 0 := by
  unfold Sys.boundTo Sys.live
  rw [List.cons_append, List.countP_cons]
  simp only [decide_eq_true_eq]

theorem functions_cons (s : Sys Fn Cb) (t : Nat) (cpu : List Nat) :
    s.functions (t :: cpu) = (s.threads t).entry.toList ++ s.functions cpu := by
  unfold Sys.functions Sys.live
  rw [List.cons_append, List.filterMap_cons]
  cases (s.threads t).entry <;> rfl

/-- The boot state machine has moved on under the live threads. -/
theorem Wrapped.of_machine {boot boot' : Machine Cb} {thread : Thread Fn} (h : Wrapped boot thread)
    (hcurrent : thread.wrapper = .blockCurrent → boot'.current = boot.current)
    (hran : ∀ p, boot.control = .stopped ∨ boot.Ran p → boot'.control = .stopped ∨ boot'.Ran p)
    (hleft : ∀ p, thread.bound = some p → .left p ∈ boot'.log → .left p ∈ boot.log) :
    Wrapped boot' thread where
  current hw := by rw [hcurrent hw]; exact h.current hw
  state p hw := (h.state p hw).imp_right fun hnone => ⟨hnone.1, hran p hnone.2⟩
  main := h.main
  left p hp hmem := h.left p hp (hleft p hp hmem)

theorem Wrapped.of_counts {boot boot' : Machine Cb} {thread : Thread Fn} (h : Wrapped boot thread)
    (hcounts : Counts boot p ret boot' f) : Wrapped boot' thread :=
  h.of_machine (fun _ => hcounts.current)
    (fun _ hq => hq.imp (hcounts.control.trans ·) hcounts.ran_iff.mpr)
    fun _ _ hq => (hcounts.left _).mp hq

/-- What `thread_run` has done when the wrapper gets to the function. -/
def Sys.begun (s : Sys Fn Cb) (t : Nat) (rest : List Nat) (func : Fn) (wrapper : Wrapper)
    (p : Phase) : Sys Fn Cb :=
  let r := bootStateBlock s.boot p
  let bound := if r.1 = 0 then some p else none
  { s with
    threads := Function.update s.threads t ⟨true, some func, wrapper, true, bound⟩
    free := rest
    boot := r.2
    accepted := s.accepted ++ [func]
    entered := s.entered ++ [func] }

theorem InvOn.wrapped_begun {s : Sys Fn Cb} (h : InvOn n s cpu)
    (hp : wrapper = .blockCurrent ∧ p = s.boot.current ∨ wrapper = .blockState p)
    (hcontrol : s.boot.control ≠ .stopped) :
    Wrapped (bootStateBlock s.boot p).2 (⟨true, some func, wrapper, true,
      if (bootStateBlock s.boot p).1 = 0 then some p else none⟩ : Thread Fn) := by
  have hcounts := bootStateBlock_counts s.boot p
  constructor
  case current =>
    rintro rfl
    rcases hp with ⟨-, rfl⟩ | hw
    · dsimp only
      rw [if_pos (block_current _), hcounts.current]
    · exact nomatch hw
  case state =>
    rintro _ rfl
    rcases hp with ⟨hw, -⟩ | hw
    · exact nomatch hw
    · obtain rfl := Wrapper.blockState.inj hw
      dsimp only
      split
      · exact Or.inl rfl
      · exact Or.inr ⟨rfl, Or.inr (hcounts.ran_iff.mpr (block_ran ‹_›))⟩
  case main =>
    rintro (rfl | rfl) <;> rcases hp with ⟨hw, -⟩ | hw <;> exact nomatch hw
  case left =>
    intro q hq hleft
    dsimp only at hq
    split at hq
    · cases hq
      exact block_not_ran ‹_› (h.passed hcontrol _ ((hcounts.left _).mp hleft))
    · exact nomatch hq

theorem InvOn.enter {s : Sys Fn Cb} (h : InvOn n s cpu) (hfree : s.free = t :: rest)
    (hp : wrapper = .blockCurrent ∧ p = s.boot.current ∨ wrapper = .blockState p)
    (hcontrol : s.boot.control ≠ .stopped) (func : Fn) :
    InvOn n (s.begun t rest func wrapper p) (t :: cpu) := by
  have hcounts := bootStateBlock_counts s.boot p
  have hnot : t ∉ s.live cpu := h.not_live (by rw [hfree]; exact List.mem_cons_self)
  have hidle : n ∈ s.live cpu := by
    have hready := h.idleReady
    simp only [Sys.live, List.mem_append] at hready ⊢
    tauto
  have htn : t ≠ n := fun heq => hnot (heq ▸ hidle)
  have hother {u : Nat} (hu : u ∈ s.live cpu) :
      (s.begun t rest func wrapper p).threads u = s.threads u :=
    Function.update_of_ne (fun heq : u = t => hnot (heq ▸ hu)) _ _
  have hself : (s.begun t rest func wrapper p).threads t =
      ⟨true, some func, wrapper, true, if (bootStateBlock s.boot p).1 = 0 then some p else none⟩ :=
    Function.update_self ..
  have hlive : ((s.begun t rest func wrapper p).live cpu).Perm (s.live cpu) := .refl _
  constructor
  case died => exact h.died
  case places =>
    refine List.Perm.trans ?_ h.places
    rw [hfree]
    exact List.perm_middle.symm
  case queue => exact h.queue
  case idleReady => exact List.mem_cons_of_mem _ h.idleReady
  case idle =>
    intro u hu
    rcases List.mem_cons.mp hu with rfl | hu
    · rw [hself]
      refine iff_of_false ?_ htn
      rcases hp with ⟨rfl, -⟩ | rfl <;> nofun
    · rw [hother hu]
      exact h.idle u hu
  case idleStays =>
    rw [hother hidle]
    exact h.idleStays
  case main =>
    rw [hother h.main.1]
    exact ⟨List.mem_cons_of_mem _ h.main.1, h.main.2⟩
  case started =>
    intro u hu hne
    rcases List.mem_cons.mp hu with rfl | hu
    · rw [hself]
    · rw [hother hu]
      exact h.started u hu hne
  case wrapped =>
    intro u hu
    rcases List.mem_cons.mp hu with rfl | hu
    · rw [hself]
      exact h.wrapped_begun hp hcontrol
    · rw [hother hu]
      exact (h.wrapped u hu).of_counts hcounts
  case blockers =>
    intro q
    have hsame : (s.begun t rest func wrapper p).boundTo cpu q = s.boundTo cpu q :=
      boundTo_congr hlive (fun u hu => hother hu) q
    have hq := h.blockers q
    rw [boundTo_cons, hself, hsame]
    show s.held q + _ ≤ ((bootStateBlock s.boot p).2.phases q).blockers
    rcases eq_or_ne q p with rfl | hne
    · rcases eq_or_ne (bootStateBlock s.boot q).1 0 with hret | hret
      · rw [hcounts.counted hret, if_pos (if_pos hret)]
        omega
      · rw [hcounts.refused hret, if_neg hret, if_neg nofun]
        exact hq
    · rw [hcounts.others q hne, if_neg]
      · exact hq
      · split
        · exact fun heq => hne (Option.some.inj heq).symm
        · nofun
  case forward => exact hcounts.forward h.forward
  case passed =>
    intro hrunning q hq
    exact hcounts.ran_iff.mpr (h.passed hcontrol q ((hcounts.left q).mp hq))
  case entered => exact congrArg (· ++ [func]) h.entered
  case functions =>
    have hsame : ((s.begun t rest func wrapper p).functions cpu).Perm (s.functions cpu) :=
      functions_congr hlive fun u hu => hother hu
    rw [functions_cons, hself]
    refine (h.functions.append_right [func]).trans ?_
    refine List.Perm.trans ?_ ((hsame.symm.cons func).append_left _)
    rw [List.append_assoc]
    exact (List.perm_append_singleton func _).append_left _

theorem threadRun_eq {s : Sys Fn Cb} (hyield : (s.threads s.current).canYield = true)
    (hfree : s.free = t :: rest)
    (hp : wrapper = .blockCurrent ∧ p = s.boot.current ∨ wrapper = .blockState p) (func : Fn) :
    s.threadRun func wrapper =
      { s.begun t rest func wrapper p with current := t, runnable := s.current :: s.runnable } := by
  rcases hp with ⟨rfl, rfl⟩ | rfl <;>
    simp [Sys.threadRun, Sys.schedule, Sys.switchToThread, Sys.setThread, Sys.enter, Sys.begun,
      hyield, hfree] <;> rfl

theorem Inv.threadRun {s : Sys Fn Cb} (h : Inv n s) (hcontrol : s.boot.control ≠ .stopped)
    (hp : wrapper = .blockCurrent ∧ p = s.boot.current ∨ wrapper = .blockState p) (func : Fn) :
    Inv n (s.threadRun func wrapper) := by
  cases hyield : (s.threads s.current).canYield with
  | false =>
    have heq : s.threadRun func wrapper = s := by simp [Sys.threadRun, hyield]
    rwa [heq]
  | true =>
    cases hfree : s.free with
    | nil =>
      have heq : s.threadRun func wrapper = s := by simp [Sys.threadRun, hyield, hfree]
      rwa [heq]
    | cons t rest =>
      have hbegun := h.toInvOn.enter hfree hp hcontrol func
      rw [threadRun_eq hyield hfree hp]
      refine ⟨hbegun.move ⟨rfl, rfl, rfl, rfl, rfl, rfl, rfl, rfl⟩ (.refl _) ?_ hbegun.queue, ?_⟩
      · have hready := hbegun.idleReady
        simp only [List.mem_append, List.mem_cons, List.not_mem_nil, or_false] at hready ⊢
        tauto
      · simp [Sys.begun]

/-- The blockers that the wrapper of a thread gives back when its function returns. -/
theorem InvOn.unblocked {s : Sys Fn Cb} (h : InvOn n s [t])
    (hbound : (s.threads t).bound = some p ∨ (s.threads t).bound = none ∧ s.boot.Ran p)
    (q : Phase) :
    s.held q + s.boundTo [] q ≤ ((bootStateUnblock s.boot p).2.phases q).blockers := by
  have hcounts := bootStateUnblock_counts s.boot p
  have hq := h.blockers q
  rw [boundTo_cons] at hq
  rcases eq_or_ne q p with rfl | hne
  · rcases eq_or_ne (bootStateUnblock s.boot q).1 0 with hret | hret
    · rcases hbound with hsome | ⟨-, hran⟩
      · rw [if_pos hsome] at hq
        rw [hcounts.counted hret]
        omega
      · exact absurd hret (unblock_ran hran)
    · rw [hcounts.refused hret]
      omega
  · rw [hcounts.others q hne]
    omega

theorem InvOn.terminate {s : Sys Fn Cb} (h : InvOn n s [t]) (hmain : t ≠ 0) (hidle : t ≠ n)
    {boot : Machine Cb} (hforward : Forward boot)
    (hpassed : boot.control ≠ .stopped → ∀ p, .left p ∈ boot.log → boot.Ran p)
    (hwrapped : ∀ u ∈ s.live [], Wrapped boot (s.threads u))
    (hblockers : ∀ p, s.held p + s.boundTo [] p ≤ (boot.phases p).blockers) :
    Inv n ({ s with
      boot := boot
      finished := s.finished ++ (s.threads t).entry.toList
      free := t :: s.free }.schedule none) := by
  refine InvOn.schedule ⟨h.died, ?_, h.queue, ?_, fun u hu => h.idle u ?_, h.idleStays,
    ⟨?_, h.main.2⟩, fun u hu => h.started u ?_, hwrapped, hblockers, hforward, hpassed, h.entered,
      ?_⟩
  · exact List.perm_middle.trans h.places
  · exact (List.mem_cons.mp h.idleReady).resolve_left (Ne.symm hidle)
  · exact List.mem_cons_of_mem _ hu
  · exact (List.mem_cons.mp h.main.1).resolve_left (Ne.symm hmain)
  · exact List.mem_cons_of_mem _ hu
  · have hfunctions := h.functions
    rw [functions_cons, ← List.append_assoc] at hfunctions
    exact hfunctions

theorem Inv.terminateThread {s : Sys Fn Cb} (h : Inv n s) (hcontrol : s.boot.control ≠ .stopped)
    (hmain : s.current ≠ 0) (hidle : (s.threads s.current).wrapper ≠ .idle) :
    Inv n s.terminateThread := by
  have hlive : s.current ∈ s.live [s.current] := List.mem_cons_self
  have hne : s.current ≠ n := fun heq => hidle ((h.idle _ hlive).mpr heq)
  have hwrapped := h.wrapped _ hlive
  -- a wrapper that gives its block back
  have hunblock {p : Phase} (hbound : (s.threads s.current).bound = some p ∨
      (s.threads s.current).bound = none ∧ s.boot.Ran p) :=
    have hcounts := bootStateUnblock_counts s.boot p
    h.toInvOn.terminate hmain hne (hcounts.forward h.forward)
      (fun _ q hq => hcounts.ran_iff.mpr (h.passed hcontrol q ((hcounts.left q).mp hq)))
      (fun u hu => (h.wrapped u (List.mem_cons_of_mem _ hu)).of_counts hcounts)
      (h.toInvOn.unblocked hbound)
  unfold Sys.terminateThread
  dsimp only
  cases hwrapper : (s.threads s.current).wrapper with
  | idle => exact absurd hwrapper hidle
  | main =>
    refine h.toInvOn.terminate hmain hne h.forward h.passed
      (fun u hu => h.wrapped u (List.mem_cons_of_mem _ hu)) fun p => ?_
    have hp := h.blockers p
    rw [boundTo_cons] at hp
    show _ ≤ (s.boot.phases p).blockers
    omega
  | blockCurrent => exact hunblock (Or.inl (hwrapped.current hwrapper))
  | blockState p =>
    exact hunblock ((hwrapped.state p hwrapper).imp_right fun hnone =>
      ⟨hnone.1, hnone.2.resolve_left hcontrol⟩)

-- ---------------------------------------------------------------------------
-- The other calls
-- ---------------------------------------------------------------------------

theorem InvOn.blocked {s : Sys Fn Cb} (h : InvOn n s cpu) (ht : t ∈ s.live cpu)
    (hbound : (s.threads t).bound = some p) : (s.boot.phases p).blockers ≠ 0 := by
  have hpos : 0 < s.boundTo cpu p := List.countP_pos_iff.mpr ⟨t, ht, by simpa using hbound⟩
  have hp := h.blockers p
  omega

theorem Inv.setBoot {s : Sys Fn Cb} (h : Inv n s) {boot : Machine Cb} {held : Phase → Nat}
    (hforward : Forward boot)
    (hpassed : boot.control ≠ .stopped → ∀ p, .left p ∈ boot.log → boot.Ran p)
    (hwrapped : ∀ t ∈ s.live [s.current], Wrapped boot (s.threads t))
    (hblockers : ∀ p, held p + s.boundTo [s.current] p ≤ (boot.phases p).blockers) :
    Inv n { s with boot := boot, held := held } :=
  ⟨⟨h.died, h.places, h.queue, h.idleReady, h.idle, h.idleStays, h.main, h.started, hwrapped,
    hblockers, hforward, hpassed, h.entered, h.functions⟩, h.running⟩

/-- A call on the counts, with what it does to the client's own blocks. -/
theorem Inv.counts {s : Sys Fn Cb} (h : Inv n s) (hcontrol : s.boot.control ≠ .stopped)
    (hcounts : Counts s.boot p ret boot f)
    (hheld : ∀ b, s.held p + b ≤ (s.boot.phases p).blockers →
      held p + b ≤ (boot.phases p).blockers) (hothers : ∀ q, q ≠ p → held q = s.held q) :
    Inv n { s with boot := boot, held := held } := by
  refine h.setBoot (hcounts.forward h.forward)
    (fun _ q hq => hcounts.ran_iff.mpr (h.passed hcontrol q ((hcounts.left q).mp hq)))
    (fun t ht => (h.wrapped t ht).of_counts hcounts) fun q => ?_
  rcases eq_or_ne q p with rfl | hne
  · exact hheld _ (h.blockers q)
  · rw [hothers q hne, hcounts.others q hne]
    exact h.blockers q

theorem Inv.bootAct {s : Sys Fn Cb} (h : Inv n s) (hcontrol : s.boot.control ≠ .stopped)
    {a : BootAction Cb} (hown : ∀ p, a = .unblock p → 0 < s.held p) : Inv n (s.bootAct a) := by
  unfold Sys.bootAct
  cases a with
  | sched cb p =>
    have hcounts := bootStateSchedCallback_counts s.boot cb p
    refine h.counts hcontrol hcounts (fun b hb => ?_) fun _ _ => rfl
    rcases eq_or_ne (bootStateSchedCallback s.boot cb p).1 0 with hret | hret
    · exact hb.trans_eq (hcounts.counted hret).symm
    · exact hb.trans_eq (hcounts.refused hret).symm
  | block p =>
    have hcounts := bootStateBlock_counts s.boot p
    refine h.counts hcontrol hcounts (fun b hb => ?_) fun q hne => ?_
    · dsimp only [act]
      split
      · rename_i hret
        rw [hcounts.counted hret, Function.update_self]
        omega
      · rename_i hret
        exact hb.trans_eq (hcounts.refused hret).symm
    · dsimp only
      split
      · exact Function.update_of_ne hne _ _
      · rfl
  | unblock p =>
    have hcounts := bootStateUnblock_counts s.boot p
    have hpos := hown p rfl
    refine h.counts hcontrol hcounts (fun b hb => ?_) fun q hne => ?_
    · dsimp only [act]
      split
      · rename_i hret
        rw [hcounts.counted hret, Function.update_self]
        omega
      · rename_i hret
        exact hb.trans_eq (hcounts.refused hret).symm
    · dsimp only
      split
      · exact Function.update_of_ne hne _ _
      · rfl
  | ret wake =>
    have hpasses := resume_passes h.forward wake
    have hbound {t : Nat} (ht : t ∈ s.live [s.current]) {p : Phase}
        (hp : (s.threads t).bound = some p) := h.toInvOn.blocked ht hp
    refine h.setBoot hpasses.forward (fun hrunning p hp => ?_) (fun t ht => ?_) fun p => ?_
    · exact (hpasses.passed hrunning p hp).elim
        (fun hold => hpasses.ran hrunning p (h.passed hcontrol p hold)) id
    · have hwrapped := h.wrapped t ht
      refine hwrapped.of_machine (fun hw => ?_) (fun p hp => ?_) fun p hp hleft => ?_
      · exact hpasses.current.resolve_right (hbound ht (hwrapped.current hw))
      · by_cases hstopped : (resume s.boot wake).control = .stopped
        · exact Or.inl hstopped
        · exact Or.inr (hpasses.ran hstopped p (hp.resolve_left hcontrol))
      · exact (hpasses.left p hleft).resolve_right fun hgone => hbound ht hp hgone.2
    · rw [show (act s.boot (.ret wake)).phases p = (resume s.boot wake).phases p from rfl,
        hpasses.blockers]
      exact h.blockers p

theorem Inv.setCanYield {s : Sys Fn Cb} (h : Inv n s) {canYield : Bool}
    (hidle : (s.threads s.current).wrapper = .idle → canYield = false) :
    Inv n (s.setCanYield canYield) := by
  have hlive : s.current ∈ s.live [s.current] := List.mem_cons_self
  refine ⟨h.toInvOn.setThread ⟨rfl, rfl, rfl, id⟩ fun heq _ => ?_, ?_⟩
  · exact hidle ((h.idle _ hlive).mpr heq)
  · simpa [Sys.setCanYield, Sys.setThread] using h.running

theorem Inv.step {s : Sys Fn Cb} (h : Inv n s) (hallowed : Allowed s a) :
    Inv n (CoopThreads.step s a) := by
  obtain ⟨hcontrol, hallowed⟩ := hallowed
  cases a with
  | threadRun func => exact h.threadRun hcontrol (Or.inl ⟨rfl, rfl⟩) func
  | threadRunUntil func p => exact h.threadRun hcontrol (Or.inr rfl) func
  | threadYieldMicroseconds now us => exact h.threadYieldMicroseconds hallowed
  | ret => exact h.terminateThread hcontrol hallowed.1 hallowed.2
  | timersRun now => exact h.timersRun now
  | timerSchedCallback now c us => exact h.timerSchedCallback hallowed.1 hallowed.2
  | threadCooperate => exact h.setCanYield fun heq => absurd heq hallowed
  | threadPreventCoop => exact h.setCanYield fun _ => rfl
  | boot a =>
    refine h.bootAct hcontrol fun p hp => ?_
    subst hp
    exact hallowed

-- ---------------------------------------------------------------------------
-- Every run
-- ---------------------------------------------------------------------------

/-- What `threads_initialize` leaves; the boot state machine has left no phase yet. -/
theorem start_inv {n : Nat} (hn : 0 < n) (queue : Nat → Tocb) (expiration : Tocb → Int) :
    Inv n (threadsInitialize n queue expiration Boot.start : Sys Fn Cb) := by
  have hne : n ≠ 0 := Nat.pos_iff_ne_zero.mp hn
  have hmain : (threadsInitialize n queue expiration Boot.start : Sys Fn Cb).threads 0 =
      ⟨true, none, .main, true, none⟩ := rfl
  have hidle : (threadsInitialize n queue expiration Boot.start : Sys Fn Cb).threads n =
      ⟨true, none, .idle, false, none⟩ := (if_neg hne).trans (if_pos rfl)
  have hlive (t : Nat)
      (ht : t ∈ (threadsInitialize n queue expiration Boot.start : Sys Fn Cb).live [0]) :
      t = 0 ∨ t = n := by
    rcases List.mem_cons.mp ht with h0 | ht
    · exact Or.inl h0
    · exact Or.inr (List.mem_singleton.mp ht)
  refine ⟨?_, congrArg Thread.started hmain⟩
  constructor
  case died => rfl
  case places =>
    obtain ⟨k, rfl⟩ := Nat.exists_eq_add_of_le' hn
    have hrange : List.range (k + 1 + 1) = 0 :: (List.range' 1 k ++ [k + 1]) := by
      rw [List.range_eq_range', List.range'_succ, List.range'_1_concat, Nat.add_comm 1 k]
    rw [hrange]
    exact ((List.reverse_perm _).cons _).cons _ |>.trans
      ((List.perm_append_singleton _ _).symm.cons 0)
  case queue => exact ⟨fun i _ hi => absurd hi (Nat.not_lt_zero i), Nat.zero_le _, List.nodup_nil⟩
  case idleReady => exact List.mem_cons_of_mem _ List.mem_cons_self
  case idle =>
    intro t ht
    rcases hlive t ht with rfl | rfl
    · rw [hmain]
      exact iff_of_false nofun (Ne.symm hne)
    · rw [hidle]
      exact iff_of_true rfl rfl
  case idleStays =>
    rw [hidle]
    nofun
  case main => exact ⟨List.mem_cons_self, congrArg Thread.wrapper hmain⟩
  case started =>
    intro t ht htn
    obtain rfl := (hlive t ht).resolve_right htn
    rw [hmain]
  case wrapped =>
    intro t ht
    rcases hlive t ht with rfl | rfl
    · rw [hmain]
      exact ⟨nofun, nofun, fun _ => ⟨rfl, rfl⟩, nofun⟩
    · rw [hidle]
      exact ⟨nofun, nofun, fun _ => ⟨rfl, rfl⟩, nofun⟩
  case blockers =>
    intro p
    have hbound :
        (threadsInitialize n queue expiration Boot.start : Sys Fn Cb).boundTo [0] p = 0 := by
      refine List.countP_eq_zero.mpr fun t ht => ?_
      rcases hlive t ht with rfl | rfl
      · simp [hmain]
      · simp [hidle]
    exact (Nat.zero_add _).trans_le hbound.le
  case forward => nofun
  case passed =>
    intro _ p hp
    simp [threadsInitialize, Boot.start] at hp
  case entered => rfl
  case functions =>
    have hnone :
        (threadsInitialize n queue expiration Boot.start : Sys Fn Cb).functions [0] = [] := by
      refine List.filterMap_eq_nil_iff.mpr fun t ht => ?_
      rcases hlive t ht with rfl | rfl
      · rw [hmain]
      · rw [hidle]
    exact List.Perm.of_eq hnone.symm

theorem Reachable.inv {init s : Sys Fn Cb} (h : Reachable init s) (hinit : Inv n init) :
    Inv n s := by
  induction h with
  | init => exact hinit
  | step _ hallowed ih => exact ih.step hallowed

/-- What the threads of a run are promised. -/
structure ThreadsRight (n : Nat) (s : Sys Fn Cb) : Prop where
  alive : s.died = false
  places : (s.current :: (s.runnable ++ s.waiting) ++ s.free).Perm (List.range (n + 1))
  ready : s.current ≠ n → s.runnable ≠ []
  once : s.entered = s.accepted ∧ s.entered.Perm (s.finished ++ s.functions [s.current])
  blocked : ∀ t ∈ s.live [s.current], ∀ p, (s.threads t).bound = some p →
    .left p ∉ s.boot.log
  current : ∀ t ∈ s.live [s.current], (s.threads t).wrapper = .blockCurrent →
    (s.threads t).bound = some s.boot.current
  state : ∀ t ∈ s.live [s.current], ∀ p, (s.threads t).wrapper = .blockState p →
    (s.threads t).bound = some p ∨
      (s.threads t).bound = none ∧ (s.boot.control = .stopped ∨ s.boot.Ran p)

theorem Inv.right {s : Sys Fn Cb} (h : Inv n s) : ThreadsRight n s where
  alive := h.died
  places := h.places
  ready hne hnil := by
    have hready := h.idleReady
    rw [hnil, List.append_nil] at hready
    exact hne (List.mem_singleton.mp hready).symm
  once := ⟨h.entered, h.functions⟩
  blocked t ht := (h.wrapped t ht).left
  current t ht := (h.wrapped t ht).current
  state t ht := (h.wrapped t ht).state

/-- No order of calls loses a thread, a function or a block. -/
theorem threads_right {n : Nat} (hn : 0 < n) (queue : Nat → Tocb) (expiration : Tocb → Int)
    {s : Sys Fn Cb} (h : Reachable (threadsInitialize n queue expiration Boot.start) s) :
    ThreadsRight n s := (h.inv (start_inv hn queue expiration)).right

end Laws

def oneThread : Sys Unit Unit := threadsInitialize 2 (fun _ => .client 0) (fun _ => 0) Boot.start

theorem threads_right_yields :
    ThreadsRight 2 (step (step oneThread (.threadRun ())) (.threadYieldMicroseconds 0 10)) := by
  refine threads_right (by decide) _ _ ((Reachable.init.step ?_).step ?_)
  · exact ⟨by decide, trivial⟩
  · exact ⟨by decide, by decide, by decide, by decide⟩

example :
    (step (step oneThread (.threadRun ())) (.threadYieldMicroseconds 0 10)).waiting = [1] := by
  decide +kernel

end ItxLlama.Coreboot.CoopThreads
