import ItxLlama.Lib.MinHeap
import ItxLlama.Coreboot.TimerQueue
import Mathlib.Data.Int.Order.Basic

/-!
# Every callback once, in time

The queue is a heap on the expirations after every insertion and removal, so
that its head is a minimum. Over a run each scheduling of a callback that was
accepted is matched with one call of it, or the callback is still queued.
-/

namespace ItxLlama.Coreboot.Timer

open Lib.MinHeap Lib.Slots

@[simp] theorem monoTimeCmp_le_zero : monoTimeCmp t1 t2 ≤ 0 ↔ t1 ≤ t2 := by
  unfold monoTimeCmp
  split
  · omega
  · split <;> omega

@[simp] theorem monoTimeCmp_neg : monoTimeCmp t1 t2 < 0 ↔ t1 < t2 := by
  unfold monoTimeCmp
  split
  · omega
  · split <;> omega

@[simp] theorem monoTimeBefore_iff : monoTimeBefore t1 t2 = true ↔ t1 < t2 := by
  simp [monoTimeBefore]

@[simp] theorem monoTimeBefore_false : monoTimeBefore t1 t2 = false ↔ t2 ≤ t1 := by
  rw [← Bool.not_eq_true, monoTimeBefore_iff, not_lt]

-- ---------------------------------------------------------------------------
-- The heap
-- ---------------------------------------------------------------------------

section Queue

variable {Ptr : Type} {expiration : Ptr → Int} {queue : Nat → Ptr}

theorem minChildIndex_none (h : timerQueueMinChildIndex expiration n queue index = none) :
    n ≤ 2 * index + 1 := by
  simp only [timerQueueMinChildIndex] at h
  split at h
  · assumption
  split at h
  · cases h
  split at h <;> cases h

theorem minChildIndex_parent (h : timerQueueMinChildIndex expiration n queue index = some child) :
    parent child = index := by
  unfold parent
  simp only [timerQueueMinChildIndex] at h
  split at h
  · cases h
  split at h
  · cases h
    omega
  split at h
  · cases h
    omega
  · cases h
    omega

theorem minChildIndex_le (h : timerQueueMinChildIndex expiration n queue index = some child)
    (hpos : 0 < i) (hi : i < n) (hpar : parent i = index) :
    expiration (queue child) ≤ expiration (queue i) := by
  have hcases : i = 2 * index + 1 ∨ i = 2 * index + 1 + 1 := by
    unfold parent at hpar
    omega
  simp only [timerQueueMinChildIndex, monoTimeCmp_neg] at h
  split at h
  · cases h
  split at h
  · cases h
    obtain rfl | rfl := hcases
    · exact le_refl _
    · omega
  split at h
  case isTrue hlt =>
    cases h
    obtain rfl | rfl := hcases
    · exact le_refl _
    · exact hlt.le
  case isFalse hle =>
    cases h
    obtain rfl | rfl := hcases
    · exact not_lt.mp hle
    · exact le_refl _

theorem insertLoop_spec (h : UpFrom expiration queue n index) (hi : index < n)
    (htocb : queue index = tocb) :
    IsHeap expiration (insertLoop expiration tocb index queue) n ∧
      (contents (insertLoop expiration tocb index queue) n).Perm (contents queue n) := by
  fun_induction insertLoop expiration tocb index queue with
  | case1 queue =>
    exact ⟨h.isHeap fun hpos => absurd rfl hpos.ne', List.Perm.refl _⟩
  | case2 index queue hne parentIndex up hle =>
    rw [monoTimeCmp_le_zero, ← htocb] at hle
    exact ⟨h.isHeap fun _ => hle, List.Perm.refl _⟩
  | case3 index queue hne parentIndex up hgt ih =>
    rw [monoTimeCmp_le_zero, not_le, ← htocb] at hgt
    have hpos := Nat.pos_of_ne_zero hne
    have hpar : parentIndex < n := Nat.lt_trans (parent_lt hpos) hi
    rw [← htocb, update_update (q := queue)] at ih ⊢
    have hstep := ih (h.step hpos hi hgt) hpar (exchange_left _ _)
    exact ⟨hstep.1, hstep.2.trans (contents_exchange hpar hi)⟩

theorem removeLoop_spec (h : DownFrom expiration queue n index) (hi : 0 < n → index < n)
    (htocb : queue index = tocb) :
    IsHeap expiration (removeLoop expiration tocb n index queue) n ∧
      (contents (removeLoop expiration tocb n index queue) n).Perm (contents queue n) := by
  fun_induction removeLoop expiration tocb n index queue with
  | case1 index queue hnone =>
    have hlast := minChildIndex_none hnone
    refine ⟨h.isHeap fun i hpos hin hpar => ?_, List.Perm.refl _⟩
    unfold parent at hpar
    omega
  | case2 index queue child hsome least hle =>
    rw [monoTimeCmp_le_zero, ← htocb] at hle
    exact ⟨h.isHeap fun i hpos hin hpar => hle.trans (minChildIndex_le hsome hpos hin hpar),
      List.Perm.refl _⟩
  | case3 index queue child hsome least hgt ih =>
    rw [monoTimeCmp_le_zero, not_le, ← htocb] at hgt
    obtain ⟨hlt, hchild⟩ := index_lt_minChildIndex expiration hsome
    have hpos : 0 < child := Nat.zero_lt_of_lt hlt
    rw [← htocb, update_update (q := queue)] at ih ⊢
    have hstep := ih (h.step hpos hchild (minChildIndex_parent hsome) hgt
      fun i hipos hin hpar => minChildIndex_le hsome hipos hin hpar) (fun _ => hchild)
      (exchange_left _ _)
    exact ⟨hstep.1, hstep.2.trans (contents_exchange hchild (Nat.lt_trans hlt hchild))⟩

def TimerQueue.queued (tq : TimerQueue Ptr) : List Ptr := contents tq.queue tq.numEntries

/-- What a caller may rely on: the order, the bound, and no entry twice. -/
structure WellFormed (expiration : Ptr → Int) (tq : TimerQueue Ptr) : Prop where
  isHeap : IsHeap expiration tq.queue tq.numEntries
  bound : tq.numEntries ≤ maxTimerQueueEntries
  nodup : tq.queued.Nodup

theorem timerQueueFull_iff {tq : TimerQueue Ptr} :
    timerQueueFull tq = true ↔ tq.numEntries = maxTimerQueueEntries := decide_eq_true_iff

theorem timerQueueEmpty_iff {tq : TimerQueue Ptr} :
    timerQueueEmpty tq = true ↔ tq.numEntries = 0 := decide_eq_true_iff

theorem length_queued (tq : TimerQueue Ptr) : tq.queued.length = tq.numEntries := by
  simp [TimerQueue.queued]

theorem WellFormed.congr {tq : TimerQueue Ptr} {expiration' : Ptr → Int}
    (h : WellFormed expiration tq) (hkey : ∀ p ∈ tq.queued, expiration' p = expiration p) :
    WellFormed expiration' tq :=
  ⟨h.isHeap.congr_key fun i hi => hkey _ (mem_contents.mpr ⟨i, hi, rfl⟩), h.bound, h.nodup⟩

theorem insert_spec {tq : TimerQueue Ptr} (h : WellFormed expiration tq) (hnew : tocb ∉ tq.queued)
    (hroom : tq.numEntries ≠ maxTimerQueueEntries) :
    (timerQueueInsert expiration tq tocb).1 = 0 ∧
      WellFormed expiration (timerQueueInsert expiration tq tocb).2 ∧
      (timerQueueInsert expiration tq tocb).2.queued.Perm (tocb :: tq.queued) := by
  have hloop := insertLoop_spec (h.isHeap.push tocb) (Nat.lt_succ_self _)
    (Function.update_self tq.numEntries tocb tq.queue)
  have hperm := hloop.2
  rw [contents_push] at hperm
  have hqueued := hperm.trans (List.perm_append_singleton tocb tq.queued)
  rw [timerQueueInsert, if_neg (mt timerQueueFull_iff.mp hroom)]
  exact ⟨rfl, ⟨hloop.1, Nat.lt_of_le_of_ne h.bound hroom,
    hqueued.nodup_iff.mpr (List.nodup_cons.mpr ⟨hnew, h.nodup⟩)⟩, hqueued⟩

theorem insert_full {tq : TimerQueue Ptr} (h : tq.numEntries = maxTimerQueueEntries) :
    timerQueueInsert expiration tq tocb = (-1, tq) := by
  rw [timerQueueInsert, if_pos (timerQueueFull_iff.mpr h)]

theorem removeHead_spec {tq : TimerQueue Ptr} (h : WellFormed expiration tq)
    (hsome : tq.numEntries ≠ 0) :
    WellFormed expiration (timerQueueRemoveHead expiration tq) ∧
      tq.queued.Perm (tq.queue 0 :: (timerQueueRemoveHead expiration tq).queued) := by
  obtain ⟨n, hn⟩ := Nat.exists_eq_succ_of_ne_zero hsome
  have hheap := h.isHeap
  rw [hn] at hheap
  have hdown := hheap.pop
  have hloop := removeLoop_spec hdown id (Function.update_self 0 (tq.queue n) tq.queue)
  have hqueued : tq.queued.Perm (tq.queue 0 :: (timerQueueRemoveHead expiration tq).queued) := by
    unfold TimerQueue.queued timerQueueRemoveHead
    rw [hn]
    exact contents_pop.trans (hloop.2.symm.cons _)
  have hbound := h.bound
  refine ⟨⟨?_, ?_, (List.nodup_cons.mp (hqueued.nodup_iff.mp h.nodup)).2⟩, hqueued⟩
  · unfold timerQueueRemoveHead
    rw [hn]
    exact hloop.1
  · exact (Nat.sub_le _ 1).trans hbound

theorem expired_some {tq : TimerQueue Ptr} (h : WellFormed expiration tq)
    (hpick : (timerQueueExpired expiration tq now).1 = some tocb) :
    expiration tocb ≤ now ∧ tocb ∈ tq.queued ∧ (∀ p ∈ tq.queued, expiration tocb ≤ expiration p) ∧
      WellFormed expiration (timerQueueExpired expiration tq now).2 ∧
      tq.queued.Perm (tocb :: (timerQueueExpired expiration tq now).2.queued) := by
  unfold timerQueueExpired timerQueueHead at hpick ⊢
  by_cases hempty : tq.numEntries = 0
  · rw [if_pos (timerQueueEmpty_iff.mpr hempty)] at hpick
    cases hpick
  rw [if_neg (mt timerQueueEmpty_iff.mp hempty)] at hpick ⊢
  by_cases hbefore : monoTimeBefore now (expiration (tq.queue 0)) = true
  · simp only [hbefore] at hpick
    cases hpick
  · simp only [hbefore] at hpick ⊢
    cases hpick
    rw [Bool.not_eq_true, monoTimeBefore_false] at hbefore
    have hremove := removeHead_spec h hempty
    refine ⟨hbefore, hremove.2.mem_iff.mpr List.mem_cons_self, fun p hp => ?_, hremove⟩
    obtain ⟨i, hi, rfl⟩ := mem_contents.mp hp
    exact h.isHeap.root_le hi

theorem expired_none {tq : TimerQueue Ptr} (h : WellFormed expiration tq)
    (hpick : (timerQueueExpired expiration tq now).1 = none) :
    (∀ p ∈ tq.queued, now < expiration p) ∧ (timerQueueExpired expiration tq now).2 = tq := by
  unfold timerQueueExpired timerQueueHead at hpick ⊢
  by_cases hempty : tq.numEntries = 0
  · rw [if_pos (timerQueueEmpty_iff.mpr hempty)]
    refine ⟨fun p hp => ?_, rfl⟩
    obtain ⟨i, hi, -⟩ := mem_contents.mp hp
    omega
  rw [if_neg (mt timerQueueEmpty_iff.mp hempty)] at hpick ⊢
  by_cases hbefore : monoTimeBefore now (expiration (tq.queue 0)) = true
  · simp only [hbefore]
    refine ⟨fun p hp => ?_, rfl⟩
    obtain ⟨i, hi, rfl⟩ := mem_contents.mp hp
    exact (monoTimeBefore_iff.mp hbefore).trans_le (h.isHeap.root_le hi)
  · simp only [hbefore] at hpick
    cases hpick

end Queue

-- ---------------------------------------------------------------------------
-- One call
-- ---------------------------------------------------------------------------

theorem long_us (hus : us < 2 ^ 32) : long (us : Nat) < 0 ↔ 2 ^ 31 ≤ us := by
  unfold long
  rw [Int.bmod_def]
  split <;> omega

theorem long_of_signed {x : Int} (hlo : -2 ^ 31 ≤ x) (hhi : x < 2 ^ 31) : long x = x := by
  unfold long
  rw [Int.bmod_def]
  split <;> omega

/-- The sum of a time and a delay is after the time unless it overflows. -/
theorem addUsecs_le_iff {now us : Int} (hlo : -2 ^ 31 ≤ now) (hhi : now < 2 ^ 31) (hpos : 0 < us)
    (hus : us < 2 ^ 31) : monoTimeAddUsecs now us ≤ now ↔ 2 ^ 31 ≤ now + us := by
  unfold monoTimeAddUsecs long
  rw [Int.bmod_def]
  split <;> omega

section Call

variable {Ptr : Type} [DecidableEq Ptr] {s : State Ptr} {tocb : Ptr} {now : Int} {us : Nat}

/-- When a callback is refused: a negative delay, one that overflows the clock, or no slot. -/
def Refused (s : State Ptr) (now : Int) (us : Nat) : Prop :=
  2 ^ 31 ≤ us ∨ 2 ^ 31 ≤ now + us ∨ s.tq.numEntries = maxTimerQueueEntries

theorem sched_negative (hus : us < 2 ^ 32) (h : 2 ^ 31 ≤ us) :
    timerSchedCallback s now tocb us = (-1, s) := by
  rw [timerSchedCallback, if_pos ((long_us hus).mpr h)]

theorem sched_overflow (hlo : -2 ^ 31 ≤ now) (hhi : now < 2 ^ 31) (hus : us < 2 ^ 31)
    (h : 2 ^ 31 ≤ now + us) :
    timerSchedCallback s now tocb us =
      (-1, { s with expiration := Function.update s.expiration tocb (monoTimeAddUsecs now us) }) := by
  have hlong : long (us : Nat) = us := long_of_signed (by omega) (by omega)
  have hle := (@addUsecs_le_iff now us hlo hhi (by omega) (by omega)).mpr h
  have hne : us ≠ 0 := by omega
  rw [timerSchedCallback, hlong, if_neg (by omega)]
  simp only [Function.update_self, monoTimeBefore_false, hle, hne, ne_eq, not_false_eq_true,
    and_self, if_true]

theorem sched_inserts (hlo : -2 ^ 31 ≤ now) (hus : us < 2 ^ 31) (h : ¬ 2 ^ 31 ≤ now + us) :
    timerSchedCallback s now tocb us =
      ((timerQueueInsert (Function.update s.expiration tocb (now + us)) s.tq tocb).1,
        ⟨(timerQueueInsert (Function.update s.expiration tocb (now + us)) s.tq tocb).2,
          Function.update s.expiration tocb (now + us)⟩) := by
  have hlong : long (us : Nat) = us := long_of_signed (by omega) (by omega)
  have hsum : monoTimeAddUsecs now us = now + us := long_of_signed (by omega) (by omega)
  have hafter : ¬ (us ≠ 0 ∧ now + us ≤ now) := by omega
  rw [timerSchedCallback, hlong, hsum, if_neg (by omega)]
  simp only [Function.update_self, monoTimeBefore_false, hafter, if_false]

theorem sched_refused (hus : us < 2 ^ 32) (hlo : -2 ^ 31 ≤ now) (hhi : now < 2 ^ 31)
    (h : Refused s now us) :
    (timerSchedCallback s now tocb us).1 = -1 ∧ (timerSchedCallback s now tocb us).2.tq = s.tq ∧
      ∀ p ≠ tocb, (timerSchedCallback s now tocb us).2.expiration p = s.expiration p := by
  by_cases hneg : 2 ^ 31 ≤ us
  · rw [sched_negative hus hneg]
    simp
  by_cases hover : 2 ^ 31 ≤ now + us
  · rw [sched_overflow hlo hhi (Nat.lt_of_not_le hneg) hover]
    exact ⟨rfl, rfl, fun p hp => Function.update_of_ne hp _ _⟩
  obtain hus | hover' | hfull := h
  · exact absurd hus hneg
  · exact absurd hover' hover
  · rw [sched_inserts hlo (Nat.lt_of_not_le hneg) hover, insert_full hfull]
    exact ⟨rfl, rfl, fun p hp => Function.update_of_ne hp _ _⟩

theorem sched_accepted (hlo : -2 ^ 31 ≤ now) (h : ¬ Refused s now us)
    (hwf : WellFormed s.expiration s.tq) (hnew : tocb ∉ s.tq.queued) :
    (timerSchedCallback s now tocb us).1 = 0 ∧
      (timerSchedCallback s now tocb us).2.expiration =
        Function.update s.expiration tocb (now + us) ∧
      WellFormed (timerSchedCallback s now tocb us).2.expiration
        (timerSchedCallback s now tocb us).2.tq ∧
      (timerSchedCallback s now tocb us).2.tq.queued.Perm (tocb :: s.tq.queued) := by
  obtain ⟨hneg, hover, hroom⟩ : ¬ 2 ^ 31 ≤ us ∧ ¬ 2 ^ 31 ≤ now + us ∧
      s.tq.numEntries ≠ maxTimerQueueEntries := by
    simpa only [Refused, not_or] using h
  have hwf' : WellFormed (Function.update s.expiration tocb (now + us)) s.tq :=
    hwf.congr fun p hp => Function.update_of_ne (fun heq : p = tocb => hnew (heq ▸ hp)) _ _
  have hinsert := insert_spec hwf' hnew hroom
  rw [sched_inserts hlo (Nat.lt_of_not_le hneg) hover]
  exact ⟨hinsert.1, rfl, hinsert.2.1, hinsert.2.2⟩

omit [DecidableEq Ptr] in
/-- A callback is called after its entry is gone, with the queue as the removal left it. -/
theorem timersRun_eq (callback : Ptr → State Ptr → State Ptr) :
    (timersRun s now callback).2 =
      (timerQueueExpired s.expiration s.tq now).1.elim id callback
        { s with tq := (timerQueueExpired s.expiration s.tq now).2 } := by
  simp only [timersRun]
  cases (timerQueueExpired s.expiration s.tq now).1 with
  | none => rfl
  | some tocb => rfl

end Call

-- ---------------------------------------------------------------------------
-- A run
-- ---------------------------------------------------------------------------

section Runs

variable {Ptr : Type} [DecidableEq Ptr]

/-- The timers with the clock, the accepted callbacks with their expirations
and the calls with expiration and time, oldest first. -/
structure Trace (Ptr : Type) where
  state : State Ptr
  now : Int
  scheduled : List (Ptr × Int)
  ran : List (Ptr × Int × Int)

namespace Trace

/-- A call that gave `r`; `entry` is what it scheduled if it was accepted. -/
def record (t : Trace Ptr) (now : Int) (r : Int × State Ptr) (entry : Ptr × Int) : Trace Ptr :=
  { t with
    state := r.2
    now := now
    scheduled := if r.1 = 0 then t.scheduled ++ [entry] else t.scheduled }

def sched (t : Trace Ptr) (now : Int) (tocb : Ptr) (us : Nat) : Trace Ptr :=
  t.record now (timerSchedCallback t.state now tocb us) (tocb, now + us)

/-- `timers_run` up to the call of the callback, whose own calls are the steps that follow. -/
def run (t : Trace Ptr) (now : Int) : Trace Ptr :=
  let r := timerQueueExpired t.state.expiration t.state.tq now
  { t with
    state := { t.state with tq := r.2 }
    now := now
    ran := t.ran ++ r.1.toList.map fun tocb => (tocb, t.state.expiration tocb, now) }

/-- The expirations one callback was scheduled with, in order. -/
def scheduledOf (t : Trace Ptr) (p : Ptr) : List Int :=
  (t.scheduled.filter (·.1 = p)).map (·.2)

/-- The expirations one callback was called with, in order. -/
def ranOf (t : Trace Ptr) (p : Ptr) : List Int :=
  (t.ran.filter (·.1 = p)).map (·.2.1)

def queuedOf (t : Trace Ptr) (p : Ptr) : List Int :=
  if p ∈ t.state.tq.queued then [t.state.expiration p] else []

theorem queuedOf_congr {t t' : Trace Ptr} (hmem : p ∈ t'.state.tq.queued ↔ p ∈ t.state.tq.queued)
    (hexp : p ∈ t.state.tq.queued → t'.state.expiration p = t.state.expiration p) :
    t'.queuedOf p = t.queuedOf p := by
  by_cases hp : p ∈ t.state.tq.queued
  · rw [queuedOf, queuedOf, if_pos hp, if_pos (hmem.mpr hp), hexp hp]
  · rw [queuedOf, queuedOf, if_neg hp, if_neg (mt hmem.mp hp)]

theorem scheduledOf_append {t t' : Trace Ptr} (h : t'.scheduled = t.scheduled ++ [(tocb, e)]) :
    t'.scheduledOf p = t.scheduledOf p ++ if tocb = p then [e] else [] := by
  rw [scheduledOf, scheduledOf, h, List.filter_append, List.map_append]
  by_cases hp : tocb = p
  · simp [hp]
  · simp [hp]

theorem ranOf_append {t t' : Trace Ptr} (h : t'.ran = t.ran ++ [(tocb, e, time)]) :
    t'.ranOf p = t.ranOf p ++ if tocb = p then [e] else [] := by
  rw [ranOf, ranOf, h, List.filter_append, List.map_append]
  by_cases hp : tocb = p
  · simp [hp]
  · simp [hp]

section Record

omit [DecidableEq Ptr]

variable {t : Trace Ptr} {now : Int} {r : Int × State Ptr} {entry : Ptr × Int}

theorem record_state : (t.record now r entry).state = r.2 := rfl

theorem record_refused (h : r.1 = -1) : (t.record now r entry).scheduled = t.scheduled := by
  simp [record, h]

theorem record_accepted (h : r.1 = 0) :
    (t.record now r entry).scheduled = t.scheduled ++ [entry] := if_pos h

end Record

end Trace

/-- One call, at a time that is not before the last. -/
inductive Step (t : Trace Ptr) : Trace Ptr → Prop where
  | sched (now : Int) (tocb : Ptr) (us : Nat) (hnow : t.now ≤ now) (hclock : now < 2 ^ 31)
      (hus : us < 2 ^ 32) (hnew : tocb ∉ t.state.tq.queued) : Step t (t.sched now tocb us)
  | run (now : Int) (hnow : t.now ≤ now) (hclock : now < 2 ^ 31) : Step t (t.run now)

inductive Reachable : Trace Ptr → Prop where
  | start (queue : Nat → Ptr) (expiration : Ptr → Int) (now : Int) (hnow : -2 ^ 31 ≤ now) :
      Reachable ⟨⟨⟨0, queue⟩, expiration⟩, now, [], []⟩
  | step : Reachable t → Step t t' → Reachable t'

structure Invariant (t : Trace Ptr) : Prop where
  clock : -2 ^ 31 ≤ t.now
  wf : WellFormed t.state.expiration t.state.tq
  once : ∀ p, t.scheduledOf p = t.ranOf p ++ t.queuedOf p
  inTime : ∀ r ∈ t.ran, r.2.1 ≤ r.2.2

theorem Invariant.record_refused {t : Trace Ptr} (h : Invariant t) (hlo : -2 ^ 31 ≤ now)
    (hnew : tocb ∉ t.state.tq.queued) (hresult : r.1 = -1) (htq : r.2.tq = t.state.tq)
    (hexp : ∀ p ≠ tocb, r.2.expiration p = t.state.expiration p) :
    Invariant (t.record now r (tocb, e)) := by
  have hkey : ∀ p ∈ t.state.tq.queued, r.2.expiration p = t.state.expiration p :=
    fun p hp => hexp p fun heq => hnew (heq ▸ hp)
  refine ⟨hlo, ?_, fun p => ?_, h.inTime⟩
  · rw [Trace.record_state, htq]
    exact h.wf.congr hkey
  · rw [Trace.scheduledOf, Trace.record_refused hresult,
      Trace.queuedOf_congr (t := t) (by rw [Trace.record_state, htq]) (hkey p)]
    exact h.once p

theorem Invariant.record_accepted {t : Trace Ptr} (h : Invariant t) (hlo : -2 ^ 31 ≤ now)
    (hnew : tocb ∉ t.state.tq.queued) (hresult : r.1 = 0)
    (hexp : r.2.expiration = Function.update t.state.expiration tocb e)
    (hwf : WellFormed r.2.expiration r.2.tq) (hperm : r.2.tq.queued.Perm (tocb :: t.state.tq.queued)) :
    Invariant (t.record now r (tocb, e)) := by
  have hran : ∀ p, (t.record now r (tocb, e)).ranOf p = t.ranOf p := fun _ => rfl
  refine ⟨hlo, hwf, fun p => ?_, h.inTime⟩
  rw [Trace.scheduledOf_append (Trace.record_accepted hresult), h.once p, hran]
  by_cases hp : tocb = p
  · subst hp
    rw [Trace.queuedOf, if_neg hnew, if_pos rfl, Trace.queuedOf, Trace.record_state, hexp,
      if_pos (hperm.mem_iff.mpr List.mem_cons_self), Function.update_self, List.append_nil]
  · have hmem : p ∈ (t.record now r (tocb, e)).state.tq.queued ↔ p ∈ t.state.tq.queued := by
      rw [Trace.record_state, hperm.mem_iff, List.mem_cons, or_iff_right (Ne.symm hp)]
    rw [if_neg hp, List.append_nil, Trace.queuedOf_congr hmem fun _ => by
      rw [Trace.record_state, hexp, Function.update_of_ne (Ne.symm hp)]]

theorem Invariant.sched {t : Trace Ptr} (h : Invariant t) (hnow : t.now ≤ now)
    (hclock : now < 2 ^ 31) (hus : us < 2 ^ 32) (hnew : tocb ∉ t.state.tq.queued) :
    Invariant (t.sched now tocb us) := by
  have hlo := h.clock.trans hnow
  by_cases hrefused : Refused t.state now us
  · have hr := @sched_refused _ _ t.state tocb now us hus hlo hclock hrefused
    rw [Trace.sched]
    generalize timerSchedCallback t.state now tocb us = r at hr
    exact h.record_refused hlo hnew hr.1 hr.2.1 hr.2.2
  · have hr := sched_accepted hlo hrefused h.wf hnew
    rw [Trace.sched]
    generalize timerSchedCallback t.state now tocb us = r at hr
    exact h.record_accepted hlo hnew hr.1 hr.2.1 hr.2.2.1 hr.2.2.2

theorem Invariant.run {t : Trace Ptr} (h : Invariant t) (hnow : t.now ≤ now) :
    Invariant (t.run now) := by
  have hlo := h.clock.trans hnow
  have hsched : ∀ p, (t.run now).scheduledOf p = t.scheduledOf p := fun _ => rfl
  cases hpick : (timerQueueExpired t.state.expiration t.state.tq now).1 with
  | none =>
    have hsame := (expired_none h.wf hpick).2
    have hstate : (t.run now).state = t.state := by
      rw [Trace.run, hsame]
    have hran : (t.run now).ran = t.ran := by
      rw [Trace.run, hpick]
      exact List.append_nil _
    refine ⟨hlo, ?_, fun p => ?_, ?_⟩
    · rw [hstate]
      exact h.wf
    · rw [hsched, h.once p, Trace.ranOf, Trace.ranOf, hran, Trace.queuedOf, Trace.queuedOf, hstate]
    · rw [hran]
      exact h.inTime
  | some tocb =>
    obtain ⟨hle, hmem, hmin, hwf, hperm⟩ := expired_some h.wf hpick
    have hran : (t.run now).ran = t.ran ++ [(tocb, t.state.expiration tocb, now)] := by
      rw [Trace.run, hpick]
      rfl
    have hgone := (List.nodup_cons.mp (hperm.nodup_iff.mp h.wf.nodup)).1
    refine ⟨hlo, hwf, fun p => ?_, ?_⟩
    · rw [hsched, h.once p, Trace.ranOf_append hran]
      by_cases hp : tocb = p
      · subst hp
        have hout : tocb ∉ (t.run now).state.tq.queued := hgone
        rw [Trace.queuedOf, if_pos hmem, if_pos rfl, Trace.queuedOf, if_neg hout, List.append_nil]
      · have hmem' : p ∈ (t.run now).state.tq.queued ↔ p ∈ t.state.tq.queued := by
          rw [hperm.mem_iff, List.mem_cons, or_iff_right (Ne.symm hp)]
          exact Iff.rfl
        rw [if_neg hp, List.append_nil, Trace.queuedOf_congr hmem' fun _ => rfl]
    · rw [hran]
      intro r hr
      obtain hr | hr := List.mem_append.mp hr
      · exact h.inTime r hr
      · rw [List.mem_singleton.mp hr]
        exact hle

theorem Reachable.invariant {t : Trace Ptr} (h : Reachable t) : Invariant t := by
  induction h with
  | start queue expiration now hnow =>
    have hempty : ∀ tq : TimerQueue Ptr, tq.numEntries = 0 → tq.queued = [] :=
      fun tq h => by rw [TimerQueue.queued, h]; rfl
    refine ⟨hnow, ⟨fun i _ hi => absurd hi (Nat.not_lt_zero i), Nat.zero_le _, ?_⟩, fun p => ?_,
      fun r hr => absurd hr List.not_mem_nil⟩
    · rw [hempty _ rfl]
      exact List.nodup_nil
    · unfold Trace.queuedOf
      rw [hempty _ rfl, if_neg List.not_mem_nil]
      rfl
  | step _ hstep ih =>
    cases hstep with
    | sched now tocb us hnow hclock hus hnew => exact ih.sched hnow hclock hus hnew
    | run now hnow hclock => exact ih.run hnow

/-- The order, each accepted callback called once or queued and not early, the choice of
the callback, and the calls that are refused. -/
theorem timers_once_in_time {t : Trace Ptr} (h : Reachable t) :
    IsHeap t.state.expiration t.state.tq.queue t.state.tq.numEntries ∧
    (t.state.tq.queued.length ≤ maxTimerQueueEntries ∧ t.state.tq.queued.Nodup) ∧
    (∀ p, t.scheduledOf p = t.ranOf p ++ t.queuedOf p) ∧
    (∀ r ∈ t.ran, r.2.1 ≤ r.2.2) ∧
    (∀ now callback,
      (timersRun t.state now callback).2 =
        (timerQueueExpired t.state.expiration t.state.tq now).1.elim id callback (t.run now).state ∧
      (∀ tocb, (timerQueueExpired t.state.expiration t.state.tq now).1 = some tocb →
        t.state.expiration tocb ≤ now ∧ tocb ∈ t.state.tq.queued ∧
          ∀ p ∈ t.state.tq.queued, t.state.expiration tocb ≤ t.state.expiration p) ∧
      ((timerQueueExpired t.state.expiration t.state.tq now).1 = none →
        ∀ p ∈ t.state.tq.queued, now < t.state.expiration p)) ∧
    ∀ now tocb us, t.now ≤ now → now < 2 ^ 31 → us < 2 ^ 32 → tocb ∉ t.state.tq.queued →
      ((timerSchedCallback t.state now tocb us).1 ≠ 0 ↔
        t.state.tq.queued.length = maxTimerQueueEntries ∨ 2 ^ 31 ≤ us ∨ 2 ^ 31 ≤ now + us) ∧
      ((timerSchedCallback t.state now tocb us).1 ≠ 0 →
        (timerSchedCallback t.state now tocb us).2.tq = t.state.tq) := by
  obtain ⟨hclock, hwf, honce, hinTime⟩ := h.invariant
  refine ⟨hwf.isHeap, ⟨?_, hwf.nodup⟩, honce, hinTime,
    fun now callback => ⟨?_, fun tocb hpick => ?_,
    fun hpick => (expired_none hwf hpick).1⟩, fun now tocb us hnow hhi hus hnew => ?_⟩
  · rw [length_queued]
    exact hwf.bound
  · exact timersRun_eq callback
  · obtain ⟨hle, hmem, hmin, -⟩ := expired_some hwf hpick
    exact ⟨hle, hmem, hmin⟩
  · have hlo := hclock.trans hnow
    have hrefused : (t.state.tq.queued.length = maxTimerQueueEntries ∨ 2 ^ 31 ≤ us ∨
        2 ^ 31 ≤ now + us) ↔ Refused t.state now us := by
      rw [length_queued, Refused]
      exact or_rotate
    rw [hrefused]
    by_cases h : Refused t.state now us
    · have hr := @sched_refused _ _ t.state tocb now us hus hlo hhi h
      exact ⟨iff_of_true (by rw [hr.1]; decide) h, fun _ => hr.2.1⟩
    · have hr := (sched_accepted hlo h hwf hnew).1
      exact ⟨iff_of_false (fun hne => hne hr) h, fun hne => absurd hr hne⟩

end Runs

/-- Two callbacks, the later one first, and one call in time for the earlier one. -/
def twoCallbacks : Trace Nat :=
  (((⟨⟨⟨0, fun _ => 0⟩, fun _ => 0⟩, 0, [], []⟩ : Trace Nat).sched 1 7 9).sched 2 8 4).run 6

theorem timers_once_in_time_twoCallbacks :
    twoCallbacks.ran = [(8, 6, 6)] ∧ twoCallbacks.state.tq.queued = [7] ∧
      twoCallbacks.scheduledOf 8 = twoCallbacks.ranOf 8 ++ twoCallbacks.queuedOf 8 :=
  ⟨by decide +kernel, by decide +kernel,
    (timers_once_in_time (.step (.step (.step (.start _ _ 0 (by decide))
      (.sched 1 7 9 (by decide) (by decide) (by decide) (by decide +kernel)))
      (.sched 2 8 4 (by decide +kernel) (by decide) (by decide) (by decide +kernel)))
      (.run 6 (by decide +kernel) (by decide)))).2.2.1 8⟩

end ItxLlama.Coreboot.Timer
