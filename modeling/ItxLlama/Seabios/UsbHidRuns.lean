import ItxLlama.Seabios.UsbHidLaws

/-!
# The keys that are down

Over a sequence of reports the events that were pushed leave down exactly the
keys and modifiers of the last report, and only the key that was pressed last
is repeated, when it was down for the initial delay.
-/

namespace ItxLlama.Seabios.UsbHid

-- ---------------------------------------------------------------------------
-- Event streams
-- ---------------------------------------------------------------------------

/-- Whether the last event of a key sequence is a press, `d` before the first. -/
def downFrom (d : Bool) (events : List (Nat × Bool)) (c : Nat) : Bool :=
  events.foldl (fun d e => if e.1 = c then !e.2 else d) d

theorem downFrom_append : downFrom d (es ++ es') c = downFrom (downFrom d es c) es' c :=
  List.foldl_append

theorem downFrom_of_not_mem (h : (c, b) ∉ es) :
    downFrom d es c = if (c, !b) ∈ es then b else d := by
  induction es generalizing d with
  | nil => rfl
  | cons e es ih =>
    obtain ⟨hne, hrest⟩ := not_or.mp (mt List.mem_cons.mpr h)
    rw [downFrom, List.foldl_cons]
    refine (ih hrest).trans ?_
    by_cases hc : e.1 = c
    · have he : e = (c, !b) := by
        refine Prod.ext hc (Bool.eq_not.mpr fun heq => hne (Prod.ext hc.symm heq.symm))
      subst he
      simp
    · have he : ¬ (c, !b) = e := fun heq => hc (congrArg Prod.fst heq.symm)
      simp [hc, he]

-- ---------------------------------------------------------------------------
-- Codes
-- ---------------------------------------------------------------------------

def modCode (i : Nat) : Nat := modifierToScanCode.getD i 0

theorem lt_of_mapped (h : code key ≠ 0) : key < 102 := by
  by_contra hge
  exact h (List.getD_eq_default _ _ (Nat.le_of_not_lt hge))

theorem code_injective (h : code key ≠ 0) (heq : code key = code key') : key = key' := by
  have htable : ∀ k < 102, ∀ k' < 102, code k ≠ 0 → code k = code k' → k = k' := by
    decide +kernel
  exact htable key (lt_of_mapped h) key' (lt_of_mapped (heq ▸ h)) h heq

theorem code_ne_modCode (h : code key ≠ 0) (hi : i < 8) : code key ≠ modCode i := by
  have htable : ∀ k < 102, ∀ i < 8, code k ≠ 0 → code k ≠ modCode i := by decide +kernel
  exact htable key (lt_of_mapped h) i hi h

theorem modCode_injective (hi : i < 8) (hj : j < 8) (heq : modCode i = modCode j) : i = j := by
  have htable : ∀ i < 8, ∀ j < 8, modCode i = modCode j → i = j := by decide
  exact htable i hi j hj heq

theorem code_mem_codes (h : code key ≠ 0) : code key ∈ codes := by
  have htable : ∀ k < 102, code k ≠ 0 → code k ∈ codes := by decide +kernel
  exact htable key (lt_of_mapped h) h

theorem modCode_mem_codes (hi : i < 8) : modCode i ∈ codes := by
  have htable : ∀ i < 8, modCode i ∈ codes := by decide +kernel
  exact htable i hi

theorem code_mem_keyEvents (h : code key ≠ 0) :
    (code key, b') ∈ keyEvents l b ↔ b' = b ∧ key ∈ l := by
  rw [mem_keyEvents]
  refine and_congr_right fun _ => ⟨?_, fun hmem => ⟨key, hmem, h, rfl⟩⟩
  rintro ⟨key', hmem, hne, heq⟩
  exact code_injective hne heq ▸ hmem

theorem mem_modEvents {mods : BitVec 8} : (c, b') ∈ modEvents mods b ↔
    b' = b ∧ ∃ i < 8, mods.getLsbD i = true ∧ modCode i = c := by
  simp only [modEvents, List.mem_map, List.mem_filter, List.mem_range, Prod.mk.injEq]
  constructor
  · rintro ⟨i, ⟨hi, hbit⟩, hc, rfl⟩
    exact ⟨rfl, i, hi, hbit, hc⟩
  · rintro ⟨rfl, i, hi, hbit, hc⟩
    exact ⟨i, ⟨hi, hbit⟩, hc, rfl⟩

theorem code_notMem_modEvents {mods : BitVec 8} (h : code key ≠ 0) :
    (code key, b') ∉ modEvents mods b := by
  rw [mem_modEvents]
  rintro ⟨-, i, hi, -, heq⟩
  exact code_ne_modCode h hi heq.symm

theorem modCode_notMem_keyEvents (hi : i < 8) : (modCode i, b') ∉ keyEvents l b := by
  rw [mem_keyEvents]
  rintro ⟨-, key, -, hne, heq⟩
  exact code_ne_modCode hne hi heq

theorem modCode_mem_modEvents {mods : BitVec 8} (hi : i < 8) : (modCode i, b') ∈ modEvents mods b ↔
    b' = b ∧ mods.getLsbD i = true := by
  rw [mem_modEvents]
  refine and_congr_right fun _ => ⟨?_, fun hbit => ⟨i, hi, hbit, rfl⟩⟩
  rintro ⟨j, hj, hbit, heq⟩
  exact modCode_injective hj hi heq ▸ hbit

section Events

variable {data : Keyevent} {last : Usbkeyinfo} {l : List Nat}

theorem mem_codes_of_mem_events : ∀ e ∈ data.events last l, e.1 ∈ codes := by
  rintro ⟨c, b⟩ hmem
  simp only [Keyevent.events, List.mem_append, mem_keyEvents, mem_modEvents] at hmem
  obtain (((⟨-, key, -, hne, rfl⟩ | ⟨-, i, hi, -, rfl⟩) | ⟨-, i, hi, -, rfl⟩) |
    ⟨-, key, -, hne, rfl⟩) | ⟨-, key, -, hne, rfl⟩ := hmem
  · exact code_mem_codes hne
  · exact modCode_mem_codes hi
  · exact modCode_mem_codes hi
  · exact code_mem_codes hne
  · exact code_mem_codes hne

theorem release_mem_events (h : code key ≠ 0) :
    (code key, true) ∈ data.events last l ↔ key ∈ l ∧ key ∉ data.pressed := by
  simp [Keyevent.events, code_mem_keyEvents h, code_notMem_modEvents h]

theorem press_mem_events (h : code key ≠ 0) :
    (code key, false) ∈ data.events last l ↔
      (key ∈ data.pressed ∧ key ∉ l) ∨ key ∈ data.repeated l last.repeatcount := by
  simp [Keyevent.events, code_mem_keyEvents h, code_notMem_modEvents h]

theorem count_keyEvents (h : code key ≠ 0) : (keyEvents l b).count (code key, b) = l.count key := by
  induction l with
  | nil => rfl
  | cons key' l ih =>
    rw [keyEvents_cons, List.count_append, ih, List.count_cons, Nat.add_comm]
    congr 1
    by_cases hkey : key' = key
    · simp [keyEvents, hkey, h]
    · have hnot : (code key, b) ∉ keyEvents [key'] b := by
        rw [code_mem_keyEvents h, List.mem_singleton]
        exact fun hmem => hkey hmem.2.symm
      simp [List.count_eq_zero.mpr hnot, hkey]

theorem count_press (h : code key ≠ 0) : (data.events last l).count (code key, false) =
    (data.pressed.filter (· ∉ l)).count key + (data.repeated l last.repeatcount).count key := by
  have hreleased : (keyEvents (l.filter (· ∉ data.pressed)) true).count (code key, false) = 0 :=
    List.count_eq_zero.mpr (by simp [code_mem_keyEvents h])
  have hmods : ∀ mods b, (modEvents mods b).count (code key, false) = 0 :=
    fun mods b => List.count_eq_zero.mpr (code_notMem_modEvents h)
  rw [Keyevent.events, List.count_append, List.count_append, List.count_append, List.count_append,
    hreleased, hmods, hmods, count_keyEvents h, count_keyEvents h]
  simp

theorem modRelease_mem_events (hi : i < 8) : (modCode i, true) ∈ data.events last l ↔
    last.modifiers.getLsbD i = true ∧ data.modifiers.getLsbD i = false := by
  simp [Keyevent.events, modCode_mem_modEvents hi, modCode_notMem_keyEvents hi, hi]

theorem modPress_mem_events (hi : i < 8) : (modCode i, false) ∈ data.events last l ↔
    data.modifiers.getLsbD i = true ∧ last.modifiers.getLsbD i = false := by
  simp [Keyevent.events, modCode_mem_modEvents hi, modCode_notMem_keyEvents hi, hi]

end Events

-- ---------------------------------------------------------------------------
-- How long a key was down
-- ---------------------------------------------------------------------------

/-- The number of last reports in a row that list a key. -/
def heldFor (reports : List Keyevent) (key : Nat) : Nat :=
  (reports.takeWhile (key ∈ ·.pressed)).length

theorem heldFor_cons (h : key ∈ data.pressed) :
    heldFor (data :: reports) key = heldFor reports key + 1 := by
  rw [heldFor, List.takeWhile_cons, if_pos (by simpa using h), List.length_cons]
  rfl

/-- The keys of the last report. -/
def keysDown (reports : List Keyevent) : List Nat := reports.head?.elim [] Keyevent.pressed

def modifiersDown (reports : List Keyevent) : BitVec 8 := reports.head?.elim 0 Keyevent.modifiers

theorem heldFor_eq_zero (h : key ∉ keysDown reports) : heldFor reports key = 0 := by
  cases reports with
  | nil => rfl
  | cons data reports =>
    rw [heldFor, List.takeWhile_cons, if_neg (by simpa [keysDown] using h)]
    rfl

theorem getLast?_filter {l : List Nat} {p : Nat → Bool} (h : l.getLast? = some key)
    (hp : p key = true) :
    (l.filter p).getLast? = some key := by
  obtain ⟨init, rfl⟩ := List.getLast?_eq_some_iff.mp h
  rw [List.filter_append, List.filter_cons_of_pos hp, List.filter_nil, List.getLast?_append_cons]
  rfl

/-- The list of the last report: oldest press first, with a repeat counter that
reaches zero when the last key was down for the initial delay. -/
structure Held (reports : List Keyevent) (repeatcount : Nat) (l : List Nat) : Prop where
  nodup : l.Nodup
  mem : ∀ key, key ∈ l ↔ key ∈ keysDown reports
  oldest : l.Pairwise fun a b => heldFor reports b ≤ heldFor reports a
  counter : repeatcount = 0xff ∨ ∀ key ∈ l.getLast?,
    repeatcount ≤ 15 ∧ 16 ≤ repeatcount + heldFor reports key

section Held

variable {reports : List Keyevent} {repeatcount : Nat} {l : List Nat} {data : Keyevent}

theorem Held.oldest_held (h : Held reports repeatcount l) :
    (data.held l).Pairwise fun a b =>
      heldFor (data :: reports) b ≤ heldFor (data :: reports) a := by
  have hnew : ∀ key ∈ data.pressed.filter (· ∉ l), heldFor (data :: reports) key = 1 := by
    intro key hmem
    obtain ⟨hin, hout⟩ := List.mem_filter.mp hmem
    rw [heldFor_cons hin, heldFor_eq_zero (mt (h.mem key).mpr (by simpa using hout))]
  refine List.pairwise_append.mpr ⟨?_, ?_, fun a ha b hb => ?_⟩
  · refine (h.oldest.filter (· ∈ data.pressed)).imp_of_mem fun ha hb hle => ?_
    rw [heldFor_cons (by simpa using (List.mem_filter.mp hb).2),
      heldFor_cons (by simpa using (List.mem_filter.mp ha).2)]
    exact Nat.succ_le_succ hle
  · exact List.pairwise_of_forall_mem_list fun a ha b hb =>
      Nat.le_of_eq ((hnew b hb).trans (hnew a ha).symm)
  · rw [hnew b hb, heldFor_cons (by simpa using (List.mem_filter.mp ha).2)]
    exact Nat.succ_le_succ (Nat.zero_le _)

theorem Held.getLast?_kept (hnone : data.pressed.filter (· ∉ l) = [])
    (hlast : l.getLast? = some key) (hkey : key ∈ data.pressed) :
    (data.held l).getLast? = some key := by
  rw [Keyevent.held, hnone, List.append_nil]
  exact getLast?_filter hlast (decide_eq_true hkey)

theorem held_eq_nil (hnone : data.pressed.filter (· ∉ l) = []) (hlast : l.getLast? = none) :
    data.held l = [] := by
  rw [Keyevent.held, hnone, List.getLast?_eq_none_iff.mp hlast]
  rfl

theorem counter_new (hnew : data.pressed.filter (· ∉ l) ≠ []) :
    data.counter l repeatcount = keyrepeatwaitms / keyrepeatms + 1 := if_pos hnew

theorem counter_released (hnone : data.pressed.filter (· ∉ l) = [])
    (hlast : l.getLast? = some key) (hkey : key ∉ data.pressed) :
    data.counter l repeatcount = 0xff := by
  rw [Keyevent.counter, if_neg (not_not.mpr hnone), if_pos ⟨key, hlast, hkey⟩]

theorem counter_kept (hnone : data.pressed.filter (· ∉ l) = [])
    (hlast : l.getLast? = some key) (hkey : key ∈ data.pressed) :
    data.counter l repeatcount = repeatcount := by
  rw [Keyevent.counter, if_neg (not_not.mpr hnone), if_neg]
  rintro ⟨key', hlast', hout⟩
  exact hout (Option.some.inj (hlast.symm.trans hlast') ▸ hkey)

theorem Held.next (h : Held reports repeatcount l) (hdist : DistinctKeys data.keys)
    (hcount : repeatcount' =
      if data.held l ≠ [] ∧ data.counter l repeatcount ≠ 0xff then
        data.counter l repeatcount - 1
      else data.counter l repeatcount) :
    Held (data :: reports) repeatcount' (data.held l) := by
  refine ⟨Keyevent.held_nodup hdist h.nodup, fun key => data.mem_held l, h.oldest_held, ?_⟩
  by_cases hnone : data.pressed.filter (· ∉ l) = []
  · cases hlast : l.getLast? with
    | none =>
      right
      rw [held_eq_nil hnone hlast]
      exact fun key hkey => absurd hkey (by simp)
    | some key =>
      by_cases hkey : key ∈ data.pressed
      · -- the last key is still down
        have hkept := Held.getLast?_kept hnone hlast hkey
        have hcounter := @counter_kept repeatcount l data key hnone hlast hkey
        have hsome : data.held l ≠ [] := by
          intro hnil
          rw [hnil] at hkept
          cases hkept
        rw [hcounter] at hcount
        obtain hoff | hcond := h.counter
        · left
          simpa [hoff] using hcount
        · obtain ⟨hle, hsum⟩ := hcond key hlast
          right
          intro key' hkey'
          obtain rfl : key = key' := Option.some.inj (hkept.symm.trans hkey')
          rw [if_pos ⟨hsome, by omega⟩] at hcount
          rw [heldFor_cons hkey]
          omega
      · left
        rw [hcount, counter_released hnone hlast hkey, if_neg fun h => h.2 rfl]
  · right
    have hsome : data.held l ≠ [] := fun hnil => hnone (List.append_eq_nil_iff.mp hnil).2
    rw [counter_new hnone, if_pos ⟨hsome, by decide⟩] at hcount
    intro key hkey
    have hmem : key ∈ data.pressed := (data.mem_held l).mp (List.mem_of_mem_getLast? hkey)
    have hdelay : keyrepeatwaitms / keyrepeatms + 1 = 16 := rfl
    rw [heldFor_cons hmem]
    omega

/-- A repeat is of the key that was pressed last, which is down for the initial delay. -/
theorem Held.of_repeated (h : Held reports repeatcount l)
    (hkey : key ∈ data.repeated l repeatcount) :
    data.pressed.filter (· ∉ l) = [] ∧ key ∈ data.pressed ∧ key ∈ l ∧
      data.repeated l repeatcount = [key] ∧
      keyrepeatwaitms / keyrepeatms + 1 < heldFor (data :: reports) key ∧
      ∀ key' ∈ data.pressed, heldFor (data :: reports) key ≤ heldFor (data :: reports) key' := by
  unfold Keyevent.repeated at hkey ⊢
  by_cases hzero : data.counter l repeatcount = 0
  · rw [if_pos hzero] at hkey ⊢
    have hheld : (data.held l).getLast? = some key := by simpa using hkey
    by_cases hnone : data.pressed.filter (· ∉ l) = []
    · cases hlast : l.getLast? with
      | none =>
        rw [held_eq_nil hnone hlast] at hheld
        cases hheld
      | some key' =>
        by_cases hdown : key' ∈ data.pressed
        · have hkept := Held.getLast?_kept hnone hlast hdown
          obtain rfl : key' = key := Option.some.inj (hkept.symm.trans hheld)
          have hrepeat : repeatcount = 0 := (counter_kept hnone hlast hdown).symm.trans hzero
          refine ⟨hnone, hdown, List.mem_of_mem_getLast? hlast, by rw [hheld]; rfl, ?_, ?_⟩
          · obtain hoff | hcond := h.counter
            · omega
            · obtain ⟨-, hsum⟩ := hcond key' hlast
              rw [heldFor_cons hdown]
              have hdelay : keyrepeatwaitms / keyrepeatms + 1 = 16 := rfl
              omega
          · intro key hmem
            obtain ⟨init, hinit⟩ := List.getLast?_eq_some_iff.mp hheld
            have hpair := @Held.oldest_held _ _ _ data h
            have hin := (data.mem_held l).mpr hmem
            rw [hinit] at hpair hin
            obtain hin | heq := List.mem_append.mp hin
            · exact (List.pairwise_append.mp hpair).2.2 key hin key' (List.mem_singleton_self key')
            · exact Nat.le_of_eq (by rw [List.mem_singleton.mp heq])
        · rw [counter_released hnone hlast hdown] at hzero
          exact absurd hzero (by decide)
    · rw [counter_new hnone] at hzero
      exact absurd hzero (by decide)
  · rw [if_neg hzero] at hkey
    exact absurd hkey List.not_mem_nil

end Held

-- ---------------------------------------------------------------------------
-- A run
-- ---------------------------------------------------------------------------

/-- `LastUSBkey`, the reports, newest first, and all bytes that were pushed. -/
structure Session where
  last : Usbkeyinfo
  reports : List Keyevent
  pushed : List Nat

def Session.report (s : Session) (data : Keyevent) : Session :=
  ⟨(handleKey s.last data).1, data :: s.reports, s.pushed ++ (handleKey s.last data).2⟩

inductive Reachable : Session → Prop where
  | start : Reachable ⟨⟨0, 0, fun _ => 0⟩, [], []⟩
  | report (data : Keyevent) (hdist : DistinctKeys data.keys) :
      Reachable s → Reachable (s.report data)

/-- Whether the bytes leave a key sequence pressed. -/
def Session.down (s : Session) (c : Nat) : Bool := downFrom false (decode s.pushed) c

structure Invariant (s : Session) (l : List Nat) : Prop where
  keys : ListsFrom s.last.keys 0 l
  modifiers : s.last.modifiers = modifiersDown s.reports
  held : Held s.reports s.last.repeatcount l
  events : ∃ es : List (Nat × Bool), s.pushed = push es ∧ ∀ e ∈ es, e.1 ∈ codes
  down : ∀ key, code key ≠ 0 → (s.down (code key) = true ↔ key ∈ l)
  modDown : ∀ i < 8, s.down (modCode i) = s.last.modifiers.getLsbD i

theorem Invariant.start : Invariant ⟨⟨0, 0, fun _ => 0⟩, [], []⟩ [] where
  keys := Or.inr ⟨by decide, rfl⟩
  modifiers := rfl
  held := ⟨List.nodup_nil, fun key => Iff.rfl, .nil, Or.inr fun key h => absurd h (by simp)⟩
  events := ⟨[], rfl, fun e h => absurd h List.not_mem_nil⟩
  down key hcode := iff_of_false (by simp [Session.down, decode, downFrom]) List.not_mem_nil
  modDown i hi := by
    simp [Session.down, decode, downFrom]

section Report

variable {s : Session} {l : List Nat} {data : Keyevent}

theorem decode_handleKey (h : Invariant s l) (hdist : DistinctKeys data.keys) :
    decode (handleKey s.last data).2 = data.events s.last l := by
  rw [(handleKey_spec h.keys h.held.nodup hdist).pushed, ← List.append_nil (push _),
    decode_push_append mem_codes_of_mem_events]
  exact List.append_nil _

theorem down_report (h : Invariant s l) (hdist : DistinctKeys data.keys) :
    (s.report data).down c = downFrom (s.down c) (data.events s.last l) c := by
  obtain ⟨es, hpushed, hcodes⟩ := h.events
  have hold : decode s.pushed = es := by
    rw [hpushed, ← List.append_nil (push es), decode_push_append hcodes]
    exact List.append_nil _
  have hnew : decode (s.report data).pushed = es ++ data.events s.last l := by
    rw [← decode_handleKey h hdist, Session.report, hpushed, decode_push_append hcodes]
  rw [Session.down, Session.down, hold, hnew, downFrom_append]

theorem Invariant.report (h : Invariant s l) (hdist : DistinctKeys data.keys) :
    Invariant (s.report data) (data.held l) := by
  have hhandled := handleKey_spec h.keys h.held.nodup hdist
  refine ⟨hhandled.keys, hhandled.modifiers, h.held.next hdist hhandled.repeatcount, ?_,
    fun key hcode => ?_, fun i hi => ?_⟩
  · obtain ⟨es, hpushed, hcodes⟩ := h.events
    refine ⟨es ++ data.events s.last l, ?_, fun e he => ?_⟩
    · rw [push_append, ← hpushed, ← hhandled.pushed]
      rfl
    · obtain he | he := List.mem_append.mp he
      · exact hcodes e he
      · exact mem_codes_of_mem_events e he
  · rw [down_report h hdist, data.mem_held]
    by_cases hin : key ∈ data.pressed
    · have hrelease : (code key, true) ∉ data.events s.last l := by
        rw [release_mem_events hcode]
        exact fun h => h.2 hin
      rw [downFrom_of_not_mem hrelease, Bool.not_true]
      by_cases hold : key ∈ l
      · have hdown := (h.down key hcode).mpr hold
        simp [hdown, hin]
      · have hpress : (code key, false) ∈ data.events s.last l :=
          (press_mem_events hcode).mpr (Or.inl ⟨hin, hold⟩)
        simp [hpress, hin]
    · have hpress : (code key, false) ∉ data.events s.last l := by
        rw [press_mem_events hcode]
        rintro (hnew | hrepeat)
        · exact hin hnew.1
        · exact hin (h.held.of_repeated hrepeat).2.1
      rw [downFrom_of_not_mem hpress, Bool.not_false]
      by_cases hold : key ∈ l
      · have hrelease : (code key, true) ∈ data.events s.last l :=
          (release_mem_events hcode).mpr ⟨hold, hin⟩
        simp [hrelease, hin]
      · have hdown := mt (h.down key hcode).mp hold
        simp [hdown, hin]
  · have hmods : (s.report data).last.modifiers = data.modifiers := hhandled.modifiers
    rw [down_report h hdist, hmods]
    cases hnew : data.modifiers.getLsbD i with
    | false =>
      have hpress : (modCode i, false) ∉ data.events s.last l := by
        rw [modPress_mem_events hi, hnew]
        exact fun h => absurd h.1 (by decide)
      rw [downFrom_of_not_mem hpress, Bool.not_false]
      cases hold : s.last.modifiers.getLsbD i with
      | false => simp [h.modDown i hi, hold]
      | true => simp [modRelease_mem_events hi, hold, hnew]
    | true =>
      have hrelease : (modCode i, true) ∉ data.events s.last l := by
        rw [modRelease_mem_events hi, hnew]
        exact fun h => absurd h.2 (by decide)
      rw [downFrom_of_not_mem hrelease, Bool.not_true]
      cases hold : s.last.modifiers.getLsbD i with
      | false => simp [modPress_mem_events hi, hold, hnew]
      | true => simp [h.modDown i hi, hold]

end Report

theorem Reachable.invariant (h : Reachable s) : ∃ l, Invariant s l := by
  induction h with
  | start => exact ⟨[], .start⟩
  | report data hdist _ ih =>
    obtain ⟨l, hl⟩ := ih
    exact ⟨data.held l, hl.report hdist⟩

def repeatDelay : Nat := keyrepeatwaitms / keyrepeatms

/-- After any reports the events leave down what the last report lists. The next report releases
the keys it drops, presses each new key once, and leaves the other keys down but for a repeat of the
key that was pressed last. -/
theorem keys_follow_reports {s : Session} (h : Reachable s) :
    (∀ key, code key ≠ 0 → (s.down (code key) = true ↔ key ∈ keysDown s.reports)) ∧
    (∀ i < 8, s.down (modCode i) = (modifiersDown s.reports).getLsbD i) ∧
    ∀ data : Keyevent, DistinctKeys data.keys → ∀ events,
      events = decode (handleKey s.last data).2 →
      (∀ i < 8,
        ((modCode i, true) ∈ events ↔
          (modifiersDown s.reports).getLsbD i = true ∧ data.modifiers.getLsbD i = false) ∧
        ((modCode i, false) ∈ events ↔
          data.modifiers.getLsbD i = true ∧ (modifiersDown s.reports).getLsbD i = false)) ∧
      ∀ key, code key ≠ 0 →
        ((code key, true) ∈ events ↔ key ∈ keysDown s.reports ∧ key ∉ data.pressed) ∧
        (key ∉ keysDown s.reports →
          events.count (code key, false) = if key ∈ data.pressed then 1 else 0) ∧
        (key ∈ keysDown s.reports → (code key, false) ∈ events →
          events.count (code key, false) = 1 ∧ key ∈ data.pressed ∧
          repeatDelay + 1 < heldFor (data :: s.reports) key ∧
          ∀ key' ∈ data.pressed,
            heldFor (data :: s.reports) key ≤ heldFor (data :: s.reports) key') := by
  obtain ⟨l, hl⟩ := h.invariant
  refine ⟨fun key hcode => (hl.down key hcode).trans (hl.held.mem key),
    fun i hi => (hl.modDown i hi).trans (by rw [hl.modifiers]), fun data hdist events hevents => ?_⟩
  rw [decode_handleKey hl hdist] at hevents
  subst hevents
  refine ⟨fun i hi => ?_, fun key hcode => ⟨?_, fun hup => ?_, fun hdown hpress => ?_⟩⟩
  · rw [← hl.modifiers]
    exact ⟨modRelease_mem_events hi, modPress_mem_events hi⟩
  · rw [release_mem_events hcode, hl.held.mem]
  · rw [← hl.held.mem] at hup
    have hrepeat : key ∉ data.repeated l s.last.repeatcount := fun hmem =>
      hup (hl.held.of_repeated hmem).2.2.1
    have hnodup : (data.pressed.filter (· ∉ l)).Nodup := (keysFrom_nodup hdist).filter _
    rw [count_press hcode, List.count_eq_zero.mpr hrepeat, Nat.add_zero, hnodup.count]
    simp [hup]
  · rw [← hl.held.mem] at hdown
    have hrepeat : key ∈ data.repeated l s.last.repeatcount := by
      obtain ⟨-, hnew⟩ | hrepeat := (press_mem_events hcode).mp hpress
      · exact absurd hdown hnew
      · exact hrepeat
    obtain ⟨hnone, hmem, -, hsingle, hdelay, hlatest⟩ := hl.held.of_repeated hrepeat
    refine ⟨?_, hmem, hdelay, hlatest⟩
    rw [count_press hcode, hnone, hsingle]
    simp

/-- The `a` key with the left shift key. -/
def shiftA : Keyevent := ⟨2, fun i => if i = 0 then 4 else 0⟩

theorem keys_follow_reports_shiftA :
    keysDown [shiftA] = [4] ∧
      (Session.report ⟨⟨0, 0, fun _ => 0⟩, [], []⟩ shiftA).down (code 4) = true :=
  ⟨by decide +kernel,
    ((keys_follow_reports (.report shiftA (by unfold DistinctKeys; decide +kernel) .start)).1 4
      (by decide +kernel)).mpr (by decide +kernel)⟩

end ItxLlama.Seabios.UsbHid
