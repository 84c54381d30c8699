import ItxLlama.Seabios.KbdFlags

/-!
# How far a prefix reaches

`LAST_E0` is cleared where the switch of `__process_key` ends. The byte 0 and
the codes behind the table return before that, and leave the flag to the next
key. The six bytes of the Pause key pass by the switch, except when a first
E1 is pending already.
-/

namespace ItxLlama.Seabios

/-- The bytes that return with the flags as they are. -/
def Leaks (b : BitVec 8) : Prop :=
  b = 0x00#8 ∨ b < 0x80#8 ∧ scanToScanascii.length ≤ b.toNat

instance (b : BitVec 8) : Decidable (Leaks b) := inferInstanceAs (Decidable (_ ∨ _))

def pauseKey : List (BitVec 8) := [0xe1#8, 0x1d#8, 0x45#8, 0xe1#8, 0x9d#8, 0xc5#8]

/-- After every byte of the stream, the flag is set only for an E0. -/
def PrefixScoped (m₀ : Bda) (bs : List (BitVec 8)) : Prop :=
  ∀ pre b, pre ++ [b] <+: bs → ∀ m, processKeys m₀ (pre ++ [b]) = .returned m →
    (mods m).lastE0 = true → b = 0xe0#8

/-- No byte of the stream that finds the flag set leaks it. -/
def PrefixesTaken (m₀ : Bda) (bs : List (BitVec 8)) : Prop :=
  ∀ pre b, pre ++ [b] <+: bs → ∀ m, processKeys m₀ pre = .returned m →
    (mods m).lastE0 = true → ¬Leaks b

/-- The same but for the two prefix flags. -/
structure SameKeys (m m' : Bda) : Prop where
  other : ∀ a, a ≠ kbdFlag2 → m' a = m a
  flag2 : m' kbdFlag2 &&& ~~~(kf2LastE0 ||| kf2LastE1) = m kbdFlag2 &&& ~~~(kf2LastE0 ||| kf2LastE1)

/-- The Pause key leaves the flags and the buffer alone. -/
def PauseNeutral (m : Bda) : Prop := ∃ m', processKeys m pauseKey = .returned m' ∧ SameKeys m m'

-- ---------------------------------------------------------------------------
-- The prefix flag
-- ---------------------------------------------------------------------------

/-- One prefix at most is pending. -/
def OnePrefix (s : Mods) : Prop := ¬(s.lastE0 = true ∧ s.lastE1 = true)

theorem leaks_cases : ∀ b : BitVec 8, Leaks b → b = 0x00#8 ∨
    (b ∉ [0x00#8, 0x3a#8, 0xba#8, 0x2a#8, 0xaa#8, 0x36#8, 0xb6#8, 0x1d#8, 0x9d#8, 0x38#8, 0xb8#8,
      0x45#8, 0xc5#8, 0x46#8, 0xc6#8, 0xe0#8, 0xe1#8, 0x53#8] ∧ b &&& 0x80#8 = 0) ∧
      scanToScanascii[b.toNat]? = none := by
  decide

theorem step_leaks {s : Mods} (hE1 : s.lastE1 = false) (h : Leaks b) : s.step b = s := by
  rcases leaks_cases b h with rfl | ⟨⟨hb, -⟩, hnone⟩
  · simp [Mods.step, hE1]
  · simp only [List.mem_cons, List.not_mem_nil, or_false, not_or] at hb
    have htable := h.resolve_left hb.1
    simp only [Mods.step, hE1, hb, htable, Bool.false_eq_true, if_false, and_self, if_true]

theorem step_lastE0 {s : Mods} (h : OnePrefix s) (b : BitVec 8)
    (hset : (s.step b).lastE0 = true) : b = 0xe0#8 ∨ s.lastE0 = true ∧ Leaks b := by
  cases hE1 : s.lastE1 with
  | true =>
    have hE0 : ¬s.lastE0 = true := fun hE0 => h ⟨hE0, hE1⟩
    simp only [Mods.step, hE1, if_true, apply_ite Mods.lastE0, ite_self] at hset
    exact absurd hset hE0
  | false =>
    by_cases hleak : Leaks b
    · rw [step_leaks hE1 hleak] at hset
      exact .inr ⟨hset, hleak⟩
    · obtain ⟨h00, hnone⟩ := not_or.mp hleak
      by_cases he0 : b = 0xe0#8
      · exact .inl he0
      · simp [Mods.step, hE1, apply_ite Mods.lastE0, h00, he0, hnone] at hset

theorem step_onePrefix {s : Mods} (h : OnePrefix s) (b : BitVec 8) : OnePrefix (s.step b) := by
  intro hs
  cases hE1 : s.lastE1 with
  | true =>
    have hE0 : ¬s.lastE0 = true := fun hE0 => h ⟨hE0, hE1⟩
    simp only [Mods.step, hE1, if_true, apply_ite Mods.lastE0, ite_self] at hs
    exact hE0 hs.1
  | false =>
    rcases step_lastE0 h b hs.1 with rfl | ⟨-, hleak⟩
    · simp [Mods.step, hE1] at hs
    · rw [step_leaks hE1 hleak, hE1] at hs
      exact absurd hs.2 (by decide)

theorem foldl_onePrefix {s : Mods} (h : OnePrefix s) (bs : List (BitVec 8)) :
    OnePrefix (bs.foldl Mods.step s) := by
  induction bs generalizing s with
  | nil => exact h
  | cons b bs ih => exact ih (step_onePrefix h b)

theorem lastE1_clear (h : (mods m).lastE1 = false) : m kbdFlag2 &&& kf2LastE1 = 0 :=
  Decidable.not_not.mp (of_decide_eq_false h)

theorem processScancode_leaks (hE1 : (mods m).lastE1 = false) (h : Leaks b) :
    processScancode m b = .returned m := by
  have hclear := lastE1_clear hE1
  rcases leaks_cases b h with rfl | ⟨⟨hb, hhigh⟩, hnone⟩
  · simp [processScancode, hclear]
  · simp only [List.mem_cons, List.not_mem_nil, or_false, not_or] at hb
    simp [processScancode, processOther, hclear, hb, hhigh, hnone]

section Runs

variable {m m' m₀ : Bda} {lo hi : Nat} {q : List StoredKey}

theorem processKeys_concat (m₀ : Bda) (pre : List (BitVec 8)) (b : BitVec 8)
    (h : processKeys m₀ pre = .returned m) :
    processKeys m₀ (pre ++ [b]) = processScancode m b := by
  rw [processKeys_append, h]
  simp only [processKeys, processKey_bios]
  cases processScancode m b <;> rfl

theorem run_onePrefix (hq : KeyQueue m₀ lo hi q) (ho : PointersOutside lo hi)
    (hf : FlagsOutside lo hi) (hE0 : (mods m₀).lastE0 = false)
    (hr : processKeys m₀ bs = .returned m) : OnePrefix (mods m) ∧ ∃ q, KeyQueue m lo hi q := by
  obtain ⟨hm, hq'⟩ := processKeys_mods hq ho hf hr
  refine ⟨?_, hq'⟩
  rw [hm]
  exact foldl_onePrefix (fun h => by simp [hE0] at h) bs

theorem prefixScoped_iff (hq : KeyQueue m₀ lo hi q) (ho : PointersOutside lo hi)
    (hf : FlagsOutside lo hi) (hE0 : (mods m₀).lastE0 = false) (bs : List (BitVec 8)) :
    PrefixScoped m₀ bs ↔ PrefixesTaken m₀ bs := by
  constructor
  · intro h pre b hpre m hr hset hleak
    obtain ⟨hone, q', hq'⟩ := run_onePrefix hq ho hf hE0 hr
    have hE1 : (mods m).lastE1 = false := by
      cases hE1 : (mods m).lastE1 with
      | false => rfl
      | true => exact absurd ⟨hset, hE1⟩ hone
    -- the byte returns, with the flag still set, and it is no E0
    have hstep : processKeys m₀ (pre ++ [b]) = .returned m := by
      rw [processKeys_concat m₀ pre b hr, processScancode_leaks hE1 hleak]
    have hb := h pre b hpre m hstep hset
    subst hb
    exact absurd hleak (by decide)
  · intro h pre b hpre m' hr hset
    obtain ⟨m, hm, hr'⟩ := processKeys_split hr
    rw [processKeys_concat m₀ pre b hm] at hr
    obtain ⟨hone, q', hq'⟩ := run_onePrefix hq ho hf hE0 hm
    obtain ⟨hstep, -⟩ := processScancode_mods hq' ho hf b hr
    rw [hstep] at hset
    rcases step_lastE0 hone b hset with hb | ⟨hold, hleak⟩
    · exact hb
    · exact absurd hleak (h pre b hpre m hm hold)

-- ---------------------------------------------------------------------------
-- The Pause key
-- ---------------------------------------------------------------------------

theorem set8_self (m : Bda) (a : Nat) : m.set8 a (m a) = m := by
  funext b
  unfold Bda.set8
  split
  · subst b
    rfl
  · rfl

theorem SameKeys.trans (h : SameKeys m m') (h' : SameKeys m' m'') : SameKeys m m'' :=
  ⟨fun a ha => (h'.other a ha).trans (h.other a ha), h'.flag2.trans h.flag2⟩

theorem pause_half (hE1 : (mods m).lastE1 = false) (hb : b &&& ~~~0x80#8 = 0x1d#8)
    (hc : ¬c &&& ~~~0x80#8 = 0x1d#8) :
    ∃ m', processKeys m [0xe1#8, b, c] = .returned m' ∧ SameKeys m m' ∧
      (mods m').lastE1 = false := by
  have hclear := lastE1_clear hE1
  let m₁ := setFlags m (m kbdFlag0) (m kbdFlag1) (m kbdFlag2 ||| kf2LastE1)
  have hflag : m₁ kbdFlag2 = (m kbdFlag2 ||| kf2LastE1) &&& ~~~kf2LastE0 := rfl
  have hset : m₁ kbdFlag2 &&& kf2LastE1 ≠ 0 := by
    have h : ∀ f : BitVec 8, (f ||| kf2LastE1) &&& ~~~kf2LastE0 &&& kf2LastE1 ≠ 0 := by decide
    exact hflag ▸ h _
  have h1 : processScancode m 0xe1#8 = .returned m₁ := by simp [processScancode, hclear, m₁]
  have h2 : processScancode m₁ b = .returned m₁ := by
    rw [processScancode, if_pos hset, if_pos hb]
  have h3 : processScancode m₁ c = .returned (m₁.set8 kbdFlag2 (m₁ kbdFlag2 &&& ~~~kf2LastE1)) := by
    rw [processScancode, if_pos hset, if_neg hc]
  refine ⟨m₁.set8 kbdFlag2 (m₁ kbdFlag2 &&& ~~~kf2LastE1),
    by simp only [processKeys, processKey_bios, h1, h2, h3], ⟨fun a ha => ?_, ?_⟩, ?_⟩
  · rw [Bda.set8_ne _ _ ha]
    simp only [m₁, setFlags, set8_self, Bda.set8_ne _ _ ha]
  · have h : ∀ f : BitVec 8, ((f ||| kf2LastE1) &&& ~~~kf2LastE0 &&& ~~~kf2LastE1) &&&
        ~~~(kf2LastE0 ||| kf2LastE1) = f &&& ~~~(kf2LastE0 ||| kf2LastE1) := by decide
    rw [Bda.set8_same, hflag, h]
  · have h : ∀ f : BitVec 8,
        (f ||| kf2LastE1) &&& ~~~kf2LastE0 &&& ~~~kf2LastE1 &&& kf2LastE1 = 0 := by decide
    refine decide_eq_false (not_not.mpr ?_)
    rw [Bda.set8_same, hflag, h]

theorem pause_neutral (hE1 : (mods m).lastE1 = false) : PauseNeutral m := by
  obtain ⟨m₁, hr₁, hs₁, hE1₁⟩ := pause_half (b := 0x1d#8) (c := 0x45#8) hE1 (by decide) (by decide)
  obtain ⟨m₂, hr₂, hs₂, -⟩ := pause_half (b := 0x9d#8) (c := 0xc5#8) hE1₁ (by decide) (by decide)
  refine ⟨m₂, ?_, hs₁.trans hs₂⟩
  have happend := processKeys_append m [0xe1#8, 0x1d#8, 0x45#8] [0xe1#8, 0x9d#8, 0xc5#8]
  rw [hr₁] at happend
  exact happend.trans hr₂

/-- With a first E1 pending, the 45 is the one of Num Lock. -/
theorem foldl_pause {s : Mods} (hE1 : s.lastE1 = true) :
    (pauseKey.foldl Mods.step s).num = !s.num := by
  obtain ⟨_, _, _, _, _, num, _, _, _, _, _, lastE0, lastE1⟩ := s
  subst hE1
  cases lastE0 <;> rfl

theorem pauseNeutral_iff (hq : KeyQueue m lo hi q) (ho : PointersOutside lo hi)
    (hf : FlagsOutside lo hi) : PauseNeutral m ↔ (mods m).lastE1 = false := by
  refine ⟨fun h => ?_, pause_neutral⟩
  obtain ⟨m', hr, hsame⟩ := h
  cases hE1 : (mods m).lastE1 with
  | false => rfl
  | true =>
    have hnum := congrArg Mods.num (processKeys_mods hq ho hf hr).1
    rw [foldl_pause hE1] at hnum
    have hkeep : (mods m').num = (mods m).num :=
      congrArg (hasFlag · kf0NumActive) (hsame.other kbdFlag0 (by decide))
    rw [hkeep] at hnum
    cases hn : (mods m).num <;> simp [hn] at hnum

/-- For every stream of bytes: the flag of a prefix stays within the prefix
just when no byte that leaks it follows one, and in every state reached the
Pause key changes nothing just when no E1 is pending. -/
theorem prefix_scope_iff (hq : KeyQueue m₀ lo hi q) (ho : PointersOutside lo hi)
    (hf : FlagsOutside lo hi) (hE0 : (mods m₀).lastE0 = false) (bs : List (BitVec 8)) :
    (PrefixScoped m₀ bs ↔ PrefixesTaken m₀ bs) ∧
      ∀ m, processKeys m₀ bs = .returned m → (PauseNeutral m ↔ (mods m).lastE1 = false) := by
  refine ⟨prefixScoped_iff hq ho hf hE0 bs, fun m hr => ?_⟩
  obtain ⟨-, q', hq'⟩ := processKeys_mods hq ho hf hr
  exact pauseNeutral_iff hq' ho hf

theorem prefix_scope_iff_rightCtrl :
    (PrefixScoped keyboardStart [0xe0#8, 0x1d#8] ↔ PrefixesTaken keyboardStart [0xe0#8, 0x1d#8]) ∧
      ∀ m, processKeys keyboardStart [0xe0#8, 0x1d#8] = .returned m →
        (PauseNeutral m ↔ (mods m).lastE1 = false) :=
  prefix_scope_iff (kbdInit_window _).queue ⟨by decide, by decide⟩ ⟨by decide, by decide⟩
    (by decide) [0xe0#8, 0x1d#8]

/-- The prefix of the left Windows key stays pending. -/
theorem windows_key_leaks : ¬PrefixScoped keyboardStart [0xe0#8, 0x5b#8] := by
  intro h
  have hr : ∃ m, processKeys keyboardStart [0xe0#8, 0x5b#8] = .returned m ∧
      (mods m).lastE0 = true := ⟨_, rfl, by decide⟩
  obtain ⟨m, hr, hset⟩ := hr
  exact absurd (h [0xe0#8] 0x5b#8 (List.prefix_refl _) m hr hset) (by decide)

end Runs

end ItxLlama.Seabios
