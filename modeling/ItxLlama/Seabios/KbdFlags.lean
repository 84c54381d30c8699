import ItxLlama.Seabios.KbdQueue
import Mathlib.Data.List.Infix

/-!
# Modifier flags

The flag bytes of the data area as a machine over one boolean for each
modifier, fed with the scancodes of keys that go down and up. A key that goes
down while it is down is the keyboard repeating it.
-/

namespace ItxLlama.Seabios

-- ---------------------------------------------------------------------------
-- The flag bytes
-- ---------------------------------------------------------------------------

/-- `flags & mask`, as a condition. -/
def hasFlag (flags mask : BitVec 8) : Bool := decide (flags &&& mask ≠ 0)

/-- What the flag bytes say of the modifiers. -/
structure Mods where
  lShift : Bool
  rShift : Bool
  ctrl : Bool
  alt : Bool
  scroll : Bool
  num : Bool
  caps : Bool
  lCtrl : Bool
  lAlt : Bool
  rCtrl : Bool
  rAlt : Bool
  lastE0 : Bool
  lastE1 : Bool
  deriving DecidableEq, Repr

def modsOf (flags0 flags1 flags2 : BitVec 8) : Mods where
  lShift := hasFlag flags0 kf0LShift
  rShift := hasFlag flags0 kf0RShift
  ctrl := hasFlag flags0 kf0CtrlActive
  alt := hasFlag flags0 kf0AltActive
  scroll := hasFlag flags0 kf0ScrollActive
  num := hasFlag flags0 kf0NumActive
  caps := hasFlag flags0 kf0CapsActive
  lCtrl := hasFlag flags1 kf1LCtrl
  lAlt := hasFlag flags1 kf1LAlt
  rCtrl := hasFlag flags2 kf2RCtrl
  rAlt := hasFlag flags2 kf2RAlt
  lastE0 := hasFlag flags2 kf2LastE0
  lastE1 := hasFlag flags2 kf2LastE1

def mods (m : Bda) : Mods := modsOf (m kbdFlag0) (m kbdFlag1) (m kbdFlag2)

theorem hasFlag_shift (flags : BitVec 8) (h : k < 8) :
    hasFlag flags (1#8 <<< k) = flags.getLsbD k := by
  have hbit : ∀ i, (flags &&& (1#8 <<< k)).getLsbD i = (flags.getLsbD i && decide (i = k)) := by
    intro i
    by_cases hi : i < 8
    · rw [BitVec.getLsbD_and, BitVec.getLsbD_shiftLeft, BitVec.getLsbD_one]
      by_cases hik : i = k
      · simp [hik, h]
      · have : ¬(k ≤ i ∧ i - k = 0) := by omega
        by_cases hki : i < k
        · simp [hki, hik]
        · simp [hik, hki]
          omega
    · simp [BitVec.getLsbD_of_ge flags i (by omega)]
  unfold hasFlag
  cases hf : flags.getLsbD k with
  | true =>
    rw [decide_eq_true_iff]
    intro h0
    have := hbit k
    rw [h0, hf] at this
    simp at this
  | false =>
    rw [decide_eq_false_iff_not, not_not]
    apply BitVec.eq_of_getLsbD_eq
    intro i hi
    rw [hbit i]
    by_cases hik : i = k
    · simp [hik, hf]
    · simp [hik]

/-- The byte as the machine over the flags takes it. -/
def Mods.step (s : Mods) (scancode : BitVec 8) : Mods :=
  let s' := { s with lastE0 := false }
  if s.lastE1 then if scancode &&& ~~~0x80#8 = 0x1d#8 then s else { s with lastE1 := false }
  else if scancode = 0x00#8 then s
  else if scancode = 0x3a#8 then { s' with caps := !s.caps }
  else if scancode = 0x2a#8 then { s' with lShift := true }
  else if scancode = 0xaa#8 then { s' with lShift := false }
  else if scancode = 0x36#8 then { s' with rShift := true }
  else if scancode = 0xb6#8 then { s' with rShift := false }
  else if scancode = 0x1d#8 then
    if s.lastE0 then { s' with ctrl := true, rCtrl := true }
    else { s' with ctrl := true, lCtrl := true }
  else if scancode = 0x9d#8 then
    if s.lastE0 then { s' with ctrl := false, rCtrl := false }
    else { s' with ctrl := false, lCtrl := false }
  else if scancode = 0x38#8 then
    if s.lastE0 then { s' with alt := true, rAlt := true }
    else { s' with alt := true, lAlt := true }
  else if scancode = 0xb8#8 then
    if s.lastE0 then { s' with alt := false, rAlt := false }
    else { s' with alt := false, lAlt := false }
  else if scancode = 0x45#8 then { s' with num := !s.num }
  else if scancode = 0x46#8 then { s' with scroll := !s.scroll }
  else if scancode = 0xe0#8 then { s with lastE0 := true }
  else if scancode = 0xe1#8 then { s' with lastE1 := true }
  else if scancode < 0x80#8 ∧ scanToScanascii.length ≤ scancode.toNat then s
  else s'

/-- The window has none of the flag bytes. -/
structure FlagsOutside (lo hi : Nat) : Prop where
  flag01 : kbdFlag1 < lo ∨ hi ≤ kbdFlag0
  flag2 : kbdFlag2 < lo ∨ hi ≤ kbdFlag2

section Bytes

variable {m m' : Bda} {lo hi : Nat} {q : List StoredKey}

theorem mods_setFlags (m : Bda) (flags0 flags1 flags2 : BitVec 8) :
    mods (setFlags m flags0 flags1 flags2) =
      modsOf flags0 flags1 (flags2 &&& ~~~kf2LastE0) := rfl

theorem modsOf_bits (flags0 flags1 flags2 : BitVec 8) :
    modsOf flags0 flags1 flags2 =
      { lShift := flags0.getLsbD 1, rShift := flags0.getLsbD 0, ctrl := flags0.getLsbD 2,
        alt := flags0.getLsbD 3, scroll := flags0.getLsbD 4, num := flags0.getLsbD 5,
        caps := flags0.getLsbD 6, lCtrl := flags1.getLsbD 0, lAlt := flags1.getLsbD 1,
        rCtrl := flags2.getLsbD 2, rAlt := flags2.getLsbD 3, lastE0 := flags2.getLsbD 1,
        lastE1 := flags2.getLsbD 0 } := by
  simp only [modsOf, kf0RShift, kf0LShift, kf0CtrlActive, kf0AltActive, kf0ScrollActive,
    kf0NumActive, kf0CapsActive, kf1LCtrl, kf1LAlt, kf2LastE1, kf2LastE0, kf2RCtrl, kf2RAlt,
    hasFlag_shift, Nat.reduceLT]

theorem modsOf_break (flags0 flags1 flags2 : BitVec 8) :
    modsOf flags0 flags1 (flags2 &&& ~~~kf2LastE0) =
      { modsOf flags0 flags1 flags2 with lastE0 := false } := by
  simp [modsOf_bits, kf2LastE0]

theorem KeyQueue.congr (h : KeyQueue m lo hi q) (hf : FlagsOutside lo hi)
    (hs : ∀ a, a ≠ kbdFlag0 → a ≠ kbdFlag1 → a ≠ kbdFlag2 → m' a = m a) :
    KeyQueue m' lo hi q := by
  have hw : ∀ a ∈ [kbdBufStartOffset, kbdBufEndOffset, kbdBufHead, kbdBufTail],
      m'.get16 a = m.get16 a := by
    intro a ha
    have : a ≠ kbdFlag0 ∧ a ≠ kbdFlag1 ∧ a ≠ kbdFlag2 ∧ a + 1 ≠ kbdFlag0 ∧ a + 1 ≠ kbdFlag1 ∧
        a + 1 ≠ kbdFlag2 := by
      revert a
      decide
    obtain ⟨h₁, h₂, h₃, h₄, h₅, h₆⟩ := this
    rw [Bda.get16, hs a h₁ h₂ h₃, hs (a + 1) h₄ h₅ h₆, Bda.get16]
  obtain ⟨head, tail, hh, ht, hr⟩ := h.ring
  have h01 := hf.flag01
  have h2 := hf.flag2
  simp only [kbdFlag0, kbdFlag1, kbdFlag2] at h01 h2 hs
  refine { h with
    start_eq := (hw _ (by simp)).trans h.start_eq
    end_eq := (hw _ (by simp)).trans h.end_eq
    ring := ⟨head, tail, (hw _ (by simp)).trans hh, (hw _ (by simp)).trans ht,
      hr.congr fun i hi' => ?_⟩ }
  unfold slot
  rw [hs _ (by omega) (by omega) (by omega), hs _ (by omega) (by omega) (by omega)]

theorem KeyQueue.setFlags (h : KeyQueue m lo hi q) (hf : FlagsOutside lo hi)
    (flags0 flags1 flags2 : BitVec 8) : KeyQueue (setFlags m flags0 flags1 flags2) lo hi q :=
  h.congr hf fun a h₀ h₁ h₂ => by
    rw [Seabios.setFlags, Bda.set8_ne _ _ h₂, Bda.set8_ne _ _ h₁, Bda.set8_ne _ _ h₀]

theorem enqueueKey_queue (h : KeyQueue m lo hi q) (ho : PointersOutside lo hi)
    (scanCode asciiCode : BitVec 8) :
    ∃ q', KeyQueue (enqueueKey m scanCode asciiCode).1 lo hi q' := by
  by_cases hlen : q.length < (hi - lo) / 2 - 1
  · exact ⟨_, (enqueueKey_room h ho hlen scanCode asciiCode).2⟩
  · rw [enqueueKey_full h hlen]
    exact ⟨q, h⟩

/-- The byte that ended in `m'` was one step of the flag machine. -/
def OneStep (m m' : Bda) (lo hi : Nat) (scancode : BitVec 8) : Prop :=
  mods m' = (mods m).step scancode ∧ ∃ q, KeyQueue m' lo hi q

theorem oneStep_setFlags (h : KeyQueue m lo hi q) (hf : FlagsOutside lo hi)
    {scancode flags0 flags1 flags2 : BitVec 8}
    (hm : modsOf flags0 flags1 (flags2 &&& ~~~kf2LastE0) = (mods m).step scancode)
    (hr : KeyEnd.returned (setFlags m flags0 flags1 flags2) = .returned m') :
    OneStep m m' lo hi scancode := by
  cases hr
  exact ⟨(mods_setFlags _ _ _ _).trans hm, q, h.setFlags hf _ _ _⟩

/-- A byte that stands for the right key of two behind an `e0`, and else for the left one. -/
theorem oneStep_prefixed (h : KeyQueue m lo hi q) (hf : FlagsOutside lo hi)
    {scancode a₀ a₁ a₂ b₀ b₁ b₂ : BitVec 8}
    (hright : (m kbdFlag2)[1] = true →
      modsOf a₀ a₁ (a₂ &&& ~~~kf2LastE0) = (mods m).step scancode)
    (hleft : (m kbdFlag2)[1] = false →
      modsOf b₀ b₁ (b₂ &&& ~~~kf2LastE0) = (mods m).step scancode)
    (hr : (if m kbdFlag2 &&& kf2LastE0 ≠ 0 then KeyEnd.returned (setFlags m a₀ a₁ a₂)
      else .returned (setFlags m b₀ b₁ b₂)) = .returned m') :
    OneStep m m' lo hi scancode := by
  cases hE0 : (mods m).lastE0 with
  | true =>
    have hset : m kbdFlag2 &&& kf2LastE0 ≠ 0 := of_decide_eq_true hE0
    exact oneStep_setFlags h hf (hright (by simpa [mods, modsOf_bits] using hE0))
      ((if_pos hset).symm.trans hr)
  | false =>
    have hclear : ¬(m kbdFlag2 &&& kf2LastE0 ≠ 0) := of_decide_eq_false hE0
    exact oneStep_setFlags h hf (hleft (by simpa [mods, modsOf_bits] using hE0))
      ((if_neg hclear).symm.trans hr)

theorem processScancode_lastE1 (h : KeyQueue m lo hi q) (hf : FlagsOutside lo hi)
    (hE1 : (mods m).lastE1 = true) (hr : processScancode m scancode = .returned m') :
    OneStep m m' lo hi scancode := by
  have hE1' : m kbdFlag2 &&& kf2LastE1 ≠ 0 := of_decide_eq_true hE1
  simp only [processScancode, if_pos hE1'] at hr
  unfold OneStep Mods.step
  rw [if_pos hE1]
  by_cases h1d : scancode &&& ~~~0x80#8 = 0x1d#8
  · rw [if_pos h1d] at hr ⊢
    cases hr
    exact ⟨rfl, q, h⟩
  · rw [if_neg h1d] at hr ⊢
    cases hr
    refine ⟨?_, q, h.congr hf fun a _ _ h₂ => Bda.set8_ne _ _ h₂⟩
    show modsOf (m kbdFlag0) (m kbdFlag1) (m kbdFlag2 &&& ~~~kf2LastE1) = _
    simp [mods, modsOf_bits, kf2LastE1]

theorem processOther_mods (h : KeyQueue m lo hi q) (ho : PointersOutside lo hi)
    (hf : FlagsOutside lo hi)
    (hr : processOther m (m kbdFlag0) (m kbdFlag1) (m kbdFlag2) scancode = .returned m') :
    mods m' = (if scancode < 0x80#8 ∧ scanToScanascii.length ≤ scancode.toNat then mods m
      else { mods m with lastE0 := false }) ∧ ∃ q, KeyQueue m' lo hi q := by
  have hhigh : ∀ b : BitVec 8, b &&& 0x80#8 ≠ 0 ↔ ¬b < 0x80#8 := by decide
  unfold processOther at hr
  by_cases hup : scancode < 0x80#8
  · rw [if_neg (by rw [hhigh scancode, not_not]; exact hup)] at hr
    split at hr
    · cases hr
    · cases hi' : scanToScanascii[scancode.toNat]? with
      | none =>
        rw [hi'] at hr
        cases hr
        rw [if_pos ⟨hup, List.getElem?_eq_none_iff.mp hi'⟩]
        exact ⟨rfl, q, h⟩
      | some info =>
        rw [hi'] at hr
        cases hr
        have hlt : ¬scanToScanascii.length ≤ scancode.toNat := by
          intro hle
          rw [List.getElem?_eq_none hle] at hi'
          cases hi'
        obtain ⟨q', hq'⟩ := enqueueKey_queue h ho
          (scanAscii (m kbdFlag0) (m kbdFlag2) scancode info).2
          (scanAscii (m kbdFlag0) (m kbdFlag2) scancode info).1
        rw [if_neg fun hc => hlt hc.2, mods_setFlags, modsOf_break]
        exact ⟨rfl, q', hq'.setFlags hf _ _ _⟩
  · rw [if_pos ((hhigh scancode).mpr hup)] at hr
    cases hr
    rw [if_neg fun hc => hup hc.1, mods_setFlags, modsOf_break]
    exact ⟨rfl, q, h.setFlags hf _ _ _⟩

/-- Every byte is one step of the flag machine, unless it resets the
computer. -/
theorem processScancode_mods (h : KeyQueue m lo hi q) (ho : PointersOutside lo hi)
    (hf : FlagsOutside lo hi) (scancode : BitVec 8)
    (hr : processScancode m scancode = .returned m') : OneStep m m' lo hi scancode := by
  cases hE1 : (mods m).lastE1 with
  | true => exact processScancode_lastE1 h hf hE1 hr
  | false =>
    have hE1' : ¬(m kbdFlag2 &&& kf2LastE1 ≠ 0) := of_decide_eq_false hE1
    have hb1 : (m kbdFlag2)[0] = false := by simpa [mods, modsOf_bits] using hE1
    simp only [processScancode, if_neg hE1'] at hr
    by_cases h00 : scancode = 0x00#8
    · subst h00
      cases hr
      exact ⟨by simp [Mods.step, hE1], q, h⟩
    rw [if_neg h00] at hr
    by_cases h3a : scancode = 0x3a#8
    · subst h3a
      refine oneStep_setFlags h hf ?_ hr
      simp [Mods.step, mods, modsOf_bits, hb1, kf2LastE0, kf0CapsActive, kf1Caps]
    rw [if_neg h3a] at hr
    by_cases hba : scancode = 0xba#8
    · subst hba
      refine oneStep_setFlags h hf ?_ hr
      simp [Mods.step, mods, modsOf_bits, hb1, kf2LastE0, kf1Caps]
    rw [if_neg hba] at hr
    by_cases h2a : scancode = 0x2a#8
    · subst h2a
      refine oneStep_setFlags h hf ?_ hr
      simp [Mods.step, mods, modsOf_bits, hb1, kf2LastE0, kf0LShift]
    rw [if_neg h2a] at hr
    by_cases haa : scancode = 0xaa#8
    · subst haa
      refine oneStep_setFlags h hf ?_ hr
      simp [Mods.step, mods, modsOf_bits, hb1, kf2LastE0, kf0LShift]
    rw [if_neg haa] at hr
    by_cases h36 : scancode = 0x36#8
    · subst h36
      refine oneStep_setFlags h hf ?_ hr
      simp [Mods.step, mods, modsOf_bits, hb1, kf2LastE0, kf0RShift]
    rw [if_neg h36] at hr
    by_cases hb6 : scancode = 0xb6#8
    · subst hb6
      refine oneStep_setFlags h hf ?_ hr
      simp [Mods.step, mods, modsOf_bits, hb1, kf2LastE0, kf0RShift]
    rw [if_neg hb6] at hr
    by_cases h1d : scancode = 0x1d#8
    · subst h1d
      refine oneStep_prefixed h hf (fun hb0 => ?_) (fun hb0 => ?_) hr
      · simp [Mods.step, mods, modsOf_bits, hb1, hb0, kf2LastE0, kf0CtrlActive, kf2RCtrl]
      · simp [Mods.step, mods, modsOf_bits, hb1, hb0, kf2LastE0, kf0CtrlActive, kf1LCtrl]
    rw [if_neg h1d] at hr
    by_cases h9d : scancode = 0x9d#8
    · subst h9d
      refine oneStep_prefixed h hf (fun hb0 => ?_) (fun hb0 => ?_) hr
      · simp [Mods.step, mods, modsOf_bits, hb1, hb0, kf2LastE0, kf0CtrlActive, kf2RCtrl]
      · simp [Mods.step, mods, modsOf_bits, hb1, hb0, kf2LastE0, kf0CtrlActive, kf1LCtrl]
    rw [if_neg h9d] at hr
    by_cases h38 : scancode = 0x38#8
    · subst h38
      refine oneStep_prefixed h hf (fun hb0 => ?_) (fun hb0 => ?_) hr
      · simp [Mods.step, mods, modsOf_bits, hb1, hb0, kf2LastE0, kf0AltActive, kf2RAlt]
      · simp [Mods.step, mods, modsOf_bits, hb1, hb0, kf2LastE0, kf0AltActive, kf1LAlt]
    rw [if_neg h38] at hr
    by_cases hb8 : scancode = 0xb8#8
    · subst hb8
      refine oneStep_prefixed h hf (fun hb0 => ?_) (fun hb0 => ?_) hr
      · simp [Mods.step, mods, modsOf_bits, hb1, hb0, kf2LastE0, kf0AltActive, kf2RAlt]
      · simp [Mods.step, mods, modsOf_bits, hb1, hb0, kf2LastE0, kf0AltActive, kf1LAlt]
    rw [if_neg hb8] at hr
    by_cases h45 : scancode = 0x45#8
    · subst h45
      refine oneStep_setFlags h hf ?_ hr
      simp [Mods.step, mods, modsOf_bits, hb1, kf2LastE0, kf0NumActive, kf1Num]
    rw [if_neg h45] at hr
    by_cases hc5 : scancode = 0xc5#8
    · subst hc5
      refine oneStep_setFlags h hf ?_ hr
      simp [Mods.step, mods, modsOf_bits, hb1, kf2LastE0, kf1Num]
    rw [if_neg hc5] at hr
    by_cases h46 : scancode = 0x46#8
    · subst h46
      refine oneStep_setFlags h hf ?_ hr
      simp [Mods.step, mods, modsOf_bits, hb1, kf2LastE0, kf0ScrollActive, kf1Scroll]
    rw [if_neg h46] at hr
    by_cases hc6 : scancode = 0xc6#8
    · subst hc6
      refine oneStep_setFlags h hf ?_ hr
      simp [Mods.step, mods, modsOf_bits, hb1, kf2LastE0, kf1Scroll]
    rw [if_neg hc6] at hr
    by_cases he0 : scancode = 0xe0#8
    · subst he0
      cases hr
      refine ⟨?_, q, h.congr hf fun a _ _ h₂ => Bda.set8_ne _ _ h₂⟩
      show modsOf (m kbdFlag0) (m kbdFlag1) (m kbdFlag2 ||| kf2LastE0) = _
      simp [Mods.step, mods, modsOf_bits, hb1, kf2LastE0]
    rw [if_neg he0] at hr
    by_cases he1 : scancode = 0xe1#8
    · subst he1
      refine oneStep_setFlags h hf ?_ hr
      simp [Mods.step, mods, modsOf_bits, hb1, kf2LastE0, kf2LastE1]
    rw [if_neg he1] at hr
    obtain ⟨hm, hq⟩ := processOther_mods h ho hf hr
    refine ⟨hm.trans ?_, hq⟩
    simp only [Mods.step, hE1, Bool.false_eq_true, if_false, if_neg h00, if_neg h3a, if_neg h2a,
      if_neg haa, if_neg h36, if_neg hb6, if_neg h1d, if_neg h9d, if_neg h38, if_neg hb8, if_neg h45,
      if_neg h46, if_neg he0, if_neg he1]

end Bytes

-- ---------------------------------------------------------------------------
-- Keys
-- ---------------------------------------------------------------------------

/-- A key of a set 1 keyboard. The release of the codes `0x60` and `0x61`
would be a prefix, and no key has them. -/
@[ext] structure Key where
  extended : Bool
  code : BitVec 8
  isKey : 0#8 < code ∧ code < 0x80#8 ∧ code ≠ 0x60#8 ∧ code ≠ 0x61#8
  deriving DecidableEq

def Key.lCtrl : Key := ⟨false, 0x1d#8, by decide⟩
def Key.rCtrl : Key := ⟨true, 0x1d#8, by decide⟩
def Key.lAlt : Key := ⟨false, 0x38#8, by decide⟩
def Key.rAlt : Key := ⟨true, 0x38#8, by decide⟩
def Key.lShift : Key := ⟨false, 0x2a#8, by decide⟩
def Key.rShift : Key := ⟨false, 0x36#8, by decide⟩
def Key.capsLock : Key := ⟨false, 0x3a#8, by decide⟩
def Key.numLock : Key := ⟨false, 0x45#8, by decide⟩
def Key.scrollLock : Key := ⟨false, 0x46#8, by decide⟩

inductive KeyEvent where
  | down (k : Key)
  | up (k : Key)
  /-- the pause key, which sends its release with its press -/
  | pause

/-- The keys that are down, and how often each was pressed. -/
structure Typist where
  held : Key → Bool
  presses : Key → Nat

def Typist.start : Typist := ⟨fun _ => false, fun _ => 0⟩

/-- A key that is down already is not pressed again by its repeat. -/
def KeyEvent.apply (t : Typist) : KeyEvent → Typist
  | .down k =>
    if t.held k then t
    else ⟨Function.update t.held k true, Function.update t.presses k (t.presses k + 1)⟩
  | .up k => { t with held := Function.update t.held k false }
  | .pause => t

def Key.lead (k : Key) : List (BitVec 8) := if k.extended then [0xe0#8] else []

/-- The bytes before the last one of the event. -/
def KeyEvent.lead : KeyEvent → List (BitVec 8)
  | .down k | .up k => k.lead
  | .pause => [0xe1#8, 0x1d#8, 0x45#8, 0xe1#8, 0x9d#8]

def KeyEvent.last : KeyEvent → BitVec 8
  | .down k => k.code
  | .up k => k.code ||| 0x80#8
  | .pause => 0xc5#8

def KeyEvent.stream (t : Typist) (e : KeyEvent) : List (BitVec 8 × Typist) :=
  e.lead.map (·, t) ++ [(e.last, e.apply t)]

def stream (t : Typist) : List KeyEvent → List (BitVec 8 × Typist)
  | [] => []
  | e :: es => e.stream t ++ stream (e.apply t) es

/-- The bytes one after another, up to a reset. -/
def processKeys (m : Bda) : List (BitVec 8) → KeyEnd
  | [] => .returned m
  | b :: bs =>
    match processKey handle154f m b with
    | .returned m' => processKeys m' bs
    | .reset m' => .reset m'

/-- The flags tell which modifiers are down, and each lock has toggled once
for every press since the flags were `s₀`. -/
structure FlagsTrack (s₀ : Mods) (t : Typist) (s : Mods) : Prop where
  ctrl : s.ctrl = (t.held Key.lCtrl || t.held Key.rCtrl)
  alt : s.alt = (t.held Key.lAlt || t.held Key.rAlt)
  lCtrl : s.lCtrl = t.held Key.lCtrl
  lAlt : s.lAlt = t.held Key.lAlt
  rCtrl : s.rCtrl = t.held Key.rCtrl
  rAlt : s.rAlt = t.held Key.rAlt
  lShift : s.lShift = t.held Key.lShift
  rShift : s.rShift = t.held Key.rShift
  caps : s.caps = (s₀.caps ^^ decide (t.presses Key.capsLock % 2 = 1))
  num : s.num = (s₀.num ^^ decide (t.presses Key.numLock % 2 = 1))
  scroll : s.scroll = (s₀.scroll ^^ decide (t.presses Key.scrollLock % 2 = 1))

/-- The other one of two keys that share a code. -/
def Key.twin (k : Key) : Key := { k with extended := !k.extended }

/-- A plain Ctrl or Alt byte that finds the prefix of an earlier key. -/
def Key.StalePrefix (m : Bda) (k : Key) : Prop :=
  k.extended = false ∧ (k.code = 0x1d#8 ∨ k.code = 0x38#8) ∧ hasFlag (m kbdFlag2) kf2LastE0 = true

/-- The event does not take the switch where it forgets the prefix, the other
key of a pair or that a key is still down. -/
def KeyEvent.Followed (m : Bda) (t : Typist) : KeyEvent → Prop
  | .down k =>
    ¬k.StalePrefix m ∧
    (k.extended = true → (k.code = 0x2a#8 → t.held Key.lShift = true) ∧
      (k.code = 0x36#8 → t.held Key.rShift = true) ∧
      k.code ≠ 0x3a#8 ∧ k.code ≠ 0x45#8 ∧ k.code ≠ 0x46#8) ∧
    (k = Key.capsLock ∨ k = Key.numLock ∨ k = Key.scrollLock → t.held k = false)
  | .up k =>
    ¬k.StalePrefix m ∧
    (k.extended = true → (k.code = 0x2a#8 → t.held Key.lShift = false) ∧
      (k.code = 0x36#8 → t.held Key.rShift = false)) ∧
    (k.code = 0x1d#8 ∨ k.code = 0x38#8 → t.held k.twin = false)
  | .pause => True

/-- Every event of the run is one that the switch follows. -/
def AllFollowed (m : Bda) (t : Typist) : List KeyEvent → Prop
  | [] => True
  | e :: es => e.Followed m t ∧
    ∀ m', processKeys m (e.lead ++ [e.last]) = .returned m' → AllFollowed m' (e.apply t) es

-- ---------------------------------------------------------------------------
-- One event
-- ---------------------------------------------------------------------------

section Events

variable {s s₀ : Mods} {t : Typist}

theorem held_down (t : Typist) (k : Key) :
    ((KeyEvent.down k).apply t).held = Function.update t.held k true := by
  by_cases h : t.held k = true
  · simp only [KeyEvent.apply, if_pos h]
    rw [← h, Function.update_eq_self]
  · simp only [KeyEvent.apply, if_neg h]

theorem presses_down (h : t.held k = false) :
    ((KeyEvent.down k).apply t).presses k = t.presses k + 1 := by
  simp [KeyEvent.apply, h]

theorem presses_down_ne (t : Typist) (h : j ≠ k) :
    ((KeyEvent.down k).apply t).presses j = t.presses j := by
  by_cases hk : t.held k = true
  · simp only [KeyEvent.apply, if_pos hk]
  · simp only [KeyEvent.apply, if_neg hk]
    exact Function.update_of_ne h _ _

theorem held_up (t : Typist) (k : Key) :
    ((KeyEvent.up k).apply t).held = Function.update t.held k false := rfl

theorem presses_up (t : Typist) (k j : Key) :
    ((KeyEvent.up k).apply t).presses j = t.presses j := by
  unfold KeyEvent.apply
  rfl

theorem odd_succ (n : Nat) : decide ((n + 1) % 2 = 1) = !decide (n % 2 = 1) := by
  by_cases h : n % 2 = 1
  · have : ¬(n + 1) % 2 = 1 := by omega
    simp [h, this]
  · have : (n + 1) % 2 = 1 := by omega
    simp [h, this]

/-- The keys that the switch knows, under their own code and under the
extended one, and the rest. -/
theorem Key.cases (k : Key) :
    k = Key.lCtrl ∨ k = Key.rCtrl ∨ k = Key.lAlt ∨ k = Key.rAlt ∨ k = Key.lShift ∨ k = Key.rShift ∨
      k = Key.capsLock ∨ k = Key.numLock ∨ k = Key.scrollLock ∨
      (k.extended = true ∧ k.code ∈ [0x2a#8, 0x36#8, 0x3a#8, 0x45#8, 0x46#8]) ∨
      k.code ∉ [0x1d#8, 0x38#8, 0x2a#8, 0x36#8, 0x3a#8, 0x45#8, 0x46#8] := by
  have heq : ∀ j : Key, k = j ↔ k.extended = j.extended ∧ k.code = j.code :=
    fun j => Key.ext_iff
  simp only [heq, List.mem_cons, List.not_mem_nil, or_false, not_or, Key.lCtrl, Key.rCtrl,
    Key.lAlt, Key.rAlt, Key.lShift, Key.rShift, Key.capsLock, Key.numLock, Key.scrollLock]
  cases k.extended <;> simp <;> tauto

theorem FlagsTrack.congr {s' : Mods} {t' : Typist} (h : FlagsTrack s₀ t s)
    (hs : { s' with lastE0 := s.lastE0, lastE1 := s.lastE1 } = s)
    (hheld : ∀ k ∈ [Key.lCtrl, Key.rCtrl, Key.lAlt, Key.rAlt, Key.lShift, Key.rShift],
      t'.held k = t.held k)
    (hpresses : ∀ k ∈ [Key.capsLock, Key.numLock, Key.scrollLock], t'.presses k = t.presses k) :
    FlagsTrack s₀ t' s' := by
  simp only [List.forall_mem_cons, List.not_mem_nil, false_implies, implies_true, and_true]
    at hheld hpresses
  obtain ⟨h₁, h₂, h₃, h₄, h₅, h₆⟩ := hheld
  obtain ⟨h₇, h₈, h₉⟩ := hpresses
  rw [← hs] at h
  constructor
  · rw [h₁, h₂]; exact h.ctrl
  · rw [h₃, h₄]; exact h.alt
  · rw [h₁]; exact h.lCtrl
  · rw [h₃]; exact h.lAlt
  · rw [h₂]; exact h.rCtrl
  · rw [h₄]; exact h.rAlt
  · rw [h₅]; exact h.lShift
  · rw [h₆]; exact h.rShift
  · rw [h₇]; exact h.caps
  · rw [h₈]; exact h.num
  · rw [h₉]; exact h.scroll

/-- The bytes that change more than the prefix. -/
def switchBytes : List (BitVec 8) :=
  [0x3a#8, 0x2a#8, 0xaa#8, 0x36#8, 0xb6#8, 0x1d#8, 0x9d#8, 0x38#8, 0xb8#8, 0x45#8, 0x46#8, 0xe0#8,
    0xe1#8]

theorem step_other (hE1 : s.lastE1 = false) (hb : b ∉ switchBytes) :
    s.step b = s ∨ s.step b = { s with lastE0 := false } := by
  simp only [switchBytes, List.mem_cons, List.not_mem_nil, or_false, not_or] at hb
  simp only [Mods.step, hE1, hb, Bool.false_eq_true, if_false]
  split
  · exact .inl rfl
  · split
    · exact .inl rfl
    · exact .inr rfl

theorem FlagsTrack.other {t' : Typist} (h : FlagsTrack s₀ t s) (hE1 : s.lastE1 = false)
    (hb : b ∉ switchBytes)
    (hheld : ∀ k ∈ [Key.lCtrl, Key.rCtrl, Key.lAlt, Key.rAlt, Key.lShift, Key.rShift],
      t'.held k = t.held k)
    (hpresses : ∀ k ∈ [Key.capsLock, Key.numLock, Key.scrollLock], t'.presses k = t.presses k) :
    FlagsTrack s₀ t' (s.step b) ∧ (s.step b).lastE1 = false := by
  rcases step_other hE1 hb with hs | hs
  · rw [hs]
    exact ⟨h.congr rfl hheld hpresses, hE1⟩
  · rw [hs]
    exact ⟨h.congr rfl hheld hpresses, hE1⟩

theorem down_not_switch (k : Key)
    (hc : k.code ∉ [0x1d#8, 0x38#8, 0x2a#8, 0x36#8, 0x3a#8, 0x45#8, 0x46#8]) :
    k.code ∉ switchBytes := by
  have : ∀ b : BitVec 8, b < 0x80#8 →
      b ∉ [0x1d#8, 0x38#8, 0x2a#8, 0x36#8, 0x3a#8, 0x45#8, 0x46#8] → b ∉ switchBytes := by decide
  exact this _ k.isKey.2.1 hc

theorem up_not_switch (k : Key) (hc : k.code ∉ [0x1d#8, 0x38#8, 0x2a#8, 0x36#8]) :
    k.code ||| 0x80#8 ∉ switchBytes := by
  have : ∀ b : BitVec 8, b < 0x80#8 → b ≠ 0x60#8 → b ≠ 0x61#8 →
      b ∉ [0x1d#8, 0x38#8, 0x2a#8, 0x36#8] → b ||| 0x80#8 ∉ switchBytes := by decide
  exact this _ k.isKey.2.1 k.isKey.2.2.1 k.isKey.2.2.2 hc

theorem held_down_ne {ks : List Key} (hk : k ∉ ks) :
    ∀ j ∈ ks, ((KeyEvent.down k).apply t).held j = t.held j := by
  intro j hj
  rw [held_down, Function.update_of_ne (ne_of_mem_of_not_mem hj hk)]

theorem presses_down_all {ks : List Key} (hk : k ∉ ks) :
    ∀ j ∈ ks, ((KeyEvent.down k).apply t).presses j = t.presses j :=
  fun _ hj => presses_down_ne t (ne_of_mem_of_not_mem hj hk)

theorem held_up_ne {ks : List Key} (hk : k ∉ ks) :
    ∀ j ∈ ks, ((KeyEvent.up k).apply t).held j = t.held j :=
  fun _ hj => Function.update_of_ne (ne_of_mem_of_not_mem hj hk) _ _

theorem down_tracks (h : FlagsTrack s₀ t s) (hE1 : s.lastE1 = false) (k : Key)
    (hE0 : k.code = 0x1d#8 ∨ k.code = 0x38#8 → s.lastE0 = k.extended)
    (hext : k.extended = true → (k.code = 0x2a#8 → t.held Key.lShift = true) ∧
      (k.code = 0x36#8 → t.held Key.rShift = true) ∧
      k.code ≠ 0x3a#8 ∧ k.code ≠ 0x45#8 ∧ k.code ≠ 0x46#8)
    (hlock : k = Key.capsLock ∨ k = Key.numLock ∨ k = Key.scrollLock → t.held k = false) :
    FlagsTrack s₀ ((KeyEvent.down k).apply t) (s.step k.code) ∧
      (s.step k.code).lastE1 = false := by
  rcases k.cases with rfl | rfl | rfl | rfl | rfl | rfl | rfl | rfl | rfl | ⟨hx, hc⟩ | hc
  · have hE0 : s.lastE0 = false := hE0 (by decide)
    have hs : s.step Key.lCtrl.code = { s with lastE0 := false, ctrl := true, lCtrl := true } := by
      simp [Mods.step, Key.lCtrl, hE1, hE0]
    rw [hs]
    refine ⟨?_, hE1⟩
    constructor <;> simp +decide [held_down, presses_down_ne, h.alt, h.lAlt, h.rCtrl, h.rAlt,
      h.lShift, h.rShift, h.caps, h.num, h.scroll]
  · have hE0 : s.lastE0 = true := hE0 (by decide)
    have hs : s.step Key.rCtrl.code = { s with lastE0 := false, ctrl := true, rCtrl := true } := by
      simp [Mods.step, Key.rCtrl, hE1, hE0]
    rw [hs]
    refine ⟨?_, hE1⟩
    constructor <;> simp +decide [held_down, presses_down_ne, h.alt, h.lCtrl, h.lAlt, h.rAlt,
      h.lShift, h.rShift, h.caps, h.num, h.scroll]
  · have hE0 : s.lastE0 = false := hE0 (by decide)
    have hs : s.step Key.lAlt.code = { s with lastE0 := false, alt := true, lAlt := true } := by
      simp [Mods.step, Key.lAlt, hE1, hE0]
    rw [hs]
    refine ⟨?_, hE1⟩
    constructor <;> simp +decide [held_down, presses_down_ne, h.ctrl, h.lCtrl, h.rCtrl, h.rAlt,
      h.lShift, h.rShift, h.caps, h.num, h.scroll]
  · have hE0 : s.lastE0 = true := hE0 (by decide)
    have hs : s.step Key.rAlt.code = { s with lastE0 := false, alt := true, rAlt := true } := by
      simp [Mods.step, Key.rAlt, hE1, hE0]
    rw [hs]
    refine ⟨?_, hE1⟩
    constructor <;> simp +decide [held_down, presses_down_ne, h.ctrl, h.lCtrl, h.lAlt, h.rCtrl,
      h.lShift, h.rShift, h.caps, h.num, h.scroll]
  · have hs : s.step Key.lShift.code = { s with lastE0 := false, lShift := true } := by
      simp [Mods.step, Key.lShift, hE1]
    rw [hs]
    refine ⟨?_, hE1⟩
    constructor <;> simp +decide [held_down, presses_down_ne, h.ctrl, h.alt, h.lCtrl, h.lAlt,
      h.rCtrl, h.rAlt, h.rShift, h.caps, h.num, h.scroll]
  · have hs : s.step Key.rShift.code = { s with lastE0 := false, rShift := true } := by
      simp [Mods.step, Key.rShift, hE1]
    rw [hs]
    refine ⟨?_, hE1⟩
    constructor <;> simp +decide [held_down, presses_down_ne, h.ctrl, h.alt, h.lCtrl, h.lAlt,
      h.rCtrl, h.rAlt, h.lShift, h.caps, h.num, h.scroll]
  · have hp := presses_down (hlock (by decide))
    have hs : s.step Key.capsLock.code = { s with lastE0 := false, caps := !s.caps } := by
      simp [Mods.step, Key.capsLock, hE1]
    rw [hs]
    refine ⟨?_, hE1⟩
    constructor <;> simp +decide [held_down, presses_down_ne, hp, odd_succ, h.ctrl, h.alt, h.lCtrl,
      h.lAlt, h.rCtrl, h.rAlt, h.lShift, h.rShift, h.caps, h.num, h.scroll]
  · have hp := presses_down (hlock (by decide))
    have hs : s.step Key.numLock.code = { s with lastE0 := false, num := !s.num } := by
      simp [Mods.step, Key.numLock, hE1]
    rw [hs]
    refine ⟨?_, hE1⟩
    constructor <;> simp +decide [held_down, presses_down_ne, hp, odd_succ, h.ctrl, h.alt, h.lCtrl,
      h.lAlt, h.rCtrl, h.rAlt, h.lShift, h.rShift, h.caps, h.num, h.scroll]
  · have hp := presses_down (hlock (by decide))
    have hs : s.step Key.scrollLock.code = { s with lastE0 := false, scroll := !s.scroll } := by
      simp [Mods.step, Key.scrollLock, hE1]
    rw [hs]
    refine ⟨?_, hE1⟩
    constructor <;> simp +decide [held_down, presses_down_ne, hp, odd_succ, h.ctrl, h.alt, h.lCtrl,
      h.lAlt, h.rCtrl, h.rAlt, h.lShift, h.rShift, h.caps, h.num, h.scroll]
  · obtain ⟨h2a, h36, h3a, h45, h46⟩ := hext hx
    have hheld : k ∉ [Key.lCtrl, Key.rCtrl, Key.lAlt, Key.rAlt, Key.lShift, Key.rShift] := by
      rintro hm
      simp only [List.mem_cons, List.not_mem_nil, or_false] at hm
      rcases hm with rfl | rfl | rfl | rfl | rfl | rfl <;> revert hx hc <;> decide
    have hpresses : k ∉ [Key.capsLock, Key.numLock, Key.scrollLock] := by
      rintro hm
      simp only [List.mem_cons, List.not_mem_nil, or_false] at hm
      rcases hm with rfl | rfl | rfl <;> revert hx <;> decide
    simp only [List.mem_cons, List.not_mem_nil, or_false, h3a, h45, h46] at hc
    rcases hc with hc | hc
    · have hs : s.step k.code = { s with lastE0 := false, lShift := true } := by
        simp [Mods.step, hc, hE1]
      rw [hs]
      refine ⟨h.congr ?_ (held_down_ne hheld) (presses_down_all hpresses), hE1⟩
      rw [← (h.lShift.trans (h2a hc))]
    · have hs : s.step k.code = { s with lastE0 := false, rShift := true } := by
        simp [Mods.step, hc, hE1]
      rw [hs]
      refine ⟨h.congr ?_ (held_down_ne hheld) (presses_down_all hpresses), hE1⟩
      rw [← (h.rShift.trans (h36 hc))]
  · apply h.other hE1 (down_not_switch k hc) (held_down_ne _) (presses_down_all _)
    · rintro hm
      simp only [List.mem_cons, List.not_mem_nil, or_false] at hm
      rcases hm with rfl | rfl | rfl | rfl | rfl | rfl <;> revert hc <;> decide
    · rintro hm
      simp only [List.mem_cons, List.not_mem_nil, or_false] at hm
      rcases hm with rfl | rfl | rfl <;> revert hc <;> decide

theorem up_tracks (h : FlagsTrack s₀ t s) (hE1 : s.lastE1 = false) (k : Key)
    (hE0 : k.code = 0x1d#8 ∨ k.code = 0x38#8 → s.lastE0 = k.extended)
    (hext : k.extended = true → (k.code = 0x2a#8 → t.held Key.lShift = false) ∧
      (k.code = 0x36#8 → t.held Key.rShift = false))
    (htwin : k.code = 0x1d#8 ∨ k.code = 0x38#8 → t.held k.twin = false) :
    FlagsTrack s₀ ((KeyEvent.up k).apply t) (s.step (k.code ||| 0x80#8)) ∧
      (s.step (k.code ||| 0x80#8)).lastE1 = false := by
  have hpresses : ∀ j ∈ [Key.capsLock, Key.numLock, Key.scrollLock],
      ((KeyEvent.up k).apply t).presses j = t.presses j := fun _ _ => rfl
  rcases k.cases with rfl | rfl | rfl | rfl | rfl | rfl | rfl | rfl | rfl | ⟨hx, hc⟩ | hc
  · have ht : t.held Key.rCtrl = false := htwin (by decide)
    have hE0 : s.lastE0 = false := hE0 (by decide)
    have hs : s.step (Key.lCtrl.code ||| 0x80#8) =
        { s with lastE0 := false, ctrl := false, lCtrl := false } := by
      simp [Mods.step, Key.lCtrl, hE1, hE0]
    rw [hs]
    refine ⟨?_, hE1⟩
    constructor <;> simp +decide [held_up, presses_up, ht, h.alt, h.lAlt, h.rCtrl, h.rAlt, h.lShift,
      h.rShift, h.caps, h.num, h.scroll]
  · have ht : t.held Key.lCtrl = false := htwin (by decide)
    have hE0 : s.lastE0 = true := hE0 (by decide)
    have hs : s.step (Key.rCtrl.code ||| 0x80#8) =
        { s with lastE0 := false, ctrl := false, rCtrl := false } := by
      simp [Mods.step, Key.rCtrl, hE1, hE0]
    rw [hs]
    refine ⟨?_, hE1⟩
    constructor <;> simp +decide [held_up, presses_up, ht, h.alt, h.lCtrl, h.lAlt, h.rAlt, h.lShift,
      h.rShift, h.caps, h.num, h.scroll]
  · have ht : t.held Key.rAlt = false := htwin (by decide)
    have hE0 : s.lastE0 = false := hE0 (by decide)
    have hs : s.step (Key.lAlt.code ||| 0x80#8) =
        { s with lastE0 := false, alt := false, lAlt := false } := by
      simp [Mods.step, Key.lAlt, hE1, hE0]
    rw [hs]
    refine ⟨?_, hE1⟩
    constructor <;> simp +decide [held_up, presses_up, ht, h.ctrl, h.lCtrl, h.rCtrl, h.rAlt, h.lShift,
      h.rShift, h.caps, h.num, h.scroll]
  · have ht : t.held Key.lAlt = false := htwin (by decide)
    have hE0 : s.lastE0 = true := hE0 (by decide)
    have hs : s.step (Key.rAlt.code ||| 0x80#8) =
        { s with lastE0 := false, alt := false, rAlt := false } := by
      simp [Mods.step, Key.rAlt, hE1, hE0]
    rw [hs]
    refine ⟨?_, hE1⟩
    constructor <;> simp +decide [held_up, presses_up, ht, h.ctrl, h.lCtrl, h.lAlt, h.rCtrl, h.lShift,
      h.rShift, h.caps, h.num, h.scroll]
  · have hs : s.step (Key.lShift.code ||| 0x80#8) =
        { s with lastE0 := false, lShift := false } := by
      simp [Mods.step, Key.lShift, hE1]
    rw [hs]
    refine ⟨?_, hE1⟩
    constructor <;> simp +decide [held_up, presses_up, h.ctrl, h.alt, h.lCtrl, h.lAlt, h.rCtrl, h.rAlt,
      h.rShift, h.caps, h.num, h.scroll]
  · have hs : s.step (Key.rShift.code ||| 0x80#8) =
        { s with lastE0 := false, rShift := false } := by
      simp [Mods.step, Key.rShift, hE1]
    rw [hs]
    refine ⟨?_, hE1⟩
    constructor <;> simp +decide [held_up, presses_up, h.ctrl, h.alt, h.lCtrl, h.lAlt, h.rCtrl, h.rAlt,
      h.lShift, h.caps, h.num, h.scroll]
  · exact h.other hE1 (up_not_switch _ (by decide)) (held_up_ne (by decide)) hpresses
  · exact h.other hE1 (up_not_switch _ (by decide)) (held_up_ne (by decide)) hpresses
  · exact h.other hE1 (up_not_switch _ (by decide)) (held_up_ne (by decide)) hpresses
  · obtain ⟨h2a, h36⟩ := hext hx
    have hheld : k ∉ [Key.lCtrl, Key.rCtrl, Key.lAlt, Key.rAlt, Key.lShift, Key.rShift] := by
      rintro hm
      simp only [List.mem_cons, List.not_mem_nil, or_false] at hm
      rcases hm with rfl | rfl | rfl | rfl | rfl | rfl <;> revert hx hc <;> decide
    by_cases hc2a : k.code = 0x2a#8
    · have hs : s.step (k.code ||| 0x80#8) = { s with lastE0 := false, lShift := false } := by
        simp [Mods.step, hc2a, hE1]
      rw [hs]
      refine ⟨h.congr ?_ (held_up_ne hheld) hpresses, hE1⟩
      rw [← (h.lShift.trans (h2a hc2a))]
    by_cases hc36 : k.code = 0x36#8
    · have hs : s.step (k.code ||| 0x80#8) = { s with lastE0 := false, rShift := false } := by
        simp [Mods.step, hc36, hE1]
      rw [hs]
      refine ⟨h.congr ?_ (held_up_ne hheld) hpresses, hE1⟩
      rw [← (h.rShift.trans (h36 hc36))]
    have hc' : k.code ∉ [0x1d#8, 0x38#8, 0x2a#8, 0x36#8] := by
      have : ∀ b : BitVec 8, b ∈ [0x2a#8, 0x36#8, 0x3a#8, 0x45#8, 0x46#8] → b ≠ 0x2a#8 →
          b ≠ 0x36#8 → b ∉ [0x1d#8, 0x38#8, 0x2a#8, 0x36#8] := by decide
      exact this _ hc hc2a hc36
    exact h.other hE1 (up_not_switch k hc') (held_up_ne hheld) hpresses
  · have hheld : k ∉ [Key.lCtrl, Key.rCtrl, Key.lAlt, Key.rAlt, Key.lShift, Key.rShift] := by
      rintro hm
      simp only [List.mem_cons, List.not_mem_nil, or_false] at hm
      rcases hm with rfl | rfl | rfl | rfl | rfl | rfl <;> revert hc <;> decide
    refine h.other hE1 (up_not_switch k fun hm => hc ?_) (held_up_ne hheld) hpresses
    simp only [List.mem_cons, List.not_mem_nil, or_false] at hm ⊢
    tauto

/-- On the way to its last byte an event only moves the prefixes. -/
theorem lead_mods (hE1 : s.lastE1 = false) (e : KeyEvent) (h : e.lead = pre ++ post) :
    { pre.foldl Mods.step s with lastE0 := s.lastE0, lastE1 := s.lastE1 } = s := by
  have hpre : pre ∈ [[], [0xe0#8], [0xe1#8], [0xe1#8, 0x1d#8], [0xe1#8, 0x1d#8, 0x45#8],
      [0xe1#8, 0x1d#8, 0x45#8, 0xe1#8], [0xe1#8, 0x1d#8, 0x45#8, 0xe1#8, 0x9d#8]] := by
    have hinits : pre ∈ e.lead.inits := (List.mem_inits _ _).mpr ⟨post, h.symm⟩
    have hkey : ∀ k : Key, k.lead = [] ∨ k.lead = [0xe0#8] := by
      intro k
      cases hx : k.extended with
      | true => exact .inr (if_pos hx)
      | false => exact .inl (if_neg (by rw [hx]; exact Bool.false_ne_true))
    cases e with
    | down k | up k =>
      rw [KeyEvent.lead] at hinits
      rcases hkey k with hk | hk <;> rw [hk] at hinits <;> revert hinits <;> simp <;> tauto
    | pause =>
      revert hinits
      simp [KeyEvent.lead]
      tauto
  cases s
  cases hE1
  simp only [List.mem_cons, List.not_mem_nil, or_false] at hpre
  rcases hpre with rfl | rfl | rfl | rfl | rfl | rfl | rfl <;> simp [Mods.step]

theorem foldl_lead (hE1 : s.lastE1 = false) (k : Key) :
    k.lead.foldl Mods.step s = if k.extended then { s with lastE0 := true } else s := by
  unfold Key.lead
  split
  · simp [Mods.step, hE1]
  · rfl

theorem lead_tracks (h : FlagsTrack s₀ t s) (hE1 : s.lastE1 = false) (k : Key)
    (hstale : ¬(k.extended = false ∧ (k.code = 0x1d#8 ∨ k.code = 0x38#8) ∧ s.lastE0 = true)) :
    let s' := k.lead.foldl Mods.step s
    FlagsTrack s₀ t s' ∧ s'.lastE1 = false ∧
      (k.code = 0x1d#8 ∨ k.code = 0x38#8 → s'.lastE0 = k.extended) := by
  intro s'
  have hs' : s' = if k.extended then { s with lastE0 := true } else s := foldl_lead hE1 k
  cases hx : k.extended with
  | true =>
    rw [hx, if_pos rfl] at hs'
    rw [hs']
    exact ⟨h.congr rfl (fun _ _ => rfl) (fun _ _ => rfl), hE1, fun _ => rfl⟩
  | false =>
    rw [hx, if_neg Bool.false_ne_true] at hs'
    rw [hs']
    refine ⟨h, hE1, fun hc => ?_⟩
    cases hE0 : s.lastE0 with
    | true => exact absurd ⟨hx, hc, hE0⟩ hstale
    | false => rfl

theorem event_tracks {m : Bda} (h : FlagsTrack s₀ t (mods m)) (hE1 : (mods m).lastE1 = false)
    (e : KeyEvent) (he : e.Followed m t) :
    let s' := (e.lead ++ [e.last]).foldl Mods.step (mods m)
    FlagsTrack s₀ (e.apply t) s' ∧ s'.lastE1 = false := by
  intro s'
  have hs' : s' = (e.lead.foldl Mods.step (mods m)).step e.last := by
    simp only [s', List.foldl_append, List.foldl_cons, List.foldl_nil]
  rw [hs']
  cases e with
  | down k =>
    obtain ⟨hstale, hext, hlock⟩ := he
    obtain ⟨hl, hl1, hl0⟩ := lead_tracks h hE1 k hstale
    exact down_tracks hl hl1 k hl0 hext hlock
  | up k =>
    obtain ⟨hstale, hext, htwin⟩ := he
    obtain ⟨hl, hl1, hl0⟩ := lead_tracks h hE1 k hstale
    exact up_tracks hl hl1 k hl0 hext htwin
  | pause =>
    have hp : (KeyEvent.pause.lead.foldl Mods.step (mods m)).step KeyEvent.pause.last =
        { mods m with lastE0 := false, lastE1 := false } := by
      simp [KeyEvent.lead, KeyEvent.last, Mods.step, hE1]
    rw [hp]
    exact ⟨h.congr rfl (fun _ _ => rfl) (fun _ _ => rfl), rfl⟩

end Events

-- ---------------------------------------------------------------------------
-- Runs
-- ---------------------------------------------------------------------------

section Runs

variable {m m' m₀ : Bda} {lo hi : Nat} {q : List StoredKey} {s₀ : Mods} {t : Typist}

/-- With the BIOS's own intercept every key arrives as it was sent. -/
theorem processKey_bios (m : Bda) (key : BitVec 8) :
    processKey handle154f m key = processScancode m key := by
  have hlow : ∀ key : BitVec 8, lowByte ((0x4f#16 <<< 8) ||| key.setWidth 16) = key := by decide
  have hcf : ¬((1#16 <<< 9 ||| fCF) ||| fCF) &&& fCF = 0 := by decide
  simp only [processKey, handle154f, if_neg hcf, hlow]

theorem processKeys_append (m : Bda) (bs cs : List (BitVec 8)) :
    processKeys m (bs ++ cs) =
      match processKeys m bs with
      | .returned m' => processKeys m' cs
      | .reset m' => .reset m' := by
  induction bs generalizing m with
  | nil => rfl
  | cons b bs ih =>
    simp only [List.cons_append, processKeys]
    cases processKey handle154f m b with
    | returned m' => exact ih m'
    | reset m' => rfl

theorem processKeys_split (h : processKeys m (bs ++ cs) = .returned m') :
    ∃ m₁, processKeys m bs = .returned m₁ ∧ processKeys m₁ cs = .returned m' := by
  rw [processKeys_append] at h
  cases hb : processKeys m bs with
  | returned m₁ =>
    rw [hb] at h
    exact ⟨m₁, rfl, h⟩
  | reset m₁ =>
    rw [hb] at h
    cases h

theorem processKeys_mods (h : KeyQueue m lo hi q) (ho : PointersOutside lo hi)
    (hf : FlagsOutside lo hi) (hr : processKeys m bs = .returned m') :
    mods m' = bs.foldl Mods.step (mods m) ∧ ∃ q, KeyQueue m' lo hi q := by
  induction bs generalizing m q with
  | nil =>
    cases hr
    exact ⟨rfl, q, h⟩
  | cons b bs ih =>
    rw [processKeys, processKey_bios] at hr
    cases hb : processScancode m b with
    | returned m₁ =>
      rw [hb] at hr
      obtain ⟨hm, q₁, hq₁⟩ := processScancode_mods h ho hf b hb
      obtain ⟨hm', hq'⟩ := ih hq₁ hr
      rw [List.foldl_cons, ← hm]
      exact ⟨hm', hq'⟩
    | reset m₁ =>
      rw [hb] at hr
      cases hr

theorem map_fst_tag (bs : List (BitVec 8)) (t : Typist) :
    (bs.map fun b => (b, t)).map Prod.fst = bs := by
  rw [List.map_map]
  exact List.map_id bs

theorem stream_place {e : KeyEvent} {c : BitVec 8 × Typist} (h : e.stream t = pre ++ c :: post) :
    (c.2 = t ∧ ∃ rest, e.lead = (pre.map Prod.fst ++ [c.1]) ++ rest) ∨
      (c.2 = e.apply t ∧ pre.map Prod.fst ++ [c.1] = e.lead ++ [e.last]) := by
  unfold KeyEvent.stream at h
  rcases List.eq_nil_or_concat post with rfl | ⟨post', d, rfl⟩
  · obtain ⟨hpre, hc⟩ := List.append_inj' h rfl
    cases hc
    rw [← hpre, map_fst_tag]
    exact .inr ⟨rfl, rfl⟩
  · have h' : e.lead.map (·, t) ++ [(e.last, e.apply t)] = (pre ++ c :: post') ++ [d] := by
      simpa using h
    obtain ⟨hlead, -⟩ := List.append_inj' h' rfl
    refine .inl ⟨?_, post'.map Prod.fst, ?_⟩
    · have hc : c ∈ e.lead.map (·, t) := by
        rw [hlead]
        simp
      obtain ⟨b, -, rfl⟩ := List.mem_map.mp hc
      rfl
    · have hfst := congrArg (List.map Prod.fst) hlead
      rw [map_fst_tag] at hfst
      simpa using hfst

theorem flags_track_from (hq : KeyQueue m lo hi q) (ho : PointersOutside lo hi)
    (hf : FlagsOutside lo hi) (ht : FlagsTrack s₀ t (mods m)) (hE1 : (mods m).lastE1 = false)
    (es : List KeyEvent) (hes : AllFollowed m t es) {pre post : List (BitVec 8 × Typist)}
    {c : BitVec 8 × Typist} (hs : stream t es = pre ++ c :: post)
    (hr : processKeys m (pre.map Prod.fst ++ [c.1]) = .returned m') :
    FlagsTrack s₀ c.2 (mods m') := by
  induction es generalizing m t q pre with
  | nil => simp [stream] at hs
  | cons e es ih =>
    obtain ⟨he, hes⟩ := hes
    obtain ⟨hte, hE1e⟩ := event_tracks ht hE1 e he
    -- the place is in a later event, or in this one
    have hsplit : (∃ a, pre = e.stream t ++ a ∧ stream (e.apply t) es = a ++ c :: post) ∨
        ∃ d, e.stream t = pre ++ c :: d := by
      rcases List.append_eq_append_iff.mp hs with ⟨a, ha, hb⟩ | ⟨d, hd, hb⟩
      · exact .inl ⟨a, ha, hb⟩
      · cases d with
        | nil => exact .inl ⟨[], by simpa using hd.symm, by simpa using hb.symm⟩
        | cons d ds =>
          obtain ⟨rfl, -⟩ := List.cons.inj hb
          exact .inr ⟨ds, hd⟩
    rcases hsplit with ⟨a, rfl, ha⟩ | ⟨d, hd⟩
    · have hbytes : (e.stream t).map Prod.fst = e.lead ++ [e.last] := by
        rw [KeyEvent.stream, List.map_append, map_fst_tag]
        rfl
      rw [List.map_append, hbytes, List.append_assoc] at hr
      obtain ⟨m₁, hm₁, hr'⟩ := processKeys_split hr
      obtain ⟨hmods, q₁, hq₁⟩ := processKeys_mods hq ho hf hm₁
      rw [← hmods] at hte hE1e
      exact ih hq₁ hte hE1e (hes m₁ hm₁) ha hr'
    · obtain ⟨hmods, -⟩ := processKeys_mods hq ho hf hr
      rw [hmods]
      rcases stream_place hd with ⟨hc, rest, hlead⟩ | ⟨hc, hbytes⟩
      · rw [hc]
        exact ht.congr (lead_mods hE1 e hlead) (fun _ _ => rfl) (fun _ _ => rfl)
      · rw [hc, hbytes]
        exact hte

/-- No key is down: no modifier flag is set and no prefix is pending. -/
structure KeysUp (m : Bda) : Prop where
  ctrl : (mods m).ctrl = false
  alt : (mods m).alt = false
  lCtrl : (mods m).lCtrl = false
  lAlt : (mods m).lAlt = false
  rCtrl : (mods m).rCtrl = false
  rAlt : (mods m).rAlt = false
  lShift : (mods m).lShift = false
  rShift : (mods m).rShift = false
  lastE1 : (mods m).lastE1 = false

theorem KeysUp.tracks (h : KeysUp m) : FlagsTrack (mods m) Typist.start (mods m) where
  ctrl := h.ctrl
  alt := h.alt
  lCtrl := h.lCtrl
  lAlt := h.lAlt
  rCtrl := h.rCtrl
  rAlt := h.rAlt
  lShift := h.lShift
  rShift := h.rShift
  caps := by simp [Typist.start]
  num := by simp [Typist.start]
  scroll := by simp [Typist.start]

/-- After every byte of every stream whose events the switch follows. -/
theorem modifier_flags_track (h₀ : KeysUp m₀) (hq : KeyQueue m₀ lo hi q)
    (ho : PointersOutside lo hi) (hf : FlagsOutside lo hi) (es : List KeyEvent)
    (hes : AllFollowed m₀ Typist.start es) (pre post : List (BitVec 8 × Typist))
    (c : BitVec 8 × Typist) (hs : stream Typist.start es = pre ++ c :: post)
    (hr : processKeys m₀ (pre.map Prod.fst ++ [c.1]) = .returned m) :
    FlagsTrack (mods m₀) c.2 (mods m) :=
  flags_track_from hq ho hf h₀.tracks h₀.lastE1 es hes hs hr

/-- The data area after `kbd_init`, with the rest zero. -/
def keyboardStart : Bda := kbdInit fun _ => 0#8

theorem keyboardStart_up : KeysUp keyboardStart := by
  constructor <;> decide

theorem modifier_flags_track_capital :
    ∃ m, processKeys keyboardStart [0x2a#8, 0x3a#8] = .returned m ∧
      FlagsTrack (mods keyboardStart)
        ((KeyEvent.down .capsLock).apply ((KeyEvent.down .lShift).apply Typist.start)) (mods m) :=
  ⟨_, rfl, modifier_flags_track keyboardStart_up (kbdInit_window _).queue
    ⟨by decide, by decide⟩ ⟨by decide, by decide⟩ [.down .lShift, .down .capsLock]
    ⟨⟨fun h => absurd h.2.1 (by decide), by decide, by decide⟩, fun _ _ =>
      ⟨⟨fun h => absurd h.2.1 (by decide), by decide, fun _ => by decide⟩, fun _ _ => trivial⟩⟩
    [(0x2a#8, (KeyEvent.down .lShift).apply Typist.start)] [] (0x3a#8, _) rfl rfl⟩

/-- The release of the right Ctrl key clears the active bit, although the
left one is still down and its own flag says so. -/
theorem right_ctrl_release_drops_left :
    let es := [KeyEvent.down .lCtrl, .down .rCtrl, .up .rCtrl]
    let t := es.foldl KeyEvent.apply Typist.start
    ∃ m, processKeys keyboardStart ((stream Typist.start es).map Prod.fst) = .returned m ∧
      t.held .lCtrl = true ∧ hasFlag (m kbdFlag1) kf1LCtrl = true ∧
      hasFlag (m kbdFlag0) kf0CtrlActive = false ∧
      ¬FlagsTrack (mods keyboardStart) t (mods m) := by
  refine ⟨_, rfl, by decide, by decide, by decide, fun h => ?_⟩
  have hc := h.ctrl
  revert hc
  decide

/-- The left Windows key is not in the table and leaves its prefix behind: the
left Ctrl key after it counts as the right one. -/
example : ∃ m, processKeys keyboardStart [0xe0#8, 0x5b#8, 0x1d#8] = .returned m ∧
    hasFlag (m kbdFlag2) kf2RCtrl = true ∧ hasFlag (m kbdFlag1) kf1LCtrl = false :=
  ⟨_, rfl, by decide, by decide⟩

end Runs

end ItxLlama.Seabios
