import ItxLlama.Lib.Ring
import ItxLlama.Seabios.Kbd

/-!
# The keystroke buffer is a queue

The window of the data area is a ring of two-byte slots. As long as the
window does not contain the four words that describe it, every sequence of
stores, reads and checks behaves as a queue with one key less than the ring
has slots.
-/

namespace ItxLlama.Seabios

open Lib Lib.Word

-- ---------------------------------------------------------------------------
-- Calls
-- ---------------------------------------------------------------------------

inductive KbdCall where
  /-- the keyboard's interrupt -/
  | enqueue (scanCode asciiCode : BitVec 8)
  /-- `int 16h/05h` -/
  | store (regs : KbdRegs)
  /-- `int 16h/00h`, and `10h` when `extended` -/
  | read (regs : KbdRegs) (extended : Bool)
  /-- `int 16h/01h`, and `11h` when `extended` -/
  | check (regs : KbdRegs) (extended : Bool)

inductive KbdAnswer where
  | stored (ok : Bool)
  | regs (regs : KbdRegs)
  | waits
  deriving DecidableEq, Repr

def KbdCall.run (m : Bda) : KbdCall → Bda × KbdAnswer
  | .enqueue scanCode asciiCode =>
    let r := enqueueKey m scanCode asciiCode
    (r.1, .stored r.2)
  | .store regs =>
    let r := handle1605 m regs
    (r.1, .regs r.2)
  | .read regs extended =>
    match dequeueKey m regs true extended with
    | none => (m, .waits)
    | some r => (r.1, .regs r.2)
  | .check regs extended =>
    match dequeueKey m regs false extended with
    | none => (m, .waits)
    | some r => (r.1, .regs r.2)

def runKbd (m : Bda) : List KbdCall → Bda × List KbdAnswer
  | [] => (m, [])
  | c :: cs =>
    let r := runKbd (c.run m).1 cs
    (r.1, (c.run m).2 :: r.2)

/-- A key in the buffer: scancode and ASCII code. -/
abbrev StoredKey := BitVec 8 × BitVec 8

/-- What the call asks of the queue. -/
def KbdCall.call : KbdCall → Ring.Call StoredKey
  | .enqueue scanCode asciiCode => .put (scanCode, asciiCode)
  | .store regs => .put (regs.ch, regs.cl)
  | .read .. => .take
  | .check .. => .look

/-- How the call reports the queue's answer. -/
def KbdCall.report : KbdCall → Ring.Answer StoredKey → KbdAnswer
  | .enqueue .., .stored => .stored true
  | .enqueue .., _ => .stored false
  | .store regs, .stored => .regs (regs.setAl 0#8)
  | .store regs, _ => .regs (regs.setAl 1#8)
  | .read regs extended, .taken k => .regs { regs with ax := keyAx k.1 k.2 extended }
  | .read .., _ => .waits
  | .check regs extended, .seen k =>
    .regs { regs with ax := keyAx k.1 k.2 extended, flags := regs.flags &&& ~~~fZF }
  | .check regs _, _ => .regs { regs with flags := regs.flags ||| fZF }

-- ---------------------------------------------------------------------------
-- The window
-- ---------------------------------------------------------------------------

/-- An empty buffer window `[lo, hi)`. -/
structure EmptyWindow (m : Bda) (lo hi : Nat) : Prop where
  start_eq : m.get16 kbdBufStartOffset = lo
  end_eq : m.get16 kbdBufEndOffset = hi
  lt : lo < hi
  even_lo : lo % 2 = 0
  even_hi : hi % 2 = 0
  head_ge : lo ≤ m.get16 kbdBufHead
  head_lt : m.get16 kbdBufHead < hi
  even_head : m.get16 kbdBufHead % 2 = 0
  tail_eq : m.get16 kbdBufTail = m.get16 kbdBufHead

/-- The window has none of the words that describe it. -/
structure PointersOutside (lo hi : Nat) : Prop where
  headTail : kbdBufTail + 2 ≤ lo ∨ hi ≤ kbdBufHead
  startEnd : kbdBufEndOffset + 2 ≤ lo ∨ hi ≤ kbdBufStartOffset

/-- Head and tail are even offsets in the window. -/
def PointersInside (m : Bda) (lo hi : Nat) : Prop :=
  (lo ≤ m.get16 kbdBufHead ∧ m.get16 kbdBufHead < hi ∧ m.get16 kbdBufHead % 2 = 0) ∧
    lo ≤ m.get16 kbdBufTail ∧ m.get16 kbdBufTail < hi ∧ m.get16 kbdBufTail % 2 = 0

/-- Slot `i` of the window at `lo`. -/
def slot (m : Bda) (lo i : Nat) : StoredKey := (m (lo + 2 * i + 1), m (lo + 2 * i))

/-- The window holds the keys of `q`. -/
structure KeyQueue (m : Bda) (lo hi : Nat) (q : List StoredKey) : Prop where
  start_eq : m.get16 kbdBufStartOffset = lo
  end_eq : m.get16 kbdBufEndOffset = hi
  lt : lo < hi
  hi_lt : hi < 2 ^ 16
  even_lo : lo % 2 = 0
  even_hi : hi % 2 = 0
  ring : ∃ head tail, m.get16 kbdBufHead = lo + 2 * head ∧ m.get16 kbdBufTail = lo + 2 * tail ∧
    Ring.Holds ((hi - lo) / 2) (slot m lo) head tail q

theorem get16_lt (m : Bda) (a : Nat) : m.get16 a < 2 ^ 16 := by
  have h₁ := (m a).isLt
  have h₂ := (m (a + 1)).isLt
  unfold Bda.get16
  omega

section Window

variable {m : Bda} {lo hi : Nat} {q : List StoredKey}

theorem EmptyWindow.queue (h : EmptyWindow m lo hi) : KeyQueue m lo hi [] where
  start_eq := h.start_eq
  end_eq := h.end_eq
  lt := h.lt
  hi_lt := h.end_eq ▸ get16_lt m kbdBufEndOffset
  even_lo := h.even_lo
  even_hi := h.even_hi
  ring := by
    have h₁ := h.head_ge
    have h₂ := h.head_lt
    have h₃ := h.even_head
    have h₄ := h.even_lo
    have h₅ := h.even_hi
    refine ⟨(m.get16 kbdBufHead - lo) / 2, (m.get16 kbdBufHead - lo) / 2, by omega, ?_,
      Ring.holds_nil (by omega)⟩
    rw [h.tail_eq]
    omega

theorem KeyQueue.pointers (h : KeyQueue m lo hi q) : PointersInside m lo hi := by
  obtain ⟨head, tail, hh, ht, hr⟩ := h.ring
  have h₁ := hr.head_lt
  have h₂ := hr.tail_lt
  have h₃ := h.even_lo
  unfold PointersInside
  omega

theorem KeyQueue.length_le (h : KeyQueue m lo hi q) : q.length ≤ (hi - lo) / 2 - 1 := by
  obtain ⟨head, tail, -, -, hr⟩ := h.ring
  exact Nat.le_sub_one_of_lt hr.room

theorem KeyQueue.advance (h : KeyQueue m lo hi q) {i : Nat} (hi' : i < (hi - lo) / 2) :
    (if u16 (lo + 2 * i + 2) ≥ hi then lo else u16 (lo + 2 * i + 2)) =
      lo + 2 * Ring.next ((hi - lo) / 2) i := by
  have h₁ := h.hi_lt
  have h₂ := h.even_lo
  have h₃ := h.even_hi
  have h₄ := h.lt
  rw [u16_eq (by omega)]
  unfold Ring.next
  split <;> split <;> omega

theorem slot_set16 {a i : Nat} (v : Nat) (ha : a + 2 ≤ lo ∨ hi ≤ a) (hi' : i < (hi - lo) / 2) :
    slot (m.set16 a v) lo i = slot m lo i := by
  unfold slot
  rw [Bda.set16_ne _ _ (by omega) (by omega), Bda.set16_ne _ _ (by omega) (by omega)]

theorem slot_put (m : Bda) (lo : Nat) (k : StoredKey) :
    slot ((m.set8 (lo + 2 * t) k.2).set8 (lo + 2 * t + 1) k.1) lo t = k := by
  unfold slot
  rw [Bda.set8_same, Bda.set8_ne _ _ (by omega), Bda.set8_same]

theorem slot_put_ne (m : Bda) (lo : Nat) (k : StoredKey) (hne : i ≠ t) :
    slot ((m.set8 (lo + 2 * t) k.2).set8 (lo + 2 * t + 1) k.1) lo i = slot m lo i := by
  unfold slot
  rw [Bda.set8_ne _ _ (by omega), Bda.set8_ne _ _ (by omega), Bda.set8_ne _ _ (by omega),
    Bda.set8_ne _ _ (by omega)]

-- ---------------------------------------------------------------------------
-- The two functions
-- ---------------------------------------------------------------------------

/-- A key in the free slot and the tail behind it: what an accepted store
leaves in memory. -/
theorem KeyQueue.put (h : KeyQueue m lo hi q) (ho : PointersOutside lo hi) (k : StoredKey)
    (hroom : q.length < (hi - lo) / 2 - 1) (ht : m.get16 kbdBufTail = lo + 2 * t) :
    KeyQueue (((m.set8 (lo + 2 * t) k.2).set8 (lo + 2 * t + 1) k.1).set16 kbdBufTail
      (lo + 2 * Ring.next ((hi - lo) / 2) t)) lo hi (q ++ [k]) := by
  obtain ⟨head, tail, hh, ht', hr⟩ := h.ring
  obtain rfl : t = tail := by omega
  have htl := hr.tail_lt
  have hnx := Ring.next_lt htl
  have hlt := h.lt
  have hi16 := h.hi_lt
  have hp := ho.headTail
  have hs := ho.startEnd
  simp only [kbdBufHead, kbdBufTail, kbdBufStartOffset, kbdBufEndOffset] at hp hs
  -- the slot at the tail is inside the window, the other words outside
  have hframe : ∀ a, (a + 2 ≤ lo ∨ hi ≤ a) → (a + 2 ≤ kbdBufTail ∨ kbdBufTail + 2 ≤ a) →
      Bda.get16 (((m.set8 (lo + 2 * t) k.2).set8 (lo + 2 * t + 1) k.1).set16 kbdBufTail
        (lo + 2 * Ring.next ((hi - lo) / 2) t)) a = m.get16 a := by
    intro a ha hb
    rw [Bda.get16_set16_ne _ _ (by omega), Bda.get16_set8_ne _ _ (by omega) (by omega),
      Bda.get16_set8_ne _ _ (by omega) (by omega)]
  have htail : kbdBufTail + 2 ≤ lo ∨ hi ≤ kbdBufTail := by
    simp only [kbdBufTail]
    omega
  constructor
  · rw [hframe _ (by simp only [kbdBufStartOffset]; omega) (by decide)]
    exact h.start_eq
  · rw [hframe _ (by simp only [kbdBufEndOffset]; omega) (by decide)]
    exact h.end_eq
  · exact hlt
  · exact hi16
  · exact h.even_lo
  · exact h.even_hi
  · refine ⟨head, Ring.next ((hi - lo) / 2) t, ?_, Bda.get16_set16 _ _ (by omega),
      hr.push (by omega) ?_ ?_⟩
    · rw [hframe _ (by simp only [kbdBufHead]; omega) (by decide)]
      exact hh
    · intro i hi' hne
      rw [slot_set16 _ htail hi', slot_put_ne _ _ _ hne]
    · rw [slot_set16 _ htail htl, slot_put]

theorem KeyQueue.pop {k : StoredKey} (h : KeyQueue m lo hi (k :: q)) (ho : PointersOutside lo hi)
    (hh : m.get16 kbdBufHead = lo + 2 * i) :
    KeyQueue (m.set16 kbdBufHead (lo + 2 * Ring.next ((hi - lo) / 2) i)) lo hi q := by
  obtain ⟨head, tail, hh', ht, hr⟩ := h.ring
  obtain rfl : i = head := by omega
  have hnx := Ring.next_lt hr.head_lt
  have hlt := h.lt
  have hi16 := h.hi_lt
  have hhead : kbdBufHead + 2 ≤ lo ∨ hi ≤ kbdBufHead := by
    have := ho.headTail
    simp only [kbdBufHead, kbdBufTail] at this ⊢
    omega
  constructor
  · rw [Bda.get16_set16_ne _ _ (by decide)]
    exact h.start_eq
  · rw [Bda.get16_set16_ne _ _ (by decide)]
    exact h.end_eq
  · exact hlt
  · exact hi16
  · exact h.even_lo
  · exact h.even_hi
  · refine ⟨Ring.next ((hi - lo) / 2) i, tail, Bda.get16_set16 _ _ (by omega), ?_,
      hr.pop.congr fun j hj => slot_set16 _ hhead hj⟩
    rw [Bda.get16_set16_ne _ _ (by decide)]
    exact ht

theorem enqueueKey_full (h : KeyQueue m lo hi q) (hlen : ¬q.length < (hi - lo) / 2 - 1)
    (scanCode asciiCode : BitVec 8) : enqueueKey m scanCode asciiCode = (m, false) := by
  obtain ⟨head, tail, hh, ht, hr⟩ := h.ring
  have hroom := hr.room
  have hnext : Ring.next ((hi - lo) / 2) tail = head := hr.full_iff.mpr (by omega)
  simp only [enqueueKey, h.start_eq, h.end_eq, hh, ht, h.advance hr.tail_lt, hnext, if_true]

theorem enqueueKey_room (h : KeyQueue m lo hi q) (ho : PointersOutside lo hi)
    (hlen : q.length < (hi - lo) / 2 - 1) (scanCode asciiCode : BitVec 8) :
    (enqueueKey m scanCode asciiCode).2 = true ∧
      KeyQueue (enqueueKey m scanCode asciiCode).1 lo hi (q ++ [(scanCode, asciiCode)]) := by
  obtain ⟨head, tail, hh, ht, hr⟩ := h.ring
  have hne : ¬(lo + 2 * Ring.next ((hi - lo) / 2) tail = lo + 2 * head) := by
    intro he
    have := hr.full_iff.mp (by omega)
    omega
  have hput := h.put ho (scanCode, asciiCode) hlen ht
  simp only [enqueueKey, h.start_eq, h.end_eq, hh, ht, h.advance hr.tail_lt, if_neg hne]
  exact ⟨trivial, hput⟩

theorem KeyQueue.head_eq_tail (h : KeyQueue m lo hi q) :
    m.get16 kbdBufHead = m.get16 kbdBufTail ↔ q = [] := by
  obtain ⟨head, tail, hh, ht, hr⟩ := h.ring
  rw [hh, ht, ← hr.empty_iff]
  omega

theorem KeyQueue.head_key {k : StoredKey} (h : KeyQueue m lo hi (k :: q)) :
    k = (m (m.get16 kbdBufHead + 1), m (m.get16 kbdBufHead)) := by
  obtain ⟨head, tail, hh, ht, hr⟩ := h.ring
  rw [hh]
  exact hr.head_eq.symm

theorem dequeueKey_nil (h : KeyQueue m lo hi []) (regs : KbdRegs) (incr extended : Bool) :
    dequeueKey m regs incr extended =
      if incr then none else some (m, { regs with flags := regs.flags ||| fZF }) := by
  have he := h.head_eq_tail.mpr rfl
  cases incr <;> simp [dequeueKey, he]

theorem dequeueKey_check {k : StoredKey} (h : KeyQueue m lo hi (k :: q)) (regs : KbdRegs)
    (extended : Bool) :
    dequeueKey m regs false extended =
      some (m, { regs with ax := keyAx k.1 k.2 extended, flags := regs.flags &&& ~~~fZF }) := by
  have hne : ¬(m.get16 kbdBufHead = m.get16 kbdBufTail) := fun he => by
    cases h.head_eq_tail.mp he
  have hk := h.head_key
  subst hk
  simp [dequeueKey, hne]

theorem dequeueKey_read {k : StoredKey} (h : KeyQueue m lo hi (k :: q)) (ho : PointersOutside lo hi)
    (regs : KbdRegs) (extended : Bool) :
    ∃ m', dequeueKey m regs true extended =
      some (m', { regs with ax := keyAx k.1 k.2 extended }) ∧ KeyQueue m' lo hi q := by
  have hne : ¬(m.get16 kbdBufHead = m.get16 kbdBufTail) := fun he => by
    cases h.head_eq_tail.mp he
  obtain ⟨head, tail, hh, ht, hr⟩ := h.ring
  refine ⟨_, ?_, h.pop ho hh⟩
  have hk := h.head_key
  subst hk
  simp only [dequeueKey, if_neg hne, h.start_eq, h.end_eq]
  rw [hh, h.advance hr.head_lt]
  simp

end Window

-- ---------------------------------------------------------------------------
-- Runs
-- ---------------------------------------------------------------------------

section Runs

variable {m : Bda} {lo hi : Nat} {q : List StoredKey}

theorem KbdCall.run_spec (h : KeyQueue m lo hi q) (ho : PointersOutside lo hi) (c : KbdCall) :
    let r := c.call.step ((hi - lo) / 2 - 1) q
    (c.run m).2 = c.report r.2 ∧ KeyQueue (c.run m).1 lo hi r.1 := by
  cases c with
  | enqueue scanCode asciiCode =>
    by_cases hlen : q.length < (hi - lo) / 2 - 1
    · obtain ⟨he, hq⟩ := enqueueKey_room h ho hlen scanCode asciiCode
      simpa [KbdCall.run, KbdCall.call, Ring.Call.step, hlen, he, KbdCall.report] using hq
    · have he := enqueueKey_full h hlen scanCode asciiCode
      simpa [KbdCall.run, KbdCall.call, Ring.Call.step, hlen, he, KbdCall.report] using h
  | store regs =>
    by_cases hlen : q.length < (hi - lo) / 2 - 1
    · obtain ⟨he, hq⟩ := enqueueKey_room h ho hlen regs.ch regs.cl
      simpa [KbdCall.run, KbdCall.call, handle1605, Ring.Call.step, hlen, he, KbdCall.report]
        using hq
    · have he := enqueueKey_full h hlen regs.ch regs.cl
      simpa [KbdCall.run, KbdCall.call, handle1605, Ring.Call.step, hlen, he, KbdCall.report]
        using h
  | read regs extended =>
    cases q with
    | nil =>
      have he := dequeueKey_nil h regs true extended
      simpa [KbdCall.run, KbdCall.call, Ring.Call.step, he, KbdCall.report] using h
    | cons k q =>
      obtain ⟨m', he, hq⟩ := dequeueKey_read h ho regs extended
      simpa [KbdCall.run, KbdCall.call, Ring.Call.step, he, KbdCall.report] using hq
  | check regs extended =>
    cases q with
    | nil =>
      have he := dequeueKey_nil h regs false extended
      simpa [KbdCall.run, KbdCall.call, Ring.Call.step, he, KbdCall.report] using h
    | cons k q =>
      have he := dequeueKey_check h regs extended
      simpa [KbdCall.run, KbdCall.call, Ring.Call.step, he, KbdCall.report] using h

/-- The answers of a list of calls are the queue's answers, reported. -/
theorem runKbd_spec (h : KeyQueue m lo hi q) (ho : PointersOutside lo hi) (cs : List KbdCall) :
    let r := Ring.runCalls ((hi - lo) / 2 - 1) q (cs.map KbdCall.call)
    (runKbd m cs).2 = List.zipWith KbdCall.report cs r.2 ∧ KeyQueue (runKbd m cs).1 lo hi r.1 := by
  induction cs generalizing m q with
  | nil => exact ⟨rfl, h⟩
  | cons c cs ih =>
    obtain ⟨ha, hq⟩ := c.run_spec h ho
    obtain ⟨hr, hq'⟩ := ih hq
    refine ⟨?_, hq'⟩
    simp only [runKbd, List.map_cons, Ring.runCalls, List.zipWith_cons_cons]
    rw [ha, hr]

theorem keyboard_fifo (h : EmptyWindow m lo hi) (ho : PointersOutside lo hi) (cs : List KbdCall) :
    let cap := (hi - lo) / 2 - 1
    let calls := cs.map KbdCall.call
    let r := Ring.runCalls cap [] calls
    let m' := (runKbd m cs).1
    (runKbd m cs).2 = List.zipWith KbdCall.report cs r.2 ∧
      Ring.accepted calls r.2 = Ring.delivered r.2 ++ r.1 ∧
      r.1.length ≤ cap ∧
      (∀ scanCode asciiCode, ((enqueueKey m' scanCode asciiCode).2 = false ↔ r.1.length = cap) ∧
        ((enqueueKey m' scanCode asciiCode).2 = false →
          (enqueueKey m' scanCode asciiCode).1 = m')) ∧
      PointersInside m' lo hi := by
  obtain ⟨hr, hq⟩ := runKbd_spec h.queue ho cs
  refine ⟨hr, by simpa using Ring.accepted_eq ((hi - lo) / 2 - 1) [] (cs.map KbdCall.call),
    hq.length_le, ?_, hq.pointers⟩
  intro scanCode asciiCode
  have hle := hq.length_le
  by_cases hlen : (Ring.runCalls ((hi - lo) / 2 - 1) [] (cs.map KbdCall.call)).1.length <
      (hi - lo) / 2 - 1
  · obtain ⟨he, -⟩ := enqueueKey_room hq ho hlen scanCode asciiCode
    rw [he]
    simp only [Bool.true_eq_false, false_iff, false_implies, and_true]
    omega
  · rw [enqueueKey_full hq hlen]
    refine ⟨⟨fun _ => ?_, fun _ => rfl⟩, fun _ => rfl⟩
    omega

/-- A window of two slots, at the offsets of the head and the tail. -/
def windowOnPointers : Bda :=
  (((Bda.set16 (fun _ => 0#8) kbdBufHead 0x1a).set16 kbdBufTail 0x1a).set16
    kbdBufStartOffset 0x1a).set16 kbdBufEndOffset 0x1e

/-- The first key stored there is written over the head. -/
theorem keyboard_window_on_pointers :
    EmptyWindow windowOnPointers 0x1a 0x1e ∧
      ¬PointersInside (runKbd windowOnPointers [.enqueue 0x1e#8 0x61#8]).1 0x1a 0x1e := by
  refine ⟨?_, by unfold PointersInside; decide⟩
  constructor <;> decide

theorem kbdInit_window (m : Bda) : EmptyWindow (kbdInit m) 0x1e 0x3e := by
  have hh : (kbdInit m).get16 kbdBufHead = 0x1e := rfl
  constructor
  · rfl
  · rfl
  · decide
  · decide
  · decide
  · rw [hh]
  · rw [hh]; decide
  · rw [hh]
  · rfl

theorem keyboard_fifo_kbdInit :
    let m' := (runKbd (kbdInit fun _ => 0#8)
      [.enqueue 0x1e#8 0x61#8, .read ⟨0, 0, 0⟩ false, .read ⟨0, 0, 0⟩ false]).1
    PointersInside m' 0x1e 0x3e :=
  (keyboard_fifo (kbdInit_window _) ⟨by decide, by decide⟩ _).2.2.2.2

end Runs

end ItxLlama.Seabios
