import ItxLlama.Coreboot.CbmemConsole
import Mathlib.Data.List.GetD

/-!
# Moving the console keeps what was logged, where it fits

A byte at a time is dropped behind the end of a buffer. What `cbmemc_reinit` moves
is not: runs are right as long as it fits.
-/

namespace ItxLlama.Coreboot.CbmemConsole

open Lib.Word Lib.Wrap Lib.Digits

-- ---------------------------------------------------------------------------
-- Digits
-- ---------------------------------------------------------------------------

/-- The values of `mult`, from the highest of `k` on. -/
def powers : (k : Nat) → List Nat
  | 0 => []
  | k + 1 => 10 ^ k :: powers k

def printed : (mults : List Nat) → (gotFirstDigit : Bool) → (droppedChars : Nat) → List Byte
  | [], _, _ => []
  | mult :: mults, gotFirstDigit, droppedChars =>
    if gotFirstDigit || decide (droppedChars / mult ≠ 0) then
      .ofNat 8 (droppedChars / mult + 48) :: printed mults true (droppedChars % mult)
    else printed mults gotFirstDigit droppedChars

theorem lastDigits_top (b n k : Nat) :
    lastDigits b n (k + 1) = (n / b ^ k % b).digitChar :: lastDigits b (n % b ^ k) k := by
  induction k generalizing n with
  | zero => simp [lastDigits]
  | succ k ih =>
    rw [lastDigits, ih, lastDigits, Nat.div_div_eq_div_mul, ← Nat.pow_succ', List.cons_append]
    congr 2
    · rw [Nat.pow_succ', Nat.mod_mul_right_div_self]
    · rw [Nat.pow_succ', Nat.mod_mul_right_mod]

theorem digitChar_byte (hd : d < 10) :
    BitVec.ofNat 8 d.digitChar.toNat = BitVec.ofNat 8 (d + 48) := by
  have hall : ∀ d < 10, BitVec.ofNat 8 d.digitChar.toNat = BitVec.ofNat 8 (d + 48) := by decide
  exact hall d hd

theorem printed_got (hn : n < 10 ^ k) : printed (powers k) true n = bytes (lastDigits 10 n k) := by
  induction k generalizing n with
  | zero => rfl
  | succ k ih =>
    have hpos : 0 < 10 ^ k := Nat.pow_pos (by decide)
    have hdigit : n / 10 ^ k < 10 := Nat.div_lt_of_lt_mul (by rwa [← Nat.pow_succ])
    rw [powers, printed, Bool.true_or, if_pos rfl, lastDigits_top, Nat.mod_eq_of_lt hdigit,
      ih (Nat.mod_lt n hpos), ← digitChar_byte hdigit]
    rfl

theorem printed_first (hpos : 0 < n) (hn : n < 10 ^ k) :
    printed (powers k) false n = bytes (Nat.toDigits 10 n) := by
  induction k with
  | zero => exact absurd hn (by omega)
  | succ k ih =>
    have hpow : 0 < 10 ^ k := Nat.pow_pos (by decide)
    rw [powers, printed]
    by_cases hdigit : n / 10 ^ k = 0
    · have hlt : n < 10 ^ k := (Nat.div_eq_zero_iff_lt hpow).mp hdigit
      rw [if_neg (by simp [hdigit])]
      exact ih hlt
    · have hle : 10 ^ k ≤ n := Nat.le_of_not_lt fun hlt => hdigit (Nat.div_eq_of_lt hlt)
      have hgot := printed_got hn
      rw [lastDigits_eq (by decide) (.inr hle) hn, powers, printed, Bool.true_or,
        if_pos rfl] at hgot
      rw [if_pos (by simp [hdigit])]
      exact hgot

theorem printed_mults (hpos : 0 < n) (hn : n < 1000000) :
    printed mults false n = bytes (Nat.toDigits 10 n) :=
  printed_first (k := 6) hpos hn

-- ---------------------------------------------------------------------------
-- Stores
-- ---------------------------------------------------------------------------

/-- The memory of a console that holds a text. -/
structure Body (body : Nat → Byte) (size : Nat) (text : List Byte) (behind : Nat → Byte) :
    Prop where
  text : ∀ i (h : i < text.length), i < size → body i = text[i]
  behind : ∀ i, size ≤ i → body i = behind i

section

variable {body behind : Nat → Byte} {size : Nat} {text more : List Byte}

theorem Body.store (h : Body body size text behind) (more : List Byte)
    (hfits : text.length + more.length ≤ size) :
    Body (store body text.length more) size (text ++ more) behind where
  text i hi hsize := by
    unfold CbmemConsole.store
    rw [List.length_append] at hi
    by_cases hlt : i < text.length
    · rw [if_neg (by omega), List.getElem_append_left hlt]
      exact h.text i hlt hsize
    · have hle := Nat.le_of_not_lt hlt
      rw [if_pos ⟨hle, hi⟩, List.getElem_append_right hle, List.getD_eq_getElem]
  behind i hi := by
    unfold CbmemConsole.store
    rw [if_neg (by omega)]
    exact h.behind i hi

theorem store_nil (body : Nat → Byte) (start : Nat) : store body start [] = body := by
  funext i
  exact if_neg (by simp only [List.length_nil]; omega)

theorem store_singleton (body : Nat → Byte) (start : Nat) (b : Byte) :
    store body start [b] = Function.update body start b := by
  funext i
  unfold store
  by_cases heq : i = start
  · subst heq
    rw [if_pos ⟨Nat.le_refl i, Nat.lt_succ_self i⟩, Nat.sub_self, Function.update_self]
    rfl
  · rw [Function.update_of_ne heq, if_neg (by simp only [List.length_singleton]; omega)]

theorem Body.left (h : Body body size (text ++ more) behind) : Body body size text behind where
  text i hi hsize := by
    have hlt : i < (text ++ more).length := by
      rw [List.length_append]
      omega
    rw [h.text i hlt hsize, List.getElem_append_left hi]
  behind := h.behind

theorem Body.strcpy (h : Body body size text behind) (str : List Byte)
    (hfits : text.length + str.length < size) :
    Body (CbmemConsole.store body text.length (str ++ [0])) size (text ++ str) behind := by
  have hstored := h.store (str ++ [0]) (by rw [List.length_append]; exact hfits)
  rw [← List.append_assoc] at hstored
  exact hstored.left

theorem Body.putDigits (h : Body body size text behind) (hsize : size < 2 ^ 32)
    (mults : List Nat) (got : Bool) (dropped : Nat)
    (hfits : text.length + (printed mults got dropped).length ≤ size) :
    ∃ body', putDigits mults got dropped (body, text.length) =
        (body', text.length + (printed mults got dropped).length) ∧
      Body body' size (text ++ printed mults got dropped) behind := by
  induction mults generalizing body text got dropped with
  | nil => exact ⟨body, rfl, by simpa [printed] using h⟩
  | cons mult mults ih =>
    rw [printed] at hfits ⊢
    rw [CbmemConsole.putDigits]
    by_cases hprint : (got || decide (dropped / mult ≠ 0)) = true
    · rw [if_pos hprint] at hfits ⊢
      rw [if_pos hprint]
      rw [List.length_cons] at hfits
      have hstored := h.store [.ofNat 8 (dropped / mult + 48)]
        (by rw [List.length_singleton]; omega)
      rw [store_singleton] at hstored
      have hlength : (text ++ [BitVec.ofNat 8 (dropped / mult + 48)]).length = text.length + 1 :=
        List.length_append
      have hnext := ih hstored true (dropped % mult) (by rw [hlength]; omega)
      obtain ⟨body', heq, hbody⟩ := hnext
      refine ⟨body', ?_, by simpa using hbody⟩
      rw [u32_eq (by omega), ← hlength, heq, hlength, List.length_cons]
      congr 1
      omega
    · rw [if_neg hprint] at hfits ⊢
      rw [if_neg hprint]
      exact ih h got dropped hfits

-- ---------------------------------------------------------------------------
-- Steps
-- ---------------------------------------------------------------------------

theorem Holds.toBody {c : Console} {l : Log} (h : Holds c l) :
    Body c.bufferBody l.size l.text l.behind := ⟨h.body, h.behind⟩

theorem Holds.txByte {c : Console} {l : Log} (h : Holds c l) (hroom : l.text.length + 1 < 2 ^ 32)
    (data : Byte) : Holds (cbmemcTxByte c data) (l.append [data]) := by
  have hlength : (l.append [data]).text.length = l.text.length + 1 := List.length_append
  have hcursor : u32 (c.bufferCursor + 1) = (l.append [data]).text.length := by
    rw [h.bufferCursor, u32_eq hroom, hlength]
  by_cases hlt : l.text.length < l.size
  · have hbody : Body (cbmemcTxByte c data).bufferBody l.size (l.text ++ [data]) l.behind := by
      unfold cbmemcTxByte
      dsimp only
      rw [h.bufferCursor, h.bufferSize, if_pos hlt, ← store_singleton]
      exact h.toBody.store [data] hlt
    exact ⟨h.bufferSize, hcursor, h.size_lt, hlength ▸ hroom, hbody.text, hbody.behind⟩
  · have hbody : (cbmemcTxByte c data).bufferBody = c.bufferBody := by
      unfold cbmemcTxByte
      rw [h.bufferCursor, h.bufferSize, if_neg hlt]
    refine ⟨h.bufferSize, hcursor, h.size_lt, hlength ▸ hroom, fun i hi hsize => ?_, ?_⟩
    · have hi' : i < l.text.length := Nat.lt_of_lt_of_le hsize (Nat.le_of_not_lt hlt)
      rw [hbody, h.body i hi' hsize]
      exact (List.getElem_append_left hi').symm
    · rw [hbody]
      exact h.behind

theorem initConsolePtr_holds (storage : Nat → Byte) {totalSpace : Nat}
    (hlo : sizeofConsole ≤ totalSpace) (hhi : totalSpace < 2 ^ 32) :
    Holds (initConsolePtr storage totalSpace) (newLog storage totalSpace) where
  bufferSize := sub32_of_le hlo hhi
  bufferCursor := rfl
  size_lt := Nat.lt_of_le_of_lt (Nat.sub_le _ _) hhi
  length_lt := Nat.two_pow_pos 32
  body := nofun
  behind _ _ := rfl

theorem Holds.copied {c : Console} {l : Log} (h : Holds c l) {n : Nat} (hsize : n ≤ l.size)
    (hn : n ≤ l.text.length) : (List.range n).map c.bufferBody = l.text.take n := by
  refine List.ext_getElem ?_ fun i hi hi' => ?_
  · rw [List.length_map, List.length_range, List.length_take, Nat.min_eq_left hn]
  · rw [List.length_map, List.length_range] at hi
    rw [List.getElem_map, List.getElem_range, List.getElem_take]
    exact h.body i (Nat.lt_of_lt_of_le hi hn) (Nat.lt_of_lt_of_le hi hsize)

theorem Holds.copy_text {new old : Console} {dst src : Log} (hnew : Holds new dst)
    (hold : Holds old src) (hkept : src.text.length ≤ src.size)
    (hfits : src.text = [] ∨ dst.text.length + src.text.length ≤ dst.size) :
    Holds (copyConsoleBuffer new old) (dst.append src.text) := by
  have hover : ¬ old.bufferCursor > old.bufferSize := by
    rw [hold.bufferCursor, hold.bufferSize]
    exact Nat.not_lt.mpr hkept
  have hsum : dst.text.length + src.text.length < 2 ^ 32 := by
    rcases hfits with hnil | hfits
    · rw [hnil]
      exact hnew.length_lt
    · exact Nat.lt_of_le_of_lt hfits hnew.size_lt
  have hlength : (dst.append src.text).text.length = dst.text.length + src.text.length :=
    List.length_append
  have hcopied := hold.copied hkept (Nat.le_refl _)
  rw [List.take_length] at hcopied
  have heq : copyConsoleBuffer new old = { new with
      bufferBody := store new.bufferBody dst.text.length src.text
      bufferCursor := dst.text.length + src.text.length } := by
    unfold copyConsoleBuffer
    simp only [if_neg hover]
    rw [hold.bufferCursor, hcopied, hnew.bufferCursor, u32_eq hsum]
  rw [heq]
  have hbody : Body (store new.bufferBody dst.text.length src.text) dst.size
      (dst.text ++ src.text) dst.behind := by
    rcases hfits with hnil | hfits
    · rw [hnil, store_nil, List.append_nil]
      exact hnew.toBody
    · exact hnew.toBody.store src.text hfits
  exact ⟨hnew.bufferSize, hlength.symm, hnew.size_lt, hlength ▸ hsum, hbody.text, hbody.behind⟩

theorem Holds.copy_notice {new old : Console} {dst src : Log} (hnew : Holds new dst)
    (hold : Holds old src) (hover : src.size < src.text.length)
    (hdropped : src.text.length - src.size < 1000000)
    (hfits : dst.text.length + src.kept.length < dst.size) :
    Holds (copyConsoleBuffer new old) (dst.append src.kept) := by
  have hcursor : old.bufferCursor > old.bufferSize := by
    rw [hold.bufferCursor, hold.bufferSize]
    exact hover
  have hcopied := hold.copied (Nat.le_refl _) (Nat.le_of_lt hover)
  have htake : (src.text.take src.size).length = src.size := by
    rw [List.length_take, Nat.min_eq_left (Nat.le_of_lt hover)]
  have hsub : sub32 src.text.length src.size = src.text.length - src.size :=
    sub32_of_le (Nat.le_of_lt hover) hold.length_lt
  have hprinted := printed_mults (Nat.sub_pos_of_lt hover) hdropped
  have hsize := hnew.size_lt
  obtain ⟨digits, hdigits⟩ :
      ∃ digits, digits = bytes (Nat.toDigits 10 (src.text.length - src.size)) := ⟨_, rfl⟩
  have hkept : src.kept = src.text.take src.size ++ (lossStr1 ++ digits ++ lossStr2) := by
    unfold Log.kept notice
    rw [if_pos hover, hdigits]
  rw [← hdigits] at hprinted
  rw [hkept, List.length_append, List.length_append, List.length_append, htake] at hfits
  -- the copy, the first string, the digits and the second string
  have hcopy := hnew.toBody.store (src.text.take src.size) (by rw [htake]; omega)
  have hlength₁ : (dst.text ++ src.text.take src.size).length = dst.text.length + src.size := by
    rw [List.length_append, htake]
  have hloss₁ := hcopy.strcpy lossStr1 (by rw [hlength₁]; omega)
  have hlength₂ : (dst.text ++ src.text.take src.size ++ lossStr1).length =
      dst.text.length + src.size + lossStr1.length := by
    rw [List.length_append, hlength₁]
  obtain ⟨body, hput, hbody⟩ := hloss₁.putDigits hsize mults false
    (src.text.length - src.size) (by rw [hlength₂, hprinted]; omega)
  rw [hprinted] at hput hbody
  rw [hlength₂, hlength₁] at hput
  have hlength₃ : (dst.text ++ src.text.take src.size ++ lossStr1 ++ digits).length =
      dst.text.length + src.size + lossStr1.length + digits.length := by
    rw [List.length_append, hlength₂]
  have hloss₂ := hbody.strcpy lossStr2 (by rw [hlength₃]; omega)
  have heq : copyConsoleBuffer new old = { new with
      bufferBody := store body (dst.text.length + src.size + lossStr1.length + digits.length)
        (lossStr2 ++ [0])
      bufferCursor :=
        dst.text.length + src.size + lossStr1.length + digits.length + lossStr2.length } := by
    unfold copyConsoleBuffer
    simp only [if_pos hcursor]
    rw [hold.bufferCursor, hold.bufferSize, hcopied, hnew.bufferCursor, hsub,
      u32_eq (show dst.text.length + src.size < 2 ^ 32 by omega),
      u32_eq (show dst.text.length + src.size + lossStr1.length < 2 ^ 32 by omega), hput]
    dsimp only
    rw [u32_eq (by omega)]
  have htext : (dst.append src.kept).text =
      dst.text ++ src.text.take src.size ++ lossStr1 ++ digits ++ lossStr2 := by
    unfold Log.append
    rw [hkept]
    simp only [List.append_assoc]
  have hlength : (dst.append src.kept).text.length =
      dst.text.length + src.size + lossStr1.length + digits.length + lossStr2.length := by
    rw [htext, List.length_append, hlength₃]
  rw [hlength₃, ← htext] at hloss₂
  rw [heq]
  exact ⟨hnew.bufferSize, hlength.symm, hsize, by rw [hlength]; omega, hloss₂.text, hloss₂.behind⟩

theorem Holds.copy {new old : Console} {dst src : Log} (hnew : Holds new dst)
    (hold : Holds old src) (hfits : Fits src dst) :
    Holds (copyConsoleBuffer new old) (dst.append src.kept) := by
  unfold Fits at hfits
  by_cases hover : src.size < src.text.length
  · rw [if_pos hover] at hfits
    exact hnew.copy_notice hold hover hfits.1 hfits.2
  · rw [if_neg hover] at hfits
    have hle := Nat.le_of_not_lt hover
    have hkept : src.kept = src.text := by
      unfold Log.kept
      rw [if_neg hover, List.take_of_length_le hle, List.append_nil]
    rw [hkept]
    exact hnew.copy_text hold hle hfits

theorem Right.step {cfg : Config} {w : World} {ls : Logs} (h : Right w ls) {e : Event}
    (hallowed : e.Allowed cfg ls) : Right (e.step cfg w) (e.specify cfg ls) := by
  cases e with
  | init storage totalSpace =>
    exact ⟨rfl, initConsolePtr_holds storage hallowed.1 hallowed.2, h.cbmem⟩
  | txByte data =>
    have hcurrent := h.current
    unfold Event.Allowed at hallowed
    unfold Event.step Event.specify
    cases hls : ls.current with
    | boot =>
      rw [hls] at hallowed hcurrent
      simp only [hcurrent]
      exact ⟨rfl, h.boot.txByte hallowed data, h.cbmem⟩
    | cbmem =>
      rw [hls] at hallowed hcurrent
      simp only [hcurrent]
      refine ⟨rfl, h.boot, ?_⟩
      have hcbmem := h.cbmem
      generalize w.cbmem = c at hcbmem
      dsimp only at hallowed ⊢
      generalize ls.cbmem = l at hcbmem hallowed
      cases hcbmem with
      | none => exact .none
      | some hholds => exact .some (hholds.txByte (hallowed _ rfl) data)
    | null =>
      rw [hls] at hcurrent
      simp only [hcurrent]
      exact h
  | reinit preRam added =>
    obtain ⟨-, hfits⟩ := hallowed
    have htarget : Option.Rel Holds
        (target preRam w.cbmem (added.map (initConsolePtr · cfg.cbmemBufferSize)))
        (ls.target cfg preRam added) := by
      have hadded : Option.Rel Holds (added.map (initConsolePtr · cfg.cbmemBufferSize))
          (added.map (newLog · cfg.cbmemBufferSize)) := by
        cases added with
        | none => exact .none
        | some storage => exact .some (initConsolePtr_holds storage cfg.lower cfg.upper)
      have hcbmem := h.cbmem
      unfold Logs.target target
      generalize w.cbmem = c at hcbmem
      generalize ls.cbmem = l at hcbmem
      cases preRam with
      | true => exact hadded
      | false =>
        cases hcbmem with
        | none => exact hadded
        | some hholds => exact .some hholds
    unfold Event.step Event.specify cbmemcReinit
    dsimp only
    generalize target preRam w.cbmem _ = new at htarget
    generalize ls.target cfg preRam added = dst at htarget hfits
    cases htarget with
    | none => exact ⟨rfl, h.boot, h.cbmem⟩
    | some hholds => exact ⟨rfl, h.boot, .some (hholds.copy h.boot (hfits _ rfl))⟩

end

theorem Console.WellFormed.holds {c : Console} (h : c.WellFormed) : Holds c c.log where
  bufferSize := rfl
  bufferCursor := by
    unfold Console.log
    rw [List.length_map, List.length_range]
  size_lt := h.1
  length_lt := by
    unfold Console.log
    rw [List.length_map, List.length_range]
    exact h.2
  body i hi _ := by
    unfold Console.log at hi ⊢
    rw [List.getElem_map, List.getElem_range]
  behind _ _ := rfl

theorem Right.run {cfg : Config} {w : World} {ls : Logs} (h : Right w ls) (es : List Event)
    (hallowed : Allowed cfg ls es) : Right (run cfg w es) (specify cfg ls es) := by
  induction es generalizing w ls with
  | nil => exact h
  | cons e es ih => exact ih (h.step hallowed.1) hallowed.2

/-- The consoles hold what was sent to them, cut at their sizes, as long as what is
moved fits. -/
theorem cbmemcReinit_right (cfg : Config) {w : World} (hboot : w.boot.WellFormed)
    (hcbmem : ∀ c, w.cbmem = some c → c.WellFormed) (es : List Event)
    (hallowed : Allowed cfg w.logs es) : Right (run cfg w es) (specify cfg w.logs es) := by
  refine Right.run ⟨rfl, hboot.holds, ?_⟩ es hallowed
  unfold World.logs
  generalize w.cbmem = c at hcbmem
  cases c with
  | none => exact .none
  | some c => exact .some (hcbmem c rfl).holds

def defaultConfig : Config := ⟨0x10000, by decide, by decide⟩

/-- Two bytes of eight are kept, and twelve were logged. -/
def overflown : World := ⟨.boot, ⟨8, 20, fun _ => 65⟩, some ⟨65528, 3, fun _ => 66⟩⟩

theorem cbmemcReinit_right_overflown :
    Right (run defaultConfig overflown [.reinit false none, .txByte 67])
      (specify defaultConfig overflown.logs [.reinit false none, .txByte 67]) :=
  cbmemcReinit_right defaultConfig ⟨by decide, by decide⟩
    (fun c hc => by cases hc; exact ⟨by decide, by decide⟩) _
    ⟨⟨rfl, fun dst hdst => by cases hdst; decide⟩, fun l hl => by cases hl; decide, trivial⟩

/-- A full console in CBMEM: the byte goes behind its end. -/
def full : World := ⟨.boot, ⟨65528, 1, fun _ => 65⟩, some ⟨65528, 65528, fun _ => 66⟩⟩

theorem cbmemcReinit_overruns :
    ¬ Right (run defaultConfig full [.reinit false none])
      (specify defaultConfig full.logs [.reinit false none]) := by
  intro h
  have hcbmem := h.cbmem
  cases hcbmem with
  | some hholds =>
    have hbehind := hholds.behind 65528 (Nat.le_refl _)
    revert hbehind
    decide

end ItxLlama.Coreboot.CbmemConsole
