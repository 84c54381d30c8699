import ItxLlama.Lib.Digits
import ItxLlama.Llama.MenuRuns
import Mathlib.Data.List.GetD
import Mathlib.Data.List.Induction

/-!
# Number input

The number functions of `llama_strings.c` over the decimal fields they work
on, and the runs of `input_loop` through them.
-/

namespace ItxLlama.Llama

open Lib.DecimalField

def ascii (c : Char) : Byte := BitVec.ofNat 8 c.toNat

/-- A field with the terminator behind it. -/
def fieldText (len v : Nat) : List Byte := (field len v).map ascii ++ [0]

theorem ascii_digitChar (hd : d < 10) : ascii d.digitChar = BitVec.ofNat 8 d + 0x30 := by
  revert d
  decide

theorem set_append {l : List α} (hn : l.length = n) (a b : α) (l' : List α) :
    (l ++ a :: l').set n b = l ++ b :: l' := by
  subst hn
  simp

-- ---------------------------------------------------------------------------
-- Formatting
-- ---------------------------------------------------------------------------

def digitCount (v : Nat) : Nat := if v = 0 then 0 else (Nat.toDigits 10 v).length

theorem digitCount_div (hv : v ≠ 0) : digitCount v = digitCount (v / 10) + 1 := by
  rw [digitCount, if_neg hv, Nat.toDigits_eq_if (by decide), digitCount]
  by_cases hlt : v < 10
  · rw [if_pos hlt, if_pos (Nat.div_eq_of_lt hlt), List.length_singleton]
  · rw [if_neg hlt, if_neg (by omega), List.length_append, List.length_singleton]

theorem digitCount_le_iff (hn : 0 < n) : digitCount v ≤ n ↔ v < 10 ^ n := by
  unfold digitCount
  by_cases hv : v = 0
  · subst hv
    exact iff_of_true (Nat.zero_le _) (Nat.pow_pos (by decide))
  · rw [if_neg hv]
    exact Nat.length_toDigits_le_iff (by decide) hn

theorem toNat_div_ten (num : BitVec 16) : (num / 10).toNat = num.toNat / 10 := BitVec.toNat_udiv

theorem numDigits_fuel {num : BitVec 16} (hfuel : num.toNat < 10 ^ fuel) :
    numDigits num fuel = digitCount num.toNat := by
  induction fuel generalizing num with
  | zero =>
    rw [Nat.pow_zero, Nat.lt_one_iff] at hfuel
    rw [hfuel]
    rfl
  | succ fuel ih =>
    rw [Nat.pow_succ] at hfuel
    rw [numDigits]
    by_cases h0 : num = 0
    · subst h0
      rfl
    · have hne : num.toNat ≠ 0 := fun h => h0 (BitVec.eq_of_toNat_eq h)
      have hdiv := toNat_div_ten num
      rw [if_neg h0, digitCount_div hne, ih (by omega), hdiv]

theorem numDigits_eq (num : BitVec 16) : numDigits num = digitCount num.toNat :=
  numDigits_fuel (by have := num.isLt; omega)

/-- The digits that are left to print, in their columns. -/
def columns (n v : Nat) : List Byte :=
  if v = 0 then List.replicate n 0x20 else (field n v).map ascii

theorem columns_succ (n v : Nat) : columns (n + 1) v =
    columns n (v / 10) ++ [if v = 0 then 0x20 else BitVec.ofNat 8 (v % 10) + 0x30] := by
  unfold columns
  by_cases hv : v = 0
  · rw [if_pos hv, if_pos hv, if_pos (by omega), List.replicate_succ']
  · rw [if_neg hv, if_neg hv, ← ascii_digitChar (Nat.mod_lt v (by decide))]
    by_cases hlt : v < 10
    · rw [if_pos (by omega), field_digit n hlt, Nat.mod_eq_of_lt hlt, List.map_append,
        List.map_replicate]
      rfl
    · rw [if_neg (by omega), field_concat n (by omega), List.map_append]
      rfl

/-- One round of the loop of `u16_to_string`. -/
def printStep (len l : Nat) : List Byte × BitVec 16 → Nat → List Byte × BitVec 16 :=
  fun (str, num) i =>
    if i ≥ l then (str.set (len - (i + 1)) 0x20, num)
    else (str.set (len - (i + 1)) ((num % 10).setWidth 8 + 0x30), num / 10)

theorem setWidth_mod_ten (num : BitVec 16) :
    (num % 10).setWidth 8 = BitVec.ofNat 8 (num.toNat % 10) :=
  BitVec.eq_of_toNat_eq (by simp)

/-- With `n` columns left, and as many digits as the number still has. -/
theorem foldl_printStep {str : List Byte} {num : BitVec 16} (hlen : n ≤ str.length)
    (hpos : i + n = len) (hl : digitCount num.toNat = l - i) (hnum : num.toNat < 10 ^ n) :
    ((List.range' i n).foldl (printStep len l) (str, num)).1 = columns n num.toNat ++ str.drop n := by
  induction n generalizing i str num with
  | zero =>
    obtain h0 : num.toNat = 0 := by simpa using hnum
    rw [h0]
    rfl
  | succ n ih =>
    have hdrop (c : Byte) : (str.set n c).drop n = c :: str.drop (n + 1) := by
      rw [List.drop_set, if_neg (Nat.lt_irrefl n), List.drop_eq_getElem_cons hlen, Nat.sub_self,
        List.set_cons_zero]
    have hset (c : Byte) : n ≤ (str.set n c).length := by
      rw [List.length_set]
      exact Nat.le_of_lt hlen
    have hdiv := toNat_div_ten num
    rw [Nat.pow_succ] at hnum
    rw [List.range'_succ, List.foldl_cons, printStep, show len - (i + 1) = n by omega, columns_succ]
    by_cases h0 : num.toNat = 0
    · have hzero : digitCount num.toNat = 0 := by rw [h0]; rfl
      rw [if_pos (by omega), if_pos h0, ih (hset _) (by omega) (by omega) (by omega), hdrop,
        List.append_assoc, h0]
      rfl
    · have hcount := digitCount_div h0
      rw [if_neg (by omega), if_neg h0, ih (hset _) (by omega) (by rw [hdiv]; omega) (by omega),
        hdrop, List.append_assoc, hdiv, setWidth_mod_ten]
      rfl

theorem u16ToString_eq {num : BitVec 16} (hn : num.toNat < 10 ^ (n + 1)) :
    u16ToString num (n + 1) = fieldText (n + 1) num.toNat := by
  have hprint : ((List.range (n + 1)).foldl (printStep (n + 1) (numDigits num))
      (List.replicate (n + 1 + 1) 0, num)).1 = columns (n + 1) num.toNat ++ [0] := by
    have hlen : n + 1 ≤ (List.replicate (n + 1 + 1) (0 : Byte)).length := by simp
    have hfold := foldl_printStep (l := numDigits num) hlen (Nat.zero_add _)
      (numDigits_eq num).symm hn
    rw [List.range_eq_range', hfold]
    simp
  have htext : u16ToString num (n + 1) =
      (if num = 0 then (columns (n + 1) num.toNat ++ [0]).set n 0x30
        else columns (n + 1) num.toNat ++ [0]).set (n + 1) 0 := by
    rw [← hprint]
    rfl
  rw [htext]
  by_cases h0 : num = 0
  · subst h0
    have hcols : columns (n + 1) (0 : BitVec 16).toNat = List.replicate n 0x20 ++ [0x20] :=
      List.replicate_succ'
    have hfield : fieldText (n + 1) (0 : BitVec 16).toNat = List.replicate n 0x20 ++ [0x30] ++ [0] := by
      rw [fieldText, field_digit n (by decide), List.map_append, List.map_replicate]
      rfl
    rw [if_pos rfl, hcols, hfield, List.append_assoc, List.singleton_append,
      set_append List.length_replicate, List.append_cons, set_append (by simp)]
  · have hne : num.toNat ≠ 0 := fun h => h0 (BitVec.eq_of_toNat_eq h)
    have hlen : ((field (n + 1) num.toNat).map ascii).length = n + 1 := by
      rw [List.length_map, length_field (Nat.succ_pos n) hn]
    rw [if_neg h0, columns, if_neg hne, set_append hlen, fieldText]

-- ---------------------------------------------------------------------------
-- Reading
-- ---------------------------------------------------------------------------

/-- One character of `string_to_u16`. -/
def readStep (num : BitVec 16) (ch : Byte) : BitVec 16 :=
  if ch < 0x30 ∨ ch > 0x39 then num else num * 10 + (ch.setWidth 16 - 0x30)

theorem readStep_digit (num : Nat) (hd : d < 10) :
    readStep (BitVec.ofNat 16 num) (ascii d.digitChar) = BitVec.ofNat 16 (num * 10 + d) := by
  have hdigit : ¬ (ascii d.digitChar < 0x30 ∨ ascii d.digitChar > 0x39) ∧
      (ascii d.digitChar).setWidth 16 - 0x30 = BitVec.ofNat 16 d := by
    revert d
    decide
  rw [readStep, if_neg hdigit.1, hdigit.2, BitVec.ofNat_add, BitVec.ofNat_mul]
  rfl

theorem foldl_readStep (v : Nat) :
    ((Nat.toDigits 10 v).map ascii).foldl readStep 0 = BitVec.ofNat 16 v := by
  induction v using Nat.strongRecOn with
  | ind v ih =>
    rw [Nat.toDigits_eq_if (by decide)]
    split
    · next hlt =>
      have hstep := readStep_digit 0 hlt
      rw [Nat.zero_mul, Nat.zero_add] at hstep
      exact hstep
    · next hge =>
      rw [List.map_append, List.foldl_append, ih (v / 10) (by omega)]
      have hstep := readStep_digit (v / 10) (Nat.mod_lt v (by decide : 0 < 10))
      rw [show v / 10 * 10 + v % 10 = v by omega] at hstep
      exact hstep

theorem ascii_ne_zero (h : c ∈ field n v) : ascii c ≠ 0 := by
  rcases mem_field h with rfl | ⟨hlow, hhigh⟩
  · decide
  · intro hz
    have hc : c.toNat ≤ 0x39 := hhigh
    have hc' : 0x30 ≤ c.toNat := hlow
    have := congrArg BitVec.toNat hz
    rw [ascii, BitVec.toNat_ofNat, Nat.mod_eq_of_lt (by omega)] at this
    simp at this
    omega

theorem stringToU16_fieldText (n v : Nat) : stringToU16 (fieldText n v) = BitVec.ofNat 16 v := by
  have htext : (fieldText n v).takeWhile (· ≠ 0) = (field n v).map ascii := by
    rw [fieldText, List.takeWhile_append_of_pos]
    · simp
    · intro b hb
      obtain ⟨c, hc, rfl⟩ := List.mem_map.mp hb
      simpa using ascii_ne_zero hc
  have hblanks (k : Nat) : (List.replicate k (0x20 : Byte)).foldl readStep 0 = 0 := by
    induction k with
    | zero => rfl
    | succ k ih =>
      rw [List.replicate_succ, List.foldl_cons]
      exact ih
  show ((fieldText n v).takeWhile (· ≠ 0)).foldl readStep 0 = _
  rw [htext, field, List.leftpad, List.map_append, List.map_replicate, List.foldl_append]
  have hpad := hblanks (n - (Nat.toDigits 10 v).length)
  rw [show ascii ' ' = 0x20 from rfl, hpad]
  exact foldl_readStep v

-- ---------------------------------------------------------------------------
-- Editing
-- ---------------------------------------------------------------------------

/-- One round of the loop of `add_char_to_end`. -/
def shiftLeftStep (len : Nat) (c : Byte) : List Byte → Nat → List Byte :=
  fun s i => if i = len - 1 then s.set i c else s.set i (s.getD (i + 1) 0)

theorem foldl_shiftLeftStep (c : Byte) (pre post : List Byte) {cur : List Byte} (hcur : cur ≠ [])
    (hlen : pre.length + cur.length = len) :
    (List.range' pre.length cur.length).foldl (shiftLeftStep len c) (pre ++ cur ++ post) =
      pre ++ (cur.tail ++ [c]) ++ post := by
  induction cur generalizing pre with
  | nil => exact absurd rfl hcur
  | cons x cur ih =>
    rw [List.length_cons] at hlen ⊢
    rw [List.range'_succ, List.foldl_cons, shiftLeftStep, List.append_assoc, List.cons_append,
      set_append rfl, set_append rfl]
    cases cur with
    | nil =>
      rw [if_pos (by simp at hlen; omega)]
      simp
    | cons y cur =>
      have hnext : (pre ++ x :: (y :: cur ++ post)).getD (pre.length + 1) 0 = y := by
        rw [List.getD_append_right _ _ _ _ (Nat.le_succ _)]
        simp
      have hpre : (pre ++ [y]).length = pre.length + 1 := by simp
      have hrest := ih (pre ++ [y]) (List.cons_ne_nil _ _) (by rw [hpre]; omega)
      rw [hpre] at hrest
      rw [if_neg (by rw [List.length_cons] at hlen; omega), hnext]
      simpa [shiftLeftStep] using hrest

/-- One round of the loop of `del_char_at_end`. -/
def shiftRightStep : List Byte → Nat → List Byte :=
  fun s i => if i = 0 then s.set i 0x20 else s.set i (s.getD (i - 1) 0)

theorem foldl_shiftRightStep (cur post : List Byte) (hcur : cur ≠ []) :
    (List.range cur.length).reverse.foldl shiftRightStep (cur ++ post) =
      (0x20 :: cur.dropLast) ++ post := by
  induction cur using List.reverseRecOn generalizing post with
  | nil => exact absurd rfl hcur
  | append_singleton cur z ih =>
    rw [List.length_append, List.length_singleton, List.range_succ, List.reverse_append,
      List.reverse_singleton, List.singleton_append, List.foldl_cons, shiftRightStep,
      List.append_assoc, List.singleton_append, set_append rfl, set_append rfl,
        List.dropLast_concat]
    cases cur using List.reverseRecOn with
    | nil => rfl
    | append_singleton cur y =>
      have hnext : ((cur ++ [y]) ++ z :: post).getD ((cur ++ [y]).length - 1) 0 = y := by
        simp
      rw [if_neg (by simp), hnext, ih _ (by simp), List.dropLast_concat]
      simp

section
variable {n v : Nat} (hn : 0 < n) (hv : v < 10 ^ (n + 1))
include hv

theorem length_map_field : ((field (n + 1) v).map ascii).length = n + 1 := by
  rw [List.length_map, length_field (Nat.succ_pos n) hv]

theorem numDigits_stringToU16 (hword : n + 1 ≤ 4) :
    numDigits (stringToU16 (fieldText (n + 1) v)) = digitCount v := by
  have hle : 10 ^ (n + 1) ≤ 10 ^ 4 := Nat.pow_le_pow_right (by decide) hword
  rw [stringToU16_fieldText, numDigits_eq, BitVec.toNat_ofNat, Nat.mod_eq_of_lt (by omega)]

include hn

theorem addCharToEnd_fieldText (hword : n + 1 ≤ 4) (hd : d < 10) :
    addCharToEnd (fieldText (n + 1) v) (n + 1) (ascii d.digitChar) =
      fieldText (n + 1) (if v < 10 ^ n then 10 * v + d else v) := by
  have hroom := digitCount_le_iff (v := v) hn
  have hfits := (digitCount_le_iff (Nat.succ_pos n)).mpr hv
  unfold addCharToEnd
  simp only [numDigits_stringToU16 hv hword, Nat.add_sub_cancel]
  by_cases hlt : v < 10 ^ n
  · have hle := hroom.mpr hlt
    rw [if_neg (by omega), if_pos hlt]
    by_cases h0 : v = 0
    · subst h0
      have hblank : (List.map ascii (List.replicate n ' ')).length = n := by simp
      rw [if_pos (show digitCount 0 = 0 from rfl), fieldText, field_digit n (by decide),
        List.map_append, List.append_assoc, List.map_singleton, List.singleton_append,
        set_append hblank, Nat.mul_zero, Nat.zero_add,
        fieldText, field_digit n hd, List.map_append, List.append_assoc, List.map_singleton,
        List.singleton_append]
    · have hne : digitCount v ≠ 0 := by
        rw [digitCount_div h0]
        exact Nat.succ_ne_zero _
      have hlen := length_map_field hv
      have hshift := foldl_shiftLeftStep (ascii d.digitChar) [] [0]
        (List.ne_nil_of_length_pos (by omega)) (Nat.zero_add ((field (n + 1) v).map ascii).length)
      rw [hlen, List.length_nil, ← List.range_eq_range', field_succ hn hlt] at hshift
      rw [if_neg hne, fieldText, field_succ hn hlt, fieldText,
        field_push n (Nat.pos_of_ne_zero h0) hd,
        List.map_append]
      exact hshift
  · rw [if_pos (by omega), if_neg hlt]

/-- The last digit goes, and a field that is empty then shows 0. -/
theorem delCharAtEnd_fieldText :
    delCharAtEnd (fieldText (n + 1) v) (n + 1) = fieldText (n + 1) (v / 10) := by
  have hlen := length_map_field hv
  have hshift := foldl_shiftRightStep ((field (n + 1) v).map ascii) [0]
    (List.ne_nil_of_length_pos (by omega))
  rw [hlen] at hshift
  have hdel : delCharAtEnd (fieldText (n + 1) v) (n + 1) =
      (fun str : List Byte => if str.getD n 0 = 0x20 then str.set n 0x30 else str)
        (0x20 :: ((field (n + 1) v).map ascii).dropLast ++ [0]) := by
    rw [← hshift]
    rfl
  rw [hdel]
  by_cases hlt : v < 10
  · have hblanks : (0x20 : Byte) :: ((field (n + 1) v).map ascii).dropLast ++ [0] =
        List.replicate n 0x20 ++ 0x20 :: [0] := by
      rw [field_digit n hlt, List.map_append, List.map_singleton, List.dropLast_concat,
        List.map_replicate, show ascii ' ' = 0x20 from rfl, ← List.replicate_succ,
        List.replicate_succ', List.append_assoc, List.singleton_append]
    have hlast : (List.replicate n (0x20 : Byte) ++ 0x20 :: [0]).getD n 0 = 0x20 := by simp
    simp only [hblanks]
    rw [if_pos hlast, set_append List.length_replicate, Nat.div_eq_of_lt hlt, fieldText,
      field_digit n (by decide), List.map_append, List.map_replicate, List.append_assoc]
    rfl
  · have hdiv : v / 10 < 10 ^ n := by
      rw [Nat.pow_succ] at hv
      omega
    have htext : (0x20 : Byte) :: ((field (n + 1) v).map ascii).dropLast ++ [0] =
        fieldText (n + 1) (v / 10) := by
      rw [field_concat n (Nat.not_lt.mp hlt), List.map_append, List.map_singleton,
        List.dropLast_concat, fieldText, field_succ hn hdiv]
      rfl
    obtain ⟨l, hl, hfield⟩ := field_last (n := n) (v := v / 10) (by omega)
    have hlast : (fieldText (n + 1) (v / 10)).getD n 0 = ascii (v / 10 % 10).digitChar := by
      rw [fieldText, hfield]
      simp [← hl]
    have hne : ascii (v / 10 % 10).digitChar ≠ 0x20 := by
      generalize hd : v / 10 % 10 = d
      have hd' : d < 10 := hd ▸ Nat.mod_lt _ (by decide)
      clear hd hlast hfield
      revert d
      decide
    simp only [htext]
    rw [if_neg (hlast ▸ hne)]

end

-- ---------------------------------------------------------------------------
-- Runs of keys
-- ---------------------------------------------------------------------------

inductive EditKey where
  | digit (d : Fin 10)
  | backspace
  deriving DecidableEq, Repr

def EditKey.scancode : EditKey → Nat
  | .digit d => if d = 0 then 0x0B else d + 1
  | .backspace => 0x0E

/-- What a key makes of the number. -/
def EditKey.apply (v : Nat) : EditKey → Nat
  | .digit d => if v < 1000 then 10 * v + d else v
  | .backspace => v / 10

def KeyPress.scancode (p : KeyPress) : Nat := (p.keystroke >>> 8).toNat

theorem EditKey.apply_lt (hv : v < 10000) (k : EditKey) : k.apply v < 10000 := by
  cases k with
  | digit d =>
    have hd := d.isLt
    rw [apply]
    split <;> omega
  | backspace => exact Nat.lt_of_le_of_lt (Nat.div_le_self ..) hv

theorem EditKey.digit_scancode (d : Fin 10) :
    (0x02 ≤ (digit d).scancode ∧ (digit d).scancode ≤ 0x0B) ∧
      digitKey (digit d).scancode = ascii d.val.digitChar := by
  revert d
  decide

section
variable [MenuTable]

theorem handleKey_edit {s : Menu} (hl : s.loops = .inputLoop entry (fieldText 4 v) :: outer)
    (hv : v < 10000) {k : EditKey} {p : KeyPress} (hp : p.scancode = k.scancode) (c : Chip) :
    (handleKey p s).run c =
      some ({ s with loops := .inputLoop entry (fieldText 4 (k.apply v)) :: outer }, c) := by
  have hkey : handleKey p s = StateT.lift (inputKey entry (fieldText 4 v) outer p s) := by
    rw [handleKey, hl]
  have hp' : (p.keystroke >>> 8).toNat = k.scancode := hp
  rw [hkey, inputKey, hp']
  cases k with
  | digit d =>
    obtain ⟨hrange, hchar⟩ := EditKey.digit_scancode d
    have hadd := addCharToEnd_fieldText (n := 3) (by decide) hv (by decide) d.isLt
    simp only [if_pos hrange, hchar]
    rw [show addCharToEnd (fieldText 4 v) inputMaxLength (ascii d.val.digitChar) = _ from hadd]
    rfl
  | backspace =>
    have hdel := delCharAtEnd_fieldText (n := 3) (by decide) hv
    rw [if_neg (by decide), if_pos (show EditKey.backspace.scancode = 0x0E from rfl),
      show delCharAtEnd (fieldText 4 v) inputMaxLength = _ from hdel]
    rfl

theorem menuRun_cons {s : Menu} (h : s.Ok) (hkey : (handleKey p s).run c = some (s', c'))
    (ps : List KeyPress) : (menuRun s (p :: ps)).run c = (menuRun s' ps).run c' := by
  rw [menuRun, StateT.run_bind, menuStep_run h, hkey]
  rfl

theorem menuRun_edits {s : Menu} (h : s.Ok)
    (hl : s.loops = .inputLoop entry (fieldText 4 v) :: outer) (hv : v < 10000)
    (keys : List (EditKey × KeyPress)) (hkeys : ∀ k ∈ keys, k.2.scancode = k.1.scancode)
    (ps : List KeyPress) (c : Chip) :
    (keys.map Prod.fst).foldl EditKey.apply v < 10000 ∧
      ∃ s', s'.Ok ∧
        s' = { s with
          loops := .inputLoop entry (fieldText 4 ((keys.map Prod.fst).foldl EditKey.apply v)) :: outer } ∧
        (menuRun s (keys.map Prod.snd ++ ps)).run c = (menuRun s' ps).run c := by
  induction keys generalizing s v with
  | nil => exact ⟨hv, s, h, by rw [List.map_nil, List.foldl_nil, ← hl], rfl⟩
  | cons k keys ih =>
    obtain ⟨hk, hkeys⟩ := List.forall_mem_cons.mp hkeys
    have hkey := handleKey_edit hl hv hk c
    obtain ⟨hlt, s', hok, hs', hrun⟩ := ih (handleKey_ok h hkey) rfl (k.1.apply_lt hv) hkeys
    refine ⟨hlt, s', hok, hs', ?_⟩
    rw [List.map_cons, List.cons_append, menuRun_cons h hkey]
    exact hrun

/-- After any digits and backspaces the field shows the number that they make,
and ENTER sets it. -/
theorem input_edits {s : Menu} (h : s.Ok) {value : BitVec 16} {setValue : SetValue}
    (hl : s.loops = .inputLoop entry (u16ToString value inputMaxLength) :: outer)
    (hvalue : value.toNat < 10000) (hset : entry.setInputValue = some setValue)
    (keys : List (EditKey × KeyPress)) (hkeys : ∀ k ∈ keys, k.2.scancode = k.1.scancode)
    (c : Chip) :
    let v := (keys.map Prod.fst).foldl EditKey.apply value.toNat
    v < 10000 ∧
      (menuRun s (keys.map Prod.snd)).run c =
        some ({ s with loops := .inputLoop entry (fieldText 4 v) :: outer }, c) ∧
      ∀ p : KeyPress, p.scancode = 0x1C ∨ p.scancode = 0xE0 →
        (menuRun s (keys.map Prod.snd ++ [p])).run c =
          some ({ s with lbs := setValue s.lbs (BitVec.ofNat 16 v), loops := outer }, c) := by
  have hstart : u16ToString value inputMaxLength = fieldText 4 value.toNat :=
    u16ToString_eq (n := 3) hvalue
  rw [hstart] at hl
  intro v
  refine ⟨(menuRun_edits h hl hvalue keys hkeys [] c).1, ?_, fun p hp => ?_⟩
  · obtain ⟨-, s', -, hs', hrun⟩ := menuRun_edits h hl hvalue keys hkeys [] c
    rw [List.append_nil] at hrun
    rw [hrun, hs']
    rfl
  · obtain ⟨-, s', hok, hs', hrun⟩ := menuRun_edits h hl hvalue keys hkeys [p] c
    have hl' : s'.loops = .inputLoop entry (fieldText 4 v) :: outer := by rw [hs']
    have hkey : (handleKey p s').run c =
        some ({ s' with lbs := setValue s'.lbs (BitVec.ofNat 16 v), loops := outer }, c) := by
      have hhandle : handleKey p s' = StateT.lift (inputKey entry (fieldText 4 v) outer p s') := by
        rw [handleKey, hl']
      have hp' : (p.keystroke >>> 8).toNat = 0x1C ∨ (p.keystroke >>> 8).toNat = 0xE0 := hp
      rw [hhandle, inputKey,
        if_neg (by omega), if_neg (by omega), if_pos hp', hset, stringToU16_fieldText]
      rfl
    rw [hrun, menuRun_cons hok hkey, hs']
    rfl

end

/-- The field of fan 1 at 12 rpm. -/
def fan1Menu : Menu where
  lbs := llamaBiosSettingsDefault
  mainMenuSelection := 5
  submenuSelection := 0
  loops :=
    [ .inputLoop (numberInput handlerGetFan1TargetRpm handlerSetFan1TargetRpm) (u16ToString 12 4),
      .submenuLoop, .mainMenuLoop ]

theorem fan1Menu_ok : fan1Menu.Ok :=
  ⟨by decide, by decide, .input ⟨_, rfl, rfl⟩ rfl _, by decide⟩

/-- 1, backspace, 0, ENTER. -/
theorem input_edits_120 :
    ∃ s, (menuRun fan1Menu [⟨0x0231, fun _ => 0⟩, ⟨0x0E08, fun _ => 0⟩, ⟨0x0B30, fun _ => 0⟩,
        ⟨0x1C0D, fun _ => 0⟩]).run (uniformChip 0) = some (s, uniformChip 0) ∧
      s.lbs.fan1TargetRpm.value = 120 := by
  obtain ⟨-, -, henter⟩ := input_edits fan1Menu_ok rfl (by decide) rfl
    [ (.digit 1, ⟨0x0231, fun _ => 0⟩), (.backspace, ⟨0x0E08, fun _ => 0⟩),
      (.digit 0, ⟨0x0B30, fun _ => 0⟩) ] (by decide) (uniformChip 0)
  exact ⟨_, henter ⟨0x1C0D, fun _ => 0⟩ (.inl rfl), by decide⟩

end ItxLlama.Llama
