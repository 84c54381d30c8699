import ItxLlama.Lib.Digits
import ItxLlama.Seabios.Printf
import Mathlib.Data.List.TakeWhile

/-!
# What format strings expand to

The full expansion of a format, from its directives alone, and that
`bvprintf` prints it, except behind a `.` that no `s` follows.
-/

namespace ItxLlama.Seabios.Printf

open Lib.Signed Lib.Digits

-- ---------------------------------------------------------------------------
-- Expansions
-- ---------------------------------------------------------------------------

inductive Conv where
  | percent
  | d
  | u
  | p
  | x
  | c
  | s
  | dotS
  deriving DecidableEq, Repr

def Conv.text : Conv → List Char
  | percent => ['%']
  | d => ['d']
  | u => ['u']
  | p => ['p']
  | x => ['x']
  | c => ['c']
  | s => ['s']
  | dotS => ['.', 's']

/-- The number between `%` and the conversion. -/
def width (fmt : List Char) : Nat := Nat.ofDigitChars 10 (fmt.takeWhile Char.isDigit) 0

/-- What a number in hexadecimal is padded with. -/
def padding (fmt : List Char) : Char := if fmt.head? = some '0' then '0' else ' '

def isWide (fmt : List Char) : Bool := (scanLong (fmt.dropWhile Char.isDigit)).1

/-- The format behind the number and the `l`s. -/
def behindFlags (fmt : List Char) : List Char := (scanLong (fmt.dropWhile Char.isDigit)).2

def decimal (i : Int) : List Char :=
  if i < 0 then '-' :: Nat.toDigits 10 i.natAbs else Nat.toDigits 10 i.natAbs

/-- The two words of a 64-bit argument. -/
def lower (v : BitVec 64) : BitVec 32 := v.setWidth 32
def upper (v : BitVec 64) : BitVec 32 := (v >>> 32).setWidth 32

/-- What a conversion takes from the arguments, what it leaves there, and its
text. -/
inductive Converts (width : Nat) (padchar : Char) :
    (wide : Bool) → Conv → List Arg → List Arg → List Char → Prop
  | percent : Converts width padchar wide .percent args args ['%']
  | d : Converts width padchar false .d (.word w :: args) args (decimal w.toInt)
  | dWide (hlo : -2 ^ 31 ≤ v.toInt) (hhi : v.toInt < 2 ^ 31) :
      Converts width padchar true .d (.word (lower v) :: .word (upper v) :: args) args (decimal v.toInt)
  | u : Converts width padchar false .u (.word w :: args) args (Nat.toDigits 10 w.toNat)
  | uWide (h : v.toNat < 2 ^ 32) :
      Converts width padchar true .u (.word (lower v) :: .word (upper v) :: args) args
        (Nat.toDigits 10 v.toNat)
  | p : Converts width padchar wide .p (.word w :: args) args
      ('0' :: 'x' :: List.leftpad 8 '0' (Nat.toDigits 16 w.toNat))
  | x : Converts width padchar false .x (.word w :: args) args
      (List.leftpad width padchar (Nat.toDigits 16 w.toNat))
  | xWide : Converts width padchar true .x (.word (lower v) :: .word (upper v) :: args) args
      (List.leftpad width padchar (Nat.toDigits 16 v.toNat))
  | c : Converts width padchar wide .c (.word w :: args) args [Char.ofNat (w.toNat % 0x100)]
  | s : Converts width padchar wide .s (.str t :: args) args t
  | dotS : Converts width padchar wide .dotS (.str t :: args) args t
  | dotSNull : Converts width padchar wide .dotS (.null :: args) args "(NULL)".toList

/-- The full expansion of a format with matching arguments. -/
inductive Expands : (fmt : List Char) → List Arg → (text : List Char) → Prop
  | done : Expands [] args []
  | plain (hc : c ≠ '%') (h : Expands fmt args text) : Expands (c :: fmt) args (c :: text)
  | directive (hconv : behindFlags fmt = conv.text ++ rest)
      (hconverts : Converts (width fmt) (padding fmt) (isWide fmt) conv args args' text)
      (h : Expands rest args' text') : Expands ('%' :: fmt) args (text ++ text')
  | literal (hnone : ∀ conv rest, behindFlags fmt ≠ Conv.text conv ++ rest)
      (h : Expands fmt args text) : Expands ('%' :: fmt) args ('%' :: text)

/-- A directive that breaks off at a `.` without `s`. -/
inductive LoneDot : (fmt : List Char) → Prop
  | here (hdot : behindFlags fmt = '.' :: rest) (hs : rest.head? ≠ some 's') : LoneDot ('%' :: fmt)
  | plain (hc : c ≠ '%') (h : LoneDot fmt) : LoneDot (c :: fmt)
  | directive (conv : Conv) (hconv : behindFlags fmt = conv.text ++ rest) (h : LoneDot rest) :
      LoneDot ('%' :: fmt)
  | literal (hnone : ∀ conv rest, behindFlags fmt ≠ Conv.text conv ++ rest) (h : LoneDot fmt) :
      LoneDot ('%' :: fmt)

-- ---------------------------------------------------------------------------
-- Numbers
-- ---------------------------------------------------------------------------

section

variable {σ : Type} {putc : σ → Char → σ} {st : σ}

theorem puts_append (s t : List Char) : puts putc t (puts putc s st) = puts putc (s ++ t) st :=
  (List.foldl_append ..).symm

theorem singlehex_eq : ∀ n < 16, Char.ofNat (if n ≤ 9 then '0'.toNat + n else 'a'.toNat + n - 10) =
    n.digitChar := by decide

theorem singlehex_digit (val : BitVec 32) (i : Nat) :
    singlehex ((val >>> (4 * i)) &&& 0xf) = (val.toNat / 16 ^ i % 16).digitChar := by
  have hnat : ((val >>> (4 * i)) &&& 0xf).toNat = val.toNat / 16 ^ i % 16 := by
    rw [BitVec.toNat_and, BitVec.toNat_ushiftRight, Nat.shiftRight_eq_div_pow, Nat.pow_mul]
    exact Nat.and_two_pow_sub_one_eq_mod _ 4
  rw [singlehex, hnat]
  exact singlehex_eq _ (Nat.mod_lt _ (by decide))

theorem digits_map (n k : Nat) :
    ((List.range k).reverse.map fun i => (n / 16 ^ i % 16).digitChar) = lastDigits 16 n k := by
  induction k generalizing n with
  | zero => rfl
  | succ k ih =>
    rw [lastDigits, ← ih, List.range_succ_eq_map, List.reverse_cons, ← List.map_reverse,
      List.map_append,
      List.map_map]
    congr 1
    · refine List.map_congr_left fun i _ => ?_
      rw [Function.comp_apply, Nat.succ_eq_add_one, Nat.pow_succ', Nat.div_div_eq_div_mul]
    · simp

theorem puthex_eq (val : BitVec 32) (width : Int) (st : σ) :
    puthex putc val width st = puts putc (lastDigits 16 val.toNat (puthexCases width)) st := by
  unfold puthex
  rw [← digits_map]
  congr 2
  exact funext fun i => singlehex_digit val i

theorem countHex_eq (val : BitVec 32) (h : val.toNat < 16 ^ (fuel + 1)) (count : Nat) :
    countHex fuel val count + 1 = count + (Nat.toDigits 16 val.toNat).length := by
  induction fuel generalizing val count with
  | zero =>
    rw [countHex, Nat.toDigits_of_lt_base (by simpa using h)]
    rfl
  | succ fuel ih =>
    have hshift : (val >>> 4).toNat = val.toNat / 16 := by
      rw [BitVec.toNat_ushiftRight, Nat.shiftRight_eq_div_pow]
    rw [countHex]
    by_cases hzero : val >>> 4 = 0
    · have hlt : val.toNat < 16 := by
        rw [hzero] at hshift
        exact (Nat.div_eq_zero_iff_lt (by decide)).mp hshift.symm
      rw [if_pos hzero, Nat.toDigits_of_lt_base hlt]
      rfl
    · have hge : 16 ≤ val.toNat := by
        refine Nat.le_of_not_lt fun hlt => hzero (BitVec.eq_of_toNat_eq ?_)
        rw [hshift]
        exact Nat.div_eq_of_lt hlt
      have hrest := ih (val >>> 4) (by rw [hshift]; exact Nat.div_lt_of_lt_mul (by rwa [← Nat.pow_succ']))
        (count + 1)
      rw [if_neg hzero, hrest, Nat.toDigits_of_base_le (by decide) hge, hshift, List.length_append,
        List.length_singleton]
      omega

theorem length_hex_le (val : BitVec 32) : (Nat.toDigits 16 val.toNat).length ≤ 8 :=
  (Nat.length_toDigits_le_iff (by decide) (by decide)).mpr val.isLt

theorem countHex_one (val : BitVec 32) : countHex 8 val 1 = (Nat.toDigits 16 val.toNat).length := by
  have h := @countHex_eq 8 val (val.isLt.trans (by decide)) 1
  omega

theorem puthexCases_eq {k : Nat} (hlo : 1 ≤ k) (hhi : k ≤ 8) : puthexCases (k : Int) = k := by
  unfold puthexCases
  split <;> omega

theorem puthex_all (val : BitVec 32) (st : σ) :
    puthex putc val 8 st = puts putc (lastDigits 16 val.toNat 8) st := puthex_eq val 8 st

theorem puthex_count (val : BitVec 32) (st : σ) :
    puthex putc val (countHex 8 val 1 : Nat) st = puts putc (Nat.toDigits 16 val.toNat) st := by
  have hpos : 0 < (Nat.toDigits 16 val.toNat).length := Nat.length_toDigits_pos
  rw [puthex_eq, countHex_one, puthexCases_eq hpos (length_hex_le val)]
  congr 1
  obtain ⟨k, hk⟩ := Nat.exists_eq_add_of_le' hpos
  rw [hk]
  refine lastDigits_eq (by decide) ?_ ?_
  · by_cases hzero : k = 0
    · exact .inl hzero
    · refine .inr (Nat.le_of_not_lt fun hlt => ?_)
      have hle := (Nat.length_toDigits_le_iff (b := 16) (by decide) (Nat.pos_of_ne_zero hzero)).mpr hlt
      omega
  · exact (Nat.length_toDigits_le_iff (by decide) (Nat.succ_pos k)).mp (Nat.le_of_eq hk)

theorem putprettyhex_eq (val : BitVec 32) (width : Int) (padchar : Char) (st : σ) :
    putprettyhex putc val width padchar st = puts putc (List.replicate
      (int32 (width - (Nat.toDigits 16 val.toNat).length)).toNat padchar ++ Nat.toDigits 16
        val.toNat) st := by
  rw [putprettyhex, puthex_count, countHex_one, puts_append]

/-- The digits with their padding: never too many characters, and the right
ones as long as an `int` can count them. -/
theorem padded_digits {w : Nat} {pad padchar : Char} {digits : List Char}
    (hlen : digits.length ≤ 16)
    (hpad : w < 2 ^ 31 → padchar = pad) :
    (List.replicate (int32 ((w : Int) - digits.length)).toNat padchar ++ digits).length ≤
        (List.leftpad w pad digits).length ∧
      ((List.leftpad w pad digits).length < 2 ^ 31 →
        List.replicate (int32 ((w : Int) - digits.length)).toNat padchar ++ digits =
          List.leftpad w pad digits) := by
  have hle : int32 ((w : Int) - digits.length) ≤ w - digits.length := int32_le (by omega)
  rw [List.length_append, List.length_replicate, List.length_leftpad]
  refine ⟨by omega, fun hsmall => ?_⟩
  have hw : w < 2 ^ 31 := by omega
  have hcount : (int32 ((w : Int) - digits.length)).toNat = w - digits.length := by
    rw [int32_eq (by omega) (by omega)]
    omega
  rw [hcount, hpad hw, List.leftpad]

theorem putint_eq (val : BitVec 32) (st : σ) :
    putint putc val st = puts putc (decimal val.toInt) st := by
  unfold putint decimal putuint
  have hint := BitVec.toInt_eq_toNat_cond val
  split
  · have hneg : (-val).toNat = val.toInt.natAbs := by
      rw [BitVec.toNat_neg]
      omega
    rw [hneg]
    rfl
  · have hpos : val.toNat = val.toInt.natAbs := by omega
    rw [hpos]

theorem lower_toNat (v : BitVec 64) :
    (lower v).toNat = v.toNat % 2 ^ 32 := BitVec.toNat_setWidth 32 v

theorem upper_toNat (v : BitVec 64) : (upper v).toNat = v.toNat / 2 ^ 32 := by
  rw [upper, BitVec.toNat_setWidth, BitVec.toNat_ushiftRight, Nat.shiftRight_eq_div_pow]
  exact Nat.mod_eq_of_lt (Nat.div_lt_of_lt_mul v.isLt)

theorem lower_toInt (v : BitVec 64) (hlo : -2 ^ 31 ≤ v.toInt) (hhi : v.toInt < 2 ^ 31) :
    (lower v).toInt = v.toInt := by
  have hlower := lower_toNat v
  have hv := BitVec.toInt_eq_toNat_cond v
  have hl := BitVec.toInt_eq_toNat_cond (lower v)
  omega

/-- A 64-bit number is the digits of its upper word and the eight of the lower. -/
theorem toDigits_wide (v : BitVec 64) (h : upper v ≠ 0) :
    Nat.toDigits 16 v.toNat = Nat.toDigits 16 (upper v).toNat ++ lastDigits 16 (lower v).toNat 8 := by
  have hpos : 0 < (upper v).toNat := Nat.pos_of_ne_zero fun hzero => h (BitVec.eq_of_toNat_eq hzero)
  have hlt : (lower v).toNat < 16 ^ 8 := (lower v).isLt
  rw [toDigits_append_lastDigits (by decide) hpos hlt, lower_toNat, upper_toNat]
  congr 1
  exact (Nat.div_add_mod v.toNat (2 ^ 32)).symm

theorem lower_of_upper (v : BitVec 64) (h : upper v = 0) : (lower v).toNat = v.toNat := by
  have hupper := upper_toNat v
  rw [h] at hupper
  rw [lower_toNat]
  exact Nat.mod_eq_of_lt ((Nat.div_eq_zero_iff_lt (by decide)).mp hupper.symm)

-- ---------------------------------------------------------------------------
-- Directives
-- ---------------------------------------------------------------------------

theorem le_ofDigitChars (ds : List Char) (n : Nat) : n ≤ Nat.ofDigitChars 10 ds n := by
  induction ds generalizing n with
  | nil => exact Nat.le_refl n
  | cons d ds ih =>
    rw [Nat.ofDigitChars_cons]
    exact Nat.le_trans (by omega) (ih _)

theorem scanWidth_eq (s : List Char) (n : Nat) (padchar : Char) :
    ∃ padchar', scanWidth (int32 n) padchar s =
        (int32 (Nat.ofDigitChars 10 (s.takeWhile Char.isDigit) n), padchar',
          s.dropWhile Char.isDigit) ∧
      (Nat.ofDigitChars 10 (s.takeWhile Char.isDigit) n < 2 ^ 31 →
        padchar' = if n = 0 ∧ s.head? = some '0' then '0' else padchar) := by
  induction s generalizing n padchar with
  | nil => exact ⟨padchar, rfl, fun _ => by simp⟩
  | cons c s ih =>
    by_cases hdigit : c.isDigit = true
    · have hnext : int32 (int32 n * 10 + (c.toNat - '0'.toNat : Nat)) =
          int32 (10 * n + (c.toNat - '0'.toNat) : Nat) := by
        rw [int32_mul_add]
        congr 1
        omega
      have hrange := Char.isDigit_iff_toNat.mp hdigit
      rw [List.takeWhile_cons_of_pos hdigit, List.dropWhile_cons_of_pos hdigit, scanWidth,
        if_pos hdigit,
        Nat.ofDigitChars_cons, List.head?_cons]
      have hsmall : ∀ ds, Nat.ofDigitChars 10 ds (10 * n + (c.toNat - '0'.toNat)) < 2 ^ 31 →
          int32 n = n := fun ds h => by
        have hle := le_ofDigitChars ds (10 * n + (c.toNat - '0'.toNat))
        exact int32_eq (by omega) (by omega)
      by_cases hflag : int32 n = 0 ∧ c = '0'
      · rw [if_pos hflag]
        have hzero : int32 n = int32 (10 * n + (c.toNat - '0'.toNat) : Nat) := by
          rw [← hnext, hflag.1, hflag.2, Nat.sub_self]
          exact (int32_eq (by decide) (by decide)).symm
        obtain ⟨padchar', hscan, hpad⟩ := ih (10 * n + (c.toNat - '0'.toNat)) '0'
        refine ⟨padchar', (congrArg (scanWidth · '0' s) hzero).trans hscan, fun h => ?_⟩
        have hn := hsmall _ h
        rw [hpad h, ite_self, if_pos ⟨by omega, congrArg some hflag.2⟩]
      · rw [if_neg hflag, hnext]
        obtain ⟨padchar', hscan, hpad⟩ := ih (10 * n + (c.toNat - '0'.toNat)) padchar
        refine ⟨padchar', hscan, fun h => ?_⟩
        have hn := hsmall _ h
        have hnot : ¬ (n = 0 ∧ some c = some '0') := fun ⟨hzero, hc⟩ =>
          hflag ⟨by rw [hn, hzero]; rfl, Option.some.inj hc⟩
        have hnext : ¬ (10 * n + (c.toNat - '0'.toNat) = 0 ∧ s.head? = some '0') :=
          fun ⟨hzero, _⟩ =>
          hnot ⟨by omega, congrArg some (Char.toNat_inj.mp (by omega))⟩
        rw [hpad h, if_neg hnot, if_neg hnext]
    · rw [List.takeWhile_cons_of_neg hdigit, List.dropWhile_cons_of_neg hdigit, scanWidth,
        if_neg hdigit]
      refine ⟨padchar, rfl, fun _ => (if_neg ?_).symm⟩
      rintro ⟨-, hc⟩
      exact hdigit ((Option.some.inj hc) ▸ rfl)

theorem convert_flags (putc : σ → Char → σ) (fmt : List Char) (args : List Arg) (st : σ) :
    ∃ padchar,
    convert putc fmt args st =
      printConv putc (int32 (width fmt)) padchar (isWide fmt) (behindFlags fmt) fmt args st ∧
    (width fmt < 2 ^ 31 → padchar = padding fmt) := by
  obtain ⟨padchar, hscan, hpad⟩ := scanWidth_eq fmt 0 ' '
  refine ⟨padchar, ?_, fun hw => ?_⟩
  · have hzero : scanWidth 0 ' ' fmt = _ := hscan
    rw [convert, hzero]
    rfl
  · rw [hpad hw, padding]
    exact if_congr (and_iff_right rfl) rfl rfl

theorem printConv_converts (putc : σ → Char → σ) {w : Nat} {pad padchar : Char}
    (hpad : w < 2 ^ 31 → padchar = pad)
    (h : Converts w pad is64 conv args args' text) (rest s : List Char) (st : σ) :
    ∃ text', printConv putc (int32 w) padchar is64 (conv.text ++ rest) s args st =
        some (puts putc text' st, args', rest) ∧
      text'.length ≤ text.length ∧ (text.length < 2 ^ 31 → text' = text) := by
  have exactly {text' : List Char} (h : text' = text)
      (heq : printConv putc (int32 w) padchar is64 (conv.text ++ rest) s args st =
        some (puts putc text' st, args', rest)) : ∃ text',
      printConv putc (int32 w) padchar is64 (conv.text ++ rest) s args st =
        some (puts putc text' st, args', rest) ∧
      text'.length ≤ text.length ∧ (text.length < 2 ^ 31 → text' = text) :=
    ⟨text', heq, h ▸ Nat.le_refl _, fun _ => h⟩
  cases h with
  | percent => exact exactly rfl rfl
  | c => exact exactly rfl rfl
  | s => exact exactly rfl rfl
  | dotS => exact exactly rfl rfl
  | dotSNull => exact exactly rfl rfl
  | @d word =>
    refine exactly rfl ?_
    rw [← putint_eq]
    rfl
  | dWide hlo hhi =>
    rename_i v
    refine exactly rfl ?_
    rw [← lower_toInt v hlo hhi, ← putint_eq]
    rfl
  | u => exact exactly rfl rfl
  | uWide hfits =>
    rename_i v
    have hlower : (lower v).toNat = v.toNat := by
      rw [lower_toNat]
      exact Nat.mod_eq_of_lt hfits
    refine exactly rfl ?_
    rw [← hlower]
    rfl
  | p =>
    rename_i word
    have hlt : word.toNat < 16 ^ 8 := word.isLt
    refine exactly (congrArg _ (congrArg _ (leftpad_toDigits (by decide) hlt).symm)) ?_
    exact congrArg (fun st => some (st, args', rest)) (puthex_all word _)
  | x =>
    rename_i word
    refine ⟨List.replicate (int32 ((w : Int) - (Nat.toDigits 16 word.toNat).length)).toNat padchar ++
      Nat.toDigits 16 word.toNat, ?_,
        padded_digits (Nat.le_trans (length_hex_le word) (by decide)) hpad⟩
    rw [← int32_sub, ← putprettyhex_eq]
    rfl
  | xWide =>
    rename_i v
    have hlen : (Nat.toDigits 16 v.toNat).length ≤ 16 :=
      (Nat.length_toDigits_le_iff (by decide) (by decide)).mpr v.isLt
    refine ⟨List.replicate (int32 ((w : Int) - (Nat.toDigits 16 v.toNat).length)).toNat padchar ++
      Nat.toDigits 16 v.toNat, ?_, padded_digits hlen hpad⟩
    by_cases hupper : upper v = 0
    · have hwide : printConv putc (int32 w) padchar true (Conv.x.text ++ rest) s
          (.word (lower v) :: .word (upper v) :: args') st =
            some (putprettyhex putc (lower v) (int32 w) padchar st, args', rest) :=
        if_neg (not_not.mpr hupper)
      rw [hwide, putprettyhex_eq, int32_sub, lower_of_upper v hupper]
    · have hwide : printConv putc (int32 w) padchar true (Conv.x.text ++ rest) s
          (.word (lower v) :: .word (upper v) :: args') st =
            some (puthex putc (lower v) 8 (putprettyhex putc (upper v) (int32 (int32 w - 8)) padchar st),
              args', rest) := if_pos hupper
      have hcount : (w : Int) - (8 + (Nat.toDigits 16 (upper v).toNat).length) =
          w - ((Nat.toDigits 16 (upper v).toNat).length + 8 : Nat) := by omega
      rw [hwide, puthex_all, putprettyhex_eq, puts_append, int32_sub, Int.sub_sub, int32_sub,
        hcount,
        toDigits_wide v hupper, List.length_append, length_lastDigits, List.append_assoc]

theorem printConv_literal (putc : σ → Char → σ) (hnone : ∀ conv rest, n ≠ Conv.text conv ++ rest)
    (fieldWidth : Int) (padchar : Char) (is64 : Bool) (s : List Char) (args : List Arg) (st : σ) :
    (∃ rest, n = '.' :: rest ∧ rest.head? ≠ some 's' ∧
      printConv putc fieldWidth padchar is64 n s args st = some (st, args, rest)) ∨
    ((∀ rest, n ≠ '.' :: rest) ∧
      printConv putc fieldWidth padchar is64 n s args st = some (putc st '%', args, s)) := by
  have hnot (conv : Conv) (rest : List Char) (h : n = conv.text ++ rest) :
    False := hnone conv rest h
  unfold printConv
  split
  · exact (hnot .percent _ rfl).elim
  · exact (hnot .d _ rfl).elim
  · exact (hnot .u _ rfl).elim
  · exact (hnot .p _ rfl).elim
  · exact (hnot .x _ rfl).elim
  · exact (hnot .c _ rfl).elim
  · left
    rename_i n
    have hs : n.head? ≠ some 's' := fun hhead => by
      obtain ⟨n', rfl⟩ := List.head?_eq_some_iff.mp hhead
      exact hnot .dotS n' rfl
    refine ⟨n, rfl, hs, ?_⟩
    split
    · exact (hnot .dotS _ rfl).elim
    · exact (hnot .dotS _ rfl).elim
    · exact (hnot .dotS _ rfl).elim
    · rfl
  · exact (hnot .s _ rfl).elim
  · rename_i hdot _
    exact .inr ⟨hdot, rfl⟩

-- ---------------------------------------------------------------------------
-- Formats
-- ---------------------------------------------------------------------------

theorem Conv.text_append (conv conv' : Conv) (h : conv.text ++ rest = conv'.text ++ rest') :
    conv = conv' ∧ rest = rest' := by
  cases conv <;> cases conv' <;> simp_all [Conv.text]

theorem conv_ne_dot (conv : Conv) (hs : tail.head? ≠ some 's') :
    conv.text ++ rest ≠ '.' :: tail := by
  intro h
  cases conv with
  | dotS => exact hs ((List.cons.inj h).2 ▸ rfl)
  | _ => exact absurd (List.cons.inj h).1 (by decide)

theorem Conv.text_ne_nil (conv : Conv) : 0 < conv.text.length := by
  cases conv <;> decide

theorem flags_append (fmt : List Char) :
    ∃ flags, fmt = flags ++ behindFlags fmt ∧ ∀ c ∈ flags, c ≠ '%' := by
  have hlongs : ∀ n, ∃ longs, n = longs ++ (scanLong n).2 ∧ ∀ c ∈ longs, c = 'l' := by
    intro n
    unfold scanLong
    split
    · exact ⟨['l', 'l'], rfl, by simp⟩
    · exact ⟨['l'], rfl, by simp⟩
    · exact ⟨[], rfl, nofun⟩
  obtain ⟨longs, heq, hl⟩ := hlongs (fmt.dropWhile Char.isDigit)
  refine ⟨fmt.takeWhile Char.isDigit ++ longs, ?_, fun c hc => ?_⟩
  · rw [List.append_assoc]
    exact List.takeWhile_append_dropWhile.symm.trans (congrArg _ heq)
  · rintro rfl
    obtain hdigit | hlong := List.mem_append.mp hc
    · exact absurd (List.mem_takeWhile_imp hdigit) (by decide)
    · exact absurd (hl _ hlong) (by decide)

theorem length_behindFlags (fmt : List Char) : (behindFlags fmt).length ≤ fmt.length := by
  obtain ⟨flags, heq, -⟩ := flags_append fmt
  have hlen := congrArg List.length heq
  rw [List.length_append] at hlen
  omega

theorem expands_append (h : Expands (plain ++ fmt) args text) (hplain : ∀ c ∈ plain, c ≠ '%') :
    ∃ text', text = plain ++ text' ∧ Expands fmt args text' := by
  induction plain generalizing text with
  | nil => exact ⟨text, rfl, h⟩
  | cons c plain ih =>
    obtain ⟨hc, hplain⟩ := List.forall_mem_cons.mp hplain
    cases h with
    | plain _ hrest =>
      obtain ⟨text', htext, hrest⟩ := ih hrest hplain
      exact ⟨text', congrArg (c :: ·) htext, hrest⟩
    | directive => exact absurd rfl hc
    | literal => exact absurd rfl hc

/-- `bvprintf` prints the expansion as long as an `int` can count it, except
for lone dots, which it leaves out. -/
theorem bvprintfLoop_expands (putc : σ → Char → σ) (hfuel : fmt.length < fuel)
    (h : Expands fmt args text) (st : σ) :
    ∃ text', bvprintfLoop putc fuel fmt args st = some (puts putc text' st) ∧
      text'.length ≤ text.length ∧ (LoneDot fmt → text'.length < text.length) ∧
      (¬ LoneDot fmt → text.length < 2 ^ 31 → text' = text) := by
  induction fuel generalizing fmt args text st with
  | zero => exact absurd hfuel (Nat.not_lt_zero _)
  | succ fuel ih =>
    cases h with
    | done => exact ⟨[], rfl, Nat.le_refl _, nofun, fun _ _ => rfl⟩
    | @plain c fmt _ text hc h =>
      obtain ⟨text', heq, hle, hlone, hsame⟩ := ih (Nat.lt_of_succ_lt_succ hfuel) h (putc st c)
      refine ⟨c :: text', ?_, Nat.succ_le_succ hle, fun hdot => ?_, fun hdot hsmall => ?_⟩
      · rw [bvprintfLoop, if_pos hc, heq]
        rfl
      · cases hdot with
        | plain _ hdot => exact Nat.succ_lt_succ (hlone hdot)
        | here | directive | literal => exact absurd rfl hc
      · rw [hsame (fun hdot' => hdot (.plain hc hdot')) (Nat.lt_of_succ_lt hsmall)]
    | @directive fmt rest conv _ args' text text' hconv hconverts h =>
      obtain ⟨padchar, hflags, hpad⟩ := convert_flags putc fmt args st
      obtain ⟨front, hprint, hfront, hfrontsame⟩ :=
        printConv_converts putc hpad hconverts rest fmt st
      have hlen := length_behindFlags fmt
      rw [hconv, List.length_append] at hlen
      have hshort : rest.length < fuel := by
        have hpos := conv.text_ne_nil
        rw [List.length_cons] at hfuel
        omega
      obtain ⟨back, heq, hback, hlone, hsame⟩ := ih hshort h (puts putc front st)
      refine ⟨front ++ back, ?_, ?_, fun hdot => ?_, fun hdot hsmall => ?_⟩
      · rw [bvprintfLoop, if_neg (not_not.mpr rfl), hflags, hconv, hprint, ← puts_append]
        exact heq
      · rw [List.length_append, List.length_append]
        omega
      · have hrest : LoneDot rest := by
          cases hdot with
          | plain hc => exact absurd rfl hc
          | @here tail _ hdot hs =>
            rw [hconv] at hdot
            exact absurd hdot (conv_ne_dot conv hs)
          | directive conv' hconv' hrest =>
            exact (Conv.text_append conv conv' (hconv.symm.trans hconv')).2 ▸ hrest
          | literal hnone => exact absurd hconv (hnone conv rest)
        have hlt := hlone hrest
        rw [List.length_append, List.length_append]
        omega
      · rw [List.length_append] at hsmall
        rw [hfrontsame (by omega), hsame (fun hrest => hdot (.directive conv hconv hrest)) (by omega)]
    | @literal fmt _ text hnone h =>
      obtain ⟨padchar, hflags, -⟩ := convert_flags putc fmt args st
      rw [List.length_cons] at hfuel
      obtain ⟨rest, hrest, hs, hprint⟩ | ⟨hdot, hprint⟩ :=
        printConv_literal putc hnone (int32 (width fmt)) padchar (isWide fmt) fmt args st
      · -- the flags and the dot are left out
        obtain ⟨flags, hfmt, hplain⟩ := flags_append fmt
        have hlen := length_behindFlags fmt
        rw [hrest, List.length_cons] at hlen
        rw [hrest, List.append_cons] at hfmt
        have hdot : ∀ c ∈ flags ++ ['.'], c ≠ '%' := fun c hc => by
          obtain hc | hc := List.mem_append.mp hc
          · exact hplain c hc
          · exact List.mem_singleton.mp hc ▸ by decide
        obtain ⟨back, htext, hback⟩ := expands_append (hfmt ▸ h) hdot
        obtain ⟨back', heq, hle, -⟩ := ih (by omega) hback st
        have hlt : back'.length < ('%' :: text).length := by
          rw [htext, List.length_cons, List.length_append]
          omega
        refine ⟨back', ?_, Nat.le_of_lt hlt, fun _ => hlt, fun hnot => absurd (.here hrest hs) hnot⟩
        rw [bvprintfLoop, if_neg (not_not.mpr rfl), hflags, hprint]
        exact heq
      · obtain ⟨text', heq, hle, hlone, hsame⟩ := ih (by omega) h (putc st '%')
        refine ⟨'%' :: text', ?_, Nat.succ_le_succ hle, fun hlonely => ?_, fun hnot hsmall => ?_⟩
        · rw [bvprintfLoop, if_neg (not_not.mpr rfl), hflags, hprint]
          exact heq
        · cases hlonely with
          | plain hc => exact absurd rfl hc
          | here hrest => exact absurd hrest (hdot _)
          | directive conv hconv => exact absurd hconv (hnone conv _)
          | literal _ hrest => exact Nat.succ_lt_succ (hlone hrest)
        · rw [hsame (fun hrest => hnot (.literal hnone hrest)) (Nat.lt_of_succ_lt hsmall)]

end

end ItxLlama.Seabios.Printf
