import Mathlib.Data.BitVec
import Mathlib.Data.List.Basic
import Mathlib.Data.Nat.Basic
import Mathlib.Data.Nat.Digits.Defs

/-!
# Digits of a fixed number

The last digits of a number, leading zeros included.
-/

namespace ItxLlama.Lib.Digits

/-- The last `k` digits in base `b`. -/
def lastDigits (b : Nat) : (n k : Nat) → List Char
  | _, 0 => []
  | n, k + 1 => lastDigits b (n / b) k ++ [(n % b).digitChar]

theorem length_lastDigits (b n k : Nat) : (lastDigits b n k).length = k := by
  induction k generalizing n with
  | zero => rfl
  | succ k ih => rw [lastDigits, List.length_append, ih, List.length_singleton]

theorem toDigits_append_lastDigits (hb : 1 < b) (hq : 0 < q) (hr : r < b ^ k) :
    Nat.toDigits b q ++ lastDigits b r k = Nat.toDigits b (b ^ k * q + r) := by
  induction k generalizing r with
  | zero =>
    have hzero : r = 0 := by simpa using hr
    simp [lastDigits, hzero]
  | succ k ih =>
    have hpos : 0 < b := Nat.zero_lt_of_lt hb
    have hquot : r / b < b ^ k := Nat.div_lt_of_lt_mul (by rwa [← Nat.pow_succ'])
    have hlast : r % b < b := Nat.mod_lt r hpos
    have hsum : 0 < b ^ k * q + r / b := Nat.add_pos_left (Nat.mul_pos (Nat.pow_pos hpos) hq) _
    rw [lastDigits, ← List.append_assoc, ih hquot, ← Nat.toDigits_of_lt_base hlast,
      Nat.toDigits_append_toDigits hb hsum hlast]
    congr 1
    rw [Nat.mul_add, Nat.add_assoc, Nat.div_add_mod, Nat.pow_succ', Nat.mul_assoc]

theorem lastDigits_eq (hb : 1 < b) (hlo : k = 0 ∨ b ^ k ≤ n) (hhi : n < b ^ (k + 1)) :
    lastDigits b n (k + 1) = Nat.toDigits b n := by
  have hpos : 0 < b := Nat.zero_lt_of_lt hb
  induction k generalizing n with
  | zero =>
    have hn : n < b := by simpa using hhi
    rw [lastDigits, lastDigits, List.nil_append, Nat.mod_eq_of_lt hn, Nat.toDigits_of_lt_base hn]
  | succ k ih =>
    have hle : b ^ (k + 1) ≤ n := hlo.resolve_left (Nat.succ_ne_zero k)
    have hbase : b ≤ n := (Nat.le_self_pow (Nat.succ_ne_zero k) b).trans hle
    rw [lastDigits, Nat.toDigits_of_base_le hb hbase, ih (.inr ?_) ?_]
    · exact (Nat.le_div_iff_mul_le hpos).mpr hle
    · exact Nat.div_lt_of_lt_mul (by rwa [← Nat.pow_succ'])

theorem lastDigits_zero (b k : Nat) : lastDigits b 0 k = List.replicate k '0' := by
  induction k with
  | zero => rfl
  | succ k ih =>
    rw [lastDigits, Nat.zero_div, ih, Nat.zero_mod, List.replicate_succ']
    rfl

theorem leftpad_toDigits (hb : 1 < b) (h : n < b ^ (k + 1)) :
    List.leftpad (k + 1) '0' (Nat.toDigits b n) = lastDigits b n (k + 1) := by
  induction k generalizing n with
  | zero => rw [lastDigits_eq hb (.inl rfl) h, List.leftpad,
    Nat.sub_eq_zero_of_le Nat.length_toDigits_pos]; rfl
  | succ k ih =>
    rw [lastDigits]
    by_cases hlt : n < b
    · rw [Nat.toDigits_of_lt_base hlt, Nat.div_eq_of_lt hlt, Nat.mod_eq_of_lt hlt, lastDigits_zero]
      rfl
    · have hquot : n / b < b ^ (k + 1) := Nat.div_lt_of_lt_mul (by rwa [← Nat.pow_succ'])
      rw [Nat.toDigits_of_base_le hb (Nat.le_of_not_lt hlt), ← ih hquot, List.leftpad, List.leftpad,
        List.length_append, List.length_singleton, Nat.add_sub_add_right, List.append_assoc]

end ItxLlama.Lib.Digits

/-!
## Decimal fields

A number in a field of fixed width: its decimal digits at the right end,
blanks in front.
-/

namespace ItxLlama.Lib.DecimalField

def field (len v : Nat) : List Char := List.leftpad len ' ' (Nat.toDigits 10 v)

theorem leftpad_concat (n : Nat) (a : α) (l : List α) (c : α) :
    List.leftpad (n + 1) a (l ++ [c]) = List.leftpad n a l ++ [c] := by
  simp [List.leftpad]

theorem leftpad_succ (a : α) {l : List α} (h : l.length ≤ n) :
    List.leftpad (n + 1) a l = a :: List.leftpad n a l := by
  rw [List.leftpad, List.leftpad, Nat.succ_sub h, List.replicate_succ, List.cons_append]

theorem length_toDigits_le (hn : 0 < n) (hv : v < 10 ^ n) : (Nat.toDigits 10 v).length ≤ n :=
  (Nat.length_toDigits_le_iff (by decide) hn).mpr hv

theorem length_field (hn : 0 < n) (hv : v < 10 ^ n) : (field n v).length = n := by
  rw [field, List.length_leftpad, Nat.max_eq_left (length_toDigits_le hn hv)]

theorem field_succ (hn : 0 < n) (hv : v < 10 ^ n) : field (n + 1) v = ' ' :: field n v :=
  leftpad_succ _ (length_toDigits_le hn hv)

theorem field_digit (n : Nat) (hd : d < 10) :
    field (n + 1) d = List.replicate n ' ' ++ [d.digitChar] := by
  rw [field, Nat.toDigits_of_lt_base hd]
  simp [List.leftpad]

theorem field_concat (n : Nat) (hv : 10 ≤ v) :
    field (n + 1) v = field n (v / 10) ++ [(v % 10).digitChar] := by
  rw [field, Nat.toDigits_of_base_le (by decide) hv, leftpad_concat, field]

theorem field_last (hv : v < 10 ^ (n + 1)) :
    ∃ l, l.length = n ∧ field (n + 1) v = l ++ [(v % 10).digitChar] := by
  have hlen := length_field (Nat.succ_pos n) hv
  by_cases h : v < 10
  · rw [Nat.mod_eq_of_lt h]
    exact ⟨_, List.length_replicate, field_digit n h⟩
  · rw [field_concat n (Nat.not_lt.mp h)] at hlen ⊢
    exact ⟨_, by simpa using hlen, rfl⟩

theorem field_push (n : Nat) (hv : 0 < v) (hd : d < 10) :
    field (n + 1) (10 * v + d) = field n v ++ [d.digitChar] := by
  rw [field_concat n (by omega), show (10 * v + d) / 10 = v by omega,
    show (10 * v + d) % 10 = d by omega]

theorem mem_toDigits {c : Char} (h : c ∈ Nat.toDigits 10 v) : '0' ≤ c ∧ c ≤ '9' := by
  have hdigit := Nat.isDigit_of_mem_toDigits (by decide) (by decide) h
  simp only [Char.isDigit, Bool.and_eq_true, decide_eq_true_eq] at hdigit
  exact hdigit

theorem mem_field {c : Char} (h : c ∈ field n v) : c = ' ' ∨ ('0' ≤ c ∧ c ≤ '9') := by
  rcases List.mem_append.mp h with h | h
  · exact .inl (List.eq_of_mem_replicate h)
  · exact .inr (mem_toDigits h)

end ItxLlama.Lib.DecimalField

/-!
## Numbers in mixed radix

Three digits, the last two below `h` and `s`, count through the numbers from
0 in the order of their digits.
-/

namespace ItxLlama.Lib.MixedRadix

def index (h s : Nat) (a b c : Nat) : Nat := (a * h + b) * s + c

variable {a a' b b' c c' h k n s : Nat}

theorem digits_le (hb : b < h) (ha : a < k) : a * h + b + 1 ≤ k * h :=
  calc a * h + b + 1
      ≤ (a + 1) * h := by
        rw [Nat.add_mul, Nat.one_mul]
        exact Nat.add_le_add_left hb _
    _ ≤ k * h := Nat.mul_le_mul_right _ ha

theorem index_lt (ha : a < k) (hb : b < h) (hc : c < s) : index h s a b c < k * h * s :=
  digits_le hc (Nat.lt_of_succ_le (digits_le hb ha))

theorem digits_inj (hb : b < h) (hb' : b' < h) (heq : a * h + b = a' * h + b') :
    a = a' ∧ b = b' := by
  have hmod := congrArg (· % h) heq
  simp only [Nat.mul_add_mod_self_right, Nat.mod_eq_of_lt hb, Nat.mod_eq_of_lt hb'] at hmod
  subst hmod
  have hmul := Nat.add_right_cancel heq
  exact ⟨Nat.eq_of_mul_eq_mul_right (Nat.lt_of_le_of_lt (Nat.zero_le _) hb) hmul, rfl⟩

theorem index_inj (hb : b < h) (hc : c < s) (hb' : b' < h) (hc' : c' < s)
    (heq : index h s a b c = index h s a' b' c') : a = a' ∧ b = b' ∧ c = c' := by
  obtain ⟨hab, rfl⟩ := digits_inj hc hc' heq
  obtain ⟨rfl, rfl⟩ := digits_inj hb hb' hab
  exact ⟨rfl, rfl, rfl⟩

theorem digits_div (hb : b < h) : (a * h + b) / h = a := by
  have hh : 0 < h := Nat.lt_of_le_of_lt (Nat.zero_le b) hb
  rw [Nat.mul_comm, Nat.mul_add_div hh, Nat.div_eq_of_lt hb, Nat.add_zero]

theorem index_mod (hc : c < s) : index h s a b c % s = c := Nat.mul_add_mod_of_lt hc

theorem index_div (hc : c < s) : index h s a b c / s = a * h + b := digits_div hc

theorem exists_index (hn : n < k * h * s) :
    ∃ a < k, ∃ b < h, ∃ c < s, index h s a b c = n := by
  have hs : 0 < s := Nat.pos_of_ne_zero fun h0 => by simp [h0] at hn
  have hh : 0 < h := Nat.pos_of_ne_zero fun h0 => by simp [h0] at hn
  have hq : n / s < k * h := Nat.div_lt_of_lt_mul (Nat.mul_comm s _ ▸ hn)
  refine ⟨n / s / h, Nat.div_lt_of_lt_mul (Nat.mul_comm h _ ▸ hq), n / s % h, Nat.mod_lt _ hh,
    n % s, Nat.mod_lt _ hs, ?_⟩
  rw [index, Nat.mul_comm (n / s / h), Nat.div_add_mod, Nat.mul_comm, Nat.div_add_mod]

end ItxLlama.Lib.MixedRadix
