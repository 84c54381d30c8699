import ItxLlama.Seabios.PrintfText

/-!
# What `snprintf` leaves in its buffer

The beginning of the expansion that fits, with a terminator behind it.
-/

namespace ItxLlama.Seabios.Printf

open Lib.Signed

/-- The characters of a text in memory; only the buffer has changed. -/
structure Holds (mem mem' : Nat → Char) (str size : Nat) (kept : List Char) : Prop where
  chars : ∀ i (h : i < kept.length), mem' (str + i) = kept[i]
  terminator : mem' (str + kept.length) = '\x00'
  frame : ∀ a, a < str ∨ str + size ≤ a → mem' a = mem a

/-- `snprintf` leaves as much of the text as fits, and returns its length. -/
def SnprintfRight (fmt : List Char) (args : List Arg) (text : List Char) (size : Nat) : Prop :=
  ∀ mem str, ∃ mem', snprintf mem str size fmt args = some (mem', ((text.take (size - 1)).length : Int)) ∧
    Holds mem mem' str size (text.take (size - 1))

section

variable {mem : Nat → Char} {str size stop : Nat} {text : List Char}

/-- What has been printed up to the end of the buffer. -/
structure Written (mem : Nat → Char) (str stop : Nat) (after : SnprintfInfo) (text : List Char) :
    Prop where
  stop_eq : after.stop = stop
  str_eq : after.str = str + min text.length (stop - str)
  chars : ∀ i (h : i < text.length), i < stop - str → after.mem (str + i) = text[i]
  frame : ∀ a, a < str ∨ stop ≤ a → after.mem a = mem a

theorem puts_written (text : List Char) (mem : Nat → Char) (hle : str ≤ stop) :
    Written mem str stop (puts putcStr text ⟨mem, str, stop⟩) text := by
  induction text generalizing mem str with
  | nil => exact ⟨rfl, by simp [puts], nofun, fun _ _ => rfl⟩
  | cons c text ih =>
    show Written mem str stop (puts putcStr text (putcStr ⟨mem, str, stop⟩ c)) (c :: text)
    by_cases hfull : str ≥ stop
    · have hsame : putcStr ⟨mem, str, stop⟩ c = ⟨mem, str, stop⟩ := if_pos hfull
      have h := ih mem hle
      rw [hsame]
      exact ⟨h.stop_eq, by rw [h.str_eq]; omega, fun i _ hi => by omega, h.frame⟩
    · have hput : putcStr ⟨mem, str, stop⟩ c = ⟨Function.update mem str c, str + 1, stop⟩ :=
        if_neg hfull
      have hnext : str + 1 ≤ stop := by omega
      have h := ih (Function.update mem str c) hnext
      rw [hput]
      refine ⟨h.stop_eq, ?_, fun i hi hi' => ?_, fun a ha => ?_⟩
      · rw [h.str_eq, List.length_cons]
        omega
      · cases i with
        | zero => exact (h.frame str (.inl (Nat.lt_succ_self str))).trans (Function.update_self ..)
        | succ i =>
          have hchar := h.chars i (Nat.lt_of_succ_lt_succ hi) (by omega)
          rw [Nat.add_right_comm] at hchar
          exact hchar
      · rw [h.frame a (by omega)]
        exact Function.update_of_ne (by omega) _ _

theorem snprintf_holds (hsize : 1 ≤ size)
    (hprint : bvprintf putcStr fmt args ⟨mem, str, str + size⟩ =
      some (puts putcStr text ⟨mem, str, str + size⟩)) :
    ∃ mem', snprintf mem str size fmt args = some (mem', int32 ((text.take (size - 1)).length : Nat)) ∧
      Holds mem mem' str size (text.take (size - 1)) := by
  have h := puts_written text mem (Nat.le_add_right str size)
  generalize puts putcStr text ⟨mem, str, str + size⟩ = after at h hprint
  obtain ⟨hstop, hstr, hchars, hframe⟩ := h
  have hend : (if after.str ≥ after.stop then after.stop - 1 else after.str) =
      str + (text.take (size - 1)).length := by
    rw [hstop, hstr, List.length_take]
    split <;> omega
  refine ⟨Function.update after.mem (str + (text.take (size - 1)).length) '\x00', ?_, ?_, ?_, ?_⟩
  · rw [snprintf, if_neg (Nat.ne_of_gt hsize), hprint]
    simp only [hend, Nat.add_sub_cancel_left]
  · intro i hi
    rw [Function.update_of_ne (by omega), List.getElem_take]
    rw [List.length_take] at hi
    exact hchars i (by omega) (by omega)
  · exact Function.update_self ..
  · intro a ha
    have hlen := List.length_take_le (size - 1) text
    rw [Function.update_of_ne (by omega)]
    exact hframe a ha

end

theorem snprintf_right_iff (h : Expands fmt args text) :
    (∀ size, 1 ≤ size → size < 2 ^ 32 → SnprintfRight fmt args text size) ↔
      ¬ LoneDot fmt ∧ text.length < 2 ^ 31 := by
  have hrun (size : Nat) (mem : Nat → Char) (str : Nat) :=
    bvprintfLoop_expands putcStr (Nat.lt_succ_self fmt.length) h ⟨mem, str, str + size⟩
  constructor
  · intro hright
    have hsmall : text.length < 2 ^ 31 := by
      refine Nat.lt_of_not_le fun hlarge => ?_
      obtain ⟨mem', hcall, -⟩ := hright (2 ^ 31 + 1) (by decide) (by decide) (fun _ => '\x00') 0
      obtain ⟨text', hprint, -⟩ := hrun (2 ^ 31 + 1) (fun _ => '\x00') 0
      obtain ⟨mem'', hcall', -⟩ := snprintf_holds (by decide) hprint
      obtain ⟨-, hreturn⟩ := Prod.mk.inj (Option.some.inj (hcall.symm.trans hcall'))
      have hlt := int32_lt ((text'.take (2 ^ 31 + 1 - 1)).length : Nat)
      rw [← hreturn, List.length_take] at hlt
      omega
    refine ⟨fun hdot => ?_, hsmall⟩
    obtain ⟨mem', hcall, -⟩ := hright (text.length + 1) (by omega) (by omega) (fun _ => '\x00') 0
    obtain ⟨text', hprint, -, hlone, -⟩ := hrun (text.length + 1) (fun _ => '\x00') 0
    obtain ⟨mem'', hcall', -⟩ := snprintf_holds (by omega) hprint
    obtain ⟨-, hreturn⟩ := Prod.mk.inj (Option.some.inj (hcall.symm.trans hcall'))
    have hlt := hlone hdot
    have hle := int32_le (x := ((text'.take (text.length + 1 - 1)).length : Nat)) (by omega)
    rw [← hreturn, List.length_take, List.length_take] at hle
    omega
  · rintro ⟨hdot, hsmall⟩ size hsize - mem str
    obtain ⟨text', hprint, -, -, hsame⟩ := hrun size mem str
    rw [hsame hdot hsmall] at hprint
    obtain ⟨mem', hcall, hholds⟩ := snprintf_holds hsize hprint
    refine ⟨mem', ?_, hholds⟩
    have hlen := List.length_take_le' (size - 1) text
    rwa [int32_eq (by omega) (by omega)] at hcall

/-- `"%5x"` with the argument 0xab. -/
theorem snprintf_right_iff_hex :
    (∀ size, 1 ≤ size → size < 2 ^ 32 →
        SnprintfRight ['%', '5', 'x'] [.word 0xab] [' ', ' ', ' ', 'a', 'b'] size) ↔
      ¬ LoneDot ['%', '5', 'x'] ∧ [' ', ' ', ' ', 'a', 'b'].length < 2 ^ 31 := by
  have hconv : behindFlags ['5', 'x'] = Conv.x.text ++ [] := by decide
  have hflags : width ['5', 'x'] = 5 ∧ padding ['5', 'x'] = ' ' ∧
    isWide ['5', 'x'] = false := by decide
  have hconverts : Converts (width ['5', 'x']) (padding ['5', 'x']) (isWide ['5', 'x']) .x [.word 0xab] []
      [' ', ' ', ' ', 'a', 'b'] := by
    rw [hflags.1, hflags.2.1, hflags.2.2]
    exact .x
  exact snprintf_right_iff (Expands.directive hconv hconverts .done)

/-- `"%.d"` is printed as `d`. -/
theorem snprintf_loneDot : Expands ['%', '.', 'd'] [] ['%', '.', 'd'] ∧
    ¬ SnprintfRight ['%', '.', 'd'] [] ['%', '.', 'd'] 4 := by
  have hdot : behindFlags ['.', 'd'] = ['.', 'd'] := by decide
  have hs : ['d'].head? ≠ some 's' := by decide
  refine ⟨.literal (fun conv rest heq => conv_ne_dot conv hs (heq.symm.trans hdot))
    (.plain (by decide) (.plain (by decide) .done)), fun h => ?_⟩
  obtain ⟨mem', hcall, -⟩ := h (fun _ => '\x00') 0
  have hreturn : (snprintf (fun _ => '\x00') 0 4 ['%', '.', 'd'] []).map Prod.snd = some 1 := by decide
  rw [hcall] at hreturn
  have hthree : (3 : Int) = 1 := Option.some.inj hreturn
  exact absurd hthree (by decide)

end ItxLlama.Seabios.Printf
