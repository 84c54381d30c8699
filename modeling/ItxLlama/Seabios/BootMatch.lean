import ItxLlama.Seabios.BootList
import ItxLlama.Seabios.BootOrder

/-!
# Text searches of the boot list

`string_contains` with the filter of `boot_add_hd` in front of it, and the
loop of `glob_prefix`.
-/

namespace ItxLlama.Seabios.Boot

open ItxLlama.Llama (Byte)
open Lib.Glob

-- ---------------------------------------------------------------------------
-- A substring
-- ---------------------------------------------------------------------------

/-- The loop of `string_contains` over what is left of both strings. A
character that differs leaves `substring_index` where it is. -/
def stringContainsLoop (substringLen : Nat) :
    (string substring : CString) → (stringIndex : Nat) → Nat
  | _, [], _ => 0
  | [], _, _ => 0
  | c :: string, d :: substring, stringIndex =>
    if c = d then
      if substring = [] then stringIndex + 1 - substringLen + 1
      else stringContainsLoop substringLen string substring (stringIndex + 1)
    else stringContainsLoop substringLen string (d :: substring) (stringIndex + 1)

def stringContains (string substring : CString) : Nat :=
  stringContainsLoop substring.length string substring 0

def defPrio (priority defaultprio : Int) : Int := if priority < 0 then defaultprio else priority

/-- What `boot_add_hd` is called with, and what it reads of the settings and
of `DefaultHDPrio`; `be` is what `malloc_tmp` returns in it. -/
structure AddHd where
  be : Nat
  driveG : Nat
  desc : CString
  prio : Int
  usbAsFixedDisks : Byte
  defaultHdPrio : Int

/-- The call of `bootentry_add`; `none` where `boot_add_hd` returns in front
of it. -/
def AddHd.call (c : AddHd) : Option BootAdd :=
  if c.usbAsFixedDisks = 0 ∧ stringContains c.desc (cstr "USB MSC") ≠ 0 then none
  else some
    ⟨c.be, iplTypeHarddisk, defPrio c.prio c.defaultHdPrio, c.driveG, some (String.ofList c.desc)⟩

def bootAddHd (drives : Nat → BootDrive) (s : BootState) (c : AddHd) : Option BootState :=
  match c.call with
  | none => some s
  | some call => bootentryAdd drives s call

theorem stringContainsLoop_ne_zero (hne : substring ≠ []) :
    stringContainsLoop len string substring i ≠ 0 ↔ substring.Sublist string := by
  induction string generalizing substring i with
  | nil =>
    cases substring with
    | nil => exact absurd rfl hne
    | cons d substring => simp [stringContainsLoop]
  | cons c string ih =>
    cases substring with
    | nil => exact absurd rfl hne
    | cons d substring =>
      rw [stringContainsLoop]
      by_cases hc : c = d
      · subst hc
        rw [if_pos rfl, List.cons_sublist_cons]
        by_cases hs : substring = []
        · simp [hs]
        · rw [if_neg hs, ih hs]
      · rw [if_neg hc, ih (List.cons_ne_nil d substring)]
        refine ⟨fun h => h.cons _, fun h => ?_⟩
        cases h with
        | cons _ h => exact h
        | cons_cons => exact absurd rfl hc

theorem stringContains_ne_zero {string substring : CString} (hne : substring ≠ []) :
    stringContains string substring ≠ 0 ↔ substring.Sublist string :=
  stringContainsLoop_ne_zero hne

theorem AddHd.call_eq_none (c : AddHd) : c.call = none ↔
    c.usbAsFixedDisks = 0 ∧ (cstr "USB MSC").Sublist c.desc := by
  have hne : cstr "USB MSC" ≠ [] := by
    rw [cstr_eq]
    decide
  rw [← stringContains_ne_zero hne]
  unfold AddHd.call
  split
  · next h => simpa using h
  · next h => simpa using h

/-- Right where the text does not stand spread out in the string, unless it
stands there in one piece too. The filter is right for the same
descriptions. -/
theorem stringContains_infix_iff (string : CString) (hne : substring ≠ []) (c : AddHd) :
    ((stringContains string substring ≠ 0 ↔ substring <:+: string) ↔
      (substring.Sublist string → substring <:+: string)) ∧
    ((c.call = none ↔ c.usbAsFixedDisks = 0 ∧ cstr "USB MSC" <:+: c.desc) ↔
      (c.usbAsFixedDisks = 0 → (cstr "USB MSC").Sublist c.desc → cstr "USB MSC" <:+: c.desc)) := by
  constructor
  · rw [stringContains_ne_zero hne]
    exact ⟨Iff.mp, fun h => ⟨h, List.IsInfix.sublist⟩⟩
  · rw [c.call_eq_none]
    exact ⟨fun h husb hsub => (h.mp ⟨husb, hsub⟩).2,
      fun h => ⟨fun ⟨husb, hsub⟩ => ⟨husb, h husb hsub⟩,
        fun ⟨husb, hinf⟩ => ⟨husb, hinf.sublist⟩⟩⟩

theorem stringContains_infix_iff_abc :
    (stringContains "abc".toList "ab".toList ≠ 0 ↔ "ab".toList <:+: "abc".toList) :=
  (stringContains_infix_iff "abc".toList (show "ab".toList ≠ [] by decide)
    ⟨0, 0, [], 0, 0, 0⟩).1.mpr fun _ => by decide

/-- A disk whose name has the letters between others is left out. -/
theorem stringContains_spread :
    ¬ (stringContains "axb".toList "ab".toList ≠ 0 ↔ "ab".toList <:+: "axb".toList) ∧
      AddHd.call ⟨0x1000, 0x2000, "USB 2MASS C1 ATA-8 Hard-Disk".toList, 1, 0, 103⟩ = none ∧
      ¬ cstr "USB MSC" <:+: "USB 2MASS C1 ATA-8 Hard-Disk".toList := by
  refine ⟨?_, ?_, ?_⟩
  · rw [stringContains_ne_zero (by decide)]
    decide
  · rw [AddHd.call_eq_none, cstr_eq]
    exact ⟨rfl, by decide⟩
  · rw [cstr_eq]
    simp only [String.reduceToList]
    decide

-- ---------------------------------------------------------------------------
-- A prefix
-- ---------------------------------------------------------------------------

/-- At most `fuel` passes of the loop; the terminator of a string is the
`none` behind its last character. -/
def globPrefixLoop : (fuel : Nat) → (glob str : CString) → Option (Option CString)
  | 0, _, _ => none
  | fuel + 1, glob, str =>
    if glob = [] ∧ (str = [] ∨ str.head? = some '/') then some (some str)
    else if glob.head? = some '*' then
      if str = [] ∨ str.head? = some '/' ∨ str.head? = glob[1]? then
        globPrefixLoop fuel glob.tail str
      else globPrefixLoop fuel glob str.tail
    else if glob.head? ≠ str.head? then some none
    else globPrefixLoop fuel glob.tail str.tail

theorem globPrefixLoop_eq (hfuel : glob.length + str.length < fuel) :
    globPrefixLoop fuel glob str = some (globPrefix glob str) := by
  induction fuel generalizing glob str with
  | zero => exact absurd hfuel (Nat.not_lt_zero _)
  | succ fuel ih =>
    cases glob with
    | nil =>
      cases str with
      | nil => rfl
      | cons c str =>
        by_cases hc : c = '/'
        · simp [globPrefixLoop, globPrefix, matchPrefix, hc]
        · simp [globPrefixLoop, globPrefix, matchPrefix, hc]
    | cons g glob =>
      have hlen : glob.length + str.length < fuel := by
        rw [List.length_cons] at hfuel
        omega
      rw [globPrefixLoop, if_neg fun h => List.cons_ne_nil _ _ h.1]
      by_cases hg : g = '*'
      · subst hg
        rw [List.head?_cons, if_pos rfl, globPrefix, matchPrefix_star_cons]
        cases str with
        | nil =>
          rw [if_pos (.inl rfl)]
          exact ih hlen
        | cons c str =>
          rw [skip]
          by_cases hc : c = '/' ∨ glob.head? = some c
          · rw [if_pos hc, if_pos]
            · exact ih hlen
            · rw [List.getElem?_cons_succ, ← List.head?_eq_getElem?]
              exact .inr (hc.imp (congrArg some) Eq.symm)
          · -- The star takes the character and stays.
            have hlen' : ('*' :: glob).length + str.length < fuel := by
              simp only [List.length_cons] at hfuel ⊢
              omega
            have hstep := ih hlen'
            rw [globPrefix, matchPrefix_star_cons] at hstep
            rw [if_neg hc, if_neg]
            · exact hstep
            · rw [List.getElem?_cons_succ, ← List.head?_eq_getElem?]
              rintro (h | h | h)
              · cases h
              · exact hc (.inl (Option.some.inj h))
              · exact hc (.inr h.symm)
      · rw [if_neg (by simpa using hg), globPrefix]
        cases str with
        | nil => rw [matchPrefix_cons_nil hg, if_pos (by simp)]
        | cons c str =>
          by_cases hc : g = c
          · subst hc
            rw [matchPrefix_cons hg, if_neg (by simp)]
            exact ih (by simp at hfuel ⊢; omega)
          · rw [matchPrefix_cons_ne hg hc, if_pos (by simpa using hc)]

/-- The loop ends, with the rest of the string behind an expansion of the
pattern, or with NULL if there is none. -/
theorem globPrefixLoop_iff {glob str : CString} (hstars : Separate '*' glob)
    (hfuel : glob.length + str.length < fuel) :
    ∃ result, globPrefixLoop fuel glob str = some result ∧
      ∀ p, result = some p ↔
        ∃ e, str = e ++ p ∧ Expands '*' '/' glob e ∧ (p = [] ∨ p.head? = some '/') := by
  refine ⟨_, globPrefixLoop_eq hfuel, fun p => ⟨fun h => ?_, ?_⟩⟩
  · obtain ⟨e, hstr, hexp, hp⟩ := matchPrefix_sound h
    exact ⟨e, hstr, hexp, atSep_iff.mp hp⟩
  · rintro ⟨e, rfl, hexp, hp⟩
    exact hexp.matchPrefix hstars (atSep_iff.mpr hp)

theorem globPrefixLoop_iff_usb :
    ∃ result, globPrefixLoop 20 "usb-*@1".toList "usb-kbd@1/x".toList = some result ∧
      ∀ p, result = some p ↔ ∃ e, "usb-kbd@1/x".toList = e ++ p ∧
        Expands '*' '/' "usb-*@1".toList e ∧ (p = [] ∨ p.head? = some '/') :=
  globPrefixLoop_iff (by decide) (by decide)

end ItxLlama.Seabios.Boot
