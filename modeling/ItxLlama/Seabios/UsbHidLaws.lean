import ItxLlama.Lib.Table
import ItxLlama.Seabios.UsbHid
import Mathlib.Data.List.GetD
import Mathlib.Data.List.Perm.Subperm

/-!
# What one report pushes

The old keys are compacted in place while they are scanned, and the slots of
the keys that are still down are zeroed in the report: what is left there are
the new keys, which are appended. The bytes pushed decode to one event for each
change.
-/

namespace ItxLlama.Seabios.UsbHid

open Lib.Slots

-- ---------------------------------------------------------------------------
-- Scancodes
-- ---------------------------------------------------------------------------

/-- The key sequences a byte stream presses (`false`) and releases (`true`). -/
def decode : List Nat → List (Nat × Bool)
  | 0xe1 :: a :: _ :: rest => (0xe100 + a % 0x80, decide (0x80 ≤ a)) :: decode rest
  | 0xe0 :: a :: rest => (0xe000 + a % 0x80, decide (0x80 ≤ a)) :: decode rest
  | a :: rest => (a % 0x80, decide (0x80 ≤ a)) :: decode rest
  | [] => []

/-- The flag of a press or a release. -/
def flag (released : Bool) : Nat := if released then releasebit else 0

/-- The key sequences of the tables, without the empty one. -/
def codes : List Nat := keyToScanCode.filter (· ≠ 0) ++ modifierToScanCode

theorem code_form : ∀ code ∈ codes, code < 0x60 ∨ code = 0xe11d ∨
    (code / 0x100 = 0xe0 ∧ code % 0x100 < 0x60) := by decide +kernel

theorem prockeys_eq : ∀ code ∈ codes, ∀ released, prockeys (code ||| flag released) =
    if code < 0x60 then [code + flag released]
    else if code = 0xe11d then [0xe1, 0x1d + flag released, 0x45 + flag released]
    else [0xe0, code % 0x100 + flag released] := by decide +kernel

theorem add_flag (h : x < 0x60) :
    (x + flag released) % 0x80 = x ∧ decide (0x80 ≤ x + flag released) = released := by
  cases released with
  | false =>
    simp only [flag, Bool.false_eq_true, if_false, decide_eq_false_iff_not]
    omega
  | true =>
    simp only [flag, releasebit, if_true, decide_eq_true_eq]
    omega

theorem add_flag_lt (h : x < 0x60) : x + flag released < 0xe0 := by
  cases released with
  | false => exact Nat.lt_trans h (by decide)
  | true => exact Nat.add_lt_add_right h 0x80

theorem decode_plain (h : a < 0xe0) (rest : List Nat) :
    decode (a :: rest) = (a % 0x80, decide (0x80 ≤ a)) :: decode rest := by
  rw [decode]
  · rintro _ _ _ rfl
    omega
  · rintro _ _ rfl
    omega

theorem decode_prockeys (h : code ∈ codes) (released : Bool) (rest : List Nat) :
    decode (prockeys (code ||| flag released) ++ rest) = (code, released) :: decode rest := by
  rw [prockeys_eq code h]
  obtain hlt | rfl | ⟨hhi, hlo⟩ := code_form code h
  · obtain ⟨hmod, hdec⟩ := @add_flag _ released hlt
    rw [if_pos hlt, List.singleton_append, decode_plain (add_flag_lt hlt), hmod, hdec]
  · cases released <;> rfl
  · obtain ⟨hmod, hdec⟩ := @add_flag _ released hlo
    rw [if_neg (by omega), if_neg (by omega)]
    simp only [List.cons_append, List.nil_append, decode, hmod, hdec]
    congr 2
    omega

/-- The bytes of some events. -/
def push (events : List (Nat × Bool)) : List Nat :=
  events.flatMap fun e => prockeys (e.1 ||| flag e.2)

@[simp] theorem push_append : push (es ++ es') = push es ++ push es' := List.flatMap_append

theorem decode_push_append {es : List (Nat × Bool)} (h : ∀ e ∈ es, e.1 ∈ codes) (rest : List Nat) :
    decode (push es ++ rest) = es ++ decode rest := by
  induction es with
  | nil => rfl
  | cons e es ih =>
    rw [push, List.flatMap_cons, List.append_assoc,
      decode_prockeys (h e List.mem_cons_self), List.cons_append]
    congr 1
    exact ih fun e' he' => h e' (List.mem_cons_of_mem _ he')

def code (key : Nat) : Nat := keyToScanCode.getD key 0

def keyEvents (keys : List Nat) (released : Bool) : List (Nat × Bool) :=
  (keys.filter (code · ≠ 0)).map fun key => (code key, released)

theorem keyEvents_append : keyEvents (l ++ l') b = keyEvents l b ++ keyEvents l' b := by
  simp [keyEvents]

theorem keyEvents_cons : keyEvents (key :: l) b = keyEvents [key] b ++ keyEvents l b :=
  @keyEvents_append [key] l b

theorem mem_keyEvents :
    (c, b') ∈ keyEvents l b ↔ b' = b ∧ ∃ key ∈ l, code key ≠ 0 ∧ code key = c := by
  simp only [keyEvents, List.mem_map, List.mem_filter, decide_eq_true_eq, Prod.mk.injEq]
  constructor
  · rintro ⟨key, ⟨hmem, hne⟩, hc, rfl⟩
    exact ⟨rfl, key, hmem, hne, hc⟩
  · rintro ⟨rfl, key, hmem, hne, hc⟩
    exact ⟨key, ⟨hmem, hne⟩, hc, rfl⟩

theorem procscankey_eq (key : Nat) (released : Bool) :
    procscankey key (flag released) = push (keyEvents [key] released) := by
  unfold procscankey
  split
  case isTrue hge =>
    have hcode : code key = 0 := List.getD_eq_default _ _ hge
    simp [keyEvents, hcode, push]
  case isFalse hlt =>
    by_cases hcode : code key = 0
    · have hzero : ¬ keyToScanCode.getD key 0 ≠ 0 := not_not.mpr hcode
      simp only [hzero, if_false, keyEvents, hcode, List.filter_cons, List.filter_nil]
      rfl
    · have hne : keyToScanCode.getD key 0 ≠ 0 := hcode
      simp only [hne, if_true, keyEvents, hcode, List.filter_cons, List.filter_nil, ne_eq,
        not_false_eq_true, decide_true]
      exact (List.append_nil _).symm

/-- The events of the modifiers whose bits are set. -/
def modEvents (mods : BitVec 8) (released : Bool) : List (Nat × Bool) :=
  ((List.range 8).filter mods.getLsbD).map fun i => (modifierToScanCode.getD i 0, released)

theorem procmodkeyLoop_eq (released : Bool) (i : Nat) (mods : BitVec 8) :
    procmodkeyLoop (flag released) i mods =
      push (((List.range' i (8 - i)).filter mods.getLsbD).map
        fun i => (modifierToScanCode.getD i 0, released)) := by
  fun_induction procmodkeyLoop (flag released) i mods with
  | case1 i mods hend =>
    obtain rfl | hge := hend
    · have hnone : (List.range' i (8 - i)).filter (0 : BitVec 8).getLsbD = [] :=
        List.filter_eq_nil_iff.mpr fun j _ => by simp
      rw [hnone]
      rfl
    · rw [Nat.sub_eq_zero_of_le hge]
      rfl
  | case2 i mods hgo hbit ih =>
    have hsucc : 8 - i = 8 - (i + 1) + 1 := by omega
    have hrest : (List.range' (i + 1) (8 - (i + 1))).filter (mods &&& ~~~(1#8 <<< i)).getLsbD =
        (List.range' (i + 1) (8 - (i + 1))).filter mods.getLsbD := by
      refine List.filter_congr fun j hj => ?_
      obtain ⟨hlo, hhi⟩ := List.mem_range'_1.mp hj
      have hne : ¬ j - i = 0 := by omega
      have hlt : j < 8 := by omega
      simp [hne, hlt]
    rw [ih, hrest, hsucc, List.range'_succ, List.filter_cons, if_pos hbit]
    rfl
  | case3 i mods hgo hbit ih =>
    have hsucc : 8 - i = 8 - (i + 1) + 1 := by omega
    rw [ih, hsucc, List.range'_succ, List.filter_cons, if_neg hbit]

theorem procmodkey_eq (mods : BitVec 8) (released : Bool) :
    procmodkey mods (flag released) = push (modEvents mods released) := by
  rw [procmodkey, procmodkeyLoop_eq, modEvents, List.range_eq_range']

-- ---------------------------------------------------------------------------
-- The loops
-- ---------------------------------------------------------------------------

/-- From slot `i` on the array holds the keys of the list, up to its end or to a zero. -/
def ListsFrom (keys : Nat → Nat) (i : Nat) : List Nat → Prop
  | [] => i = 6 ∨ i < 6 ∧ keys i = 0
  | key :: rest => i < 6 ∧ keys i = key ∧ key ≠ 0 ∧ ListsFrom keys (i + 1) rest

theorem ListsFrom.congr (h : ListsFrom keys i l) (heq : ∀ j ≥ i, keys' j = keys j) :
    ListsFrom keys' i l := by
  induction l generalizing i with
  | nil => exact h.imp_right fun h => ⟨h.1, (heq i (Nat.le_refl i)).trans h.2⟩
  | cons key rest ih =>
    obtain ⟨hi, hkey, hne, hrest⟩ := h
    exact ⟨hi, (heq i (Nat.le_refl i)).trans hkey, hne,
      ih hrest fun j hj => heq j (Nat.le_of_lt hj)⟩

theorem ListsFrom.last_iff (h : ListsFrom keys (i + 1) rest) :
    (i + 1 ≥ 6 ∨ keys (i + 1) = 0) ↔ rest = [] := by
  cases rest with
  | nil =>
    refine iff_of_true ?_ rfl
    obtain hend | ⟨-, hzero⟩ := h
    · exact Or.inl (Nat.le_of_eq hend.symm)
    · exact Or.inr hzero
  | cons key rest =>
    obtain ⟨hi, hkey, hne, -⟩ := h
    refine iff_of_false ?_ (List.cons_ne_nil _ _)
    rintro (hend | hzero)
    · exact absurd hi (Nat.not_lt.mpr hend)
    · exact hne (hkey.symm.trans hzero)

theorem ListsFrom.of_contents (hne : ∀ key ∈ contents keys n, key ≠ 0)
    (hend : n = 6 ∨ n < 6 ∧ keys n = 0) : ListsFrom keys 0 (contents keys n) := by
  have hfrom : ∀ m i, i + m = n → ListsFrom keys i ((List.range' i m).map keys) := by
    intro m
    induction m with
    | zero =>
      rintro i rfl
      exact hend
    | succ m ih =>
      intro i hi
      rw [List.range'_succ, List.map_cons]
      exact ⟨by omega, rfl, hne _ (mem_contents.mpr ⟨i, by omega, rfl⟩), ih (i + 1) (by omega)⟩
  rw [contents, List.range_eq_range']
  exact hfrom n 0 (Nat.zero_add n)

theorem findKey_some (h : findKey keys key j = some k) : k < 6 ∧ keys k = key := by
  fun_induction findKey keys key j with
  | case1 j hend => cases h
  | case2 j hgo hkey =>
    cases h
    exact ⟨Nat.lt_of_not_le hgo, hkey⟩
  | case3 j hgo hne ih => exact ih h

theorem findKey_none (h : findKey keys key j = none) (hj : j ≤ k) (hk : k < 6) : keys k ≠ key := by
  fun_induction findKey keys key j with
  | case1 j hend => omega
  | case2 j hgo hkey => cases h
  | case3 j hgo hne ih =>
    obtain rfl | hlt := Nat.eq_or_lt_of_le hj
    · exact hne
    · exact ih h hlt

/-- The slots of the report that do not hold a key of the list. -/
def erased (data : Nat → Nat) (l : List Nat) (j : Nat) : Nat := if data j ∈ l then 0 else data j

def DistinctKeys (data : Nat → Nat) : Prop :=
  ∀ i < 6, ∀ j < 6, data i ≠ 0 → data i = data j → i = j

theorem mem_update_zero (hkey : key ≠ data j) (hne : key ≠ 0) :
    key ∈ contents (Function.update data j 0) 6 ↔ key ∈ contents data 6 := by
  simp only [mem_contents]
  constructor
  · rintro ⟨i, hi, rfl⟩
    by_cases hij : i = j
    · rw [hij, Function.update_self] at hne
      exact absurd rfl hne
    · exact ⟨i, hi, (Function.update_of_ne hij _ _).symm⟩
  · rintro ⟨i, hi, rfl⟩
    have hij : i ≠ j := fun hij => hkey (congrArg data hij)
    exact ⟨i, hi, Function.update_of_ne hij _ _⟩

theorem DistinctKeys.update_zero (h : DistinctKeys data) :
    DistinctKeys (Function.update data j 0) := by
  intro i hi k hk hne heq
  have hij : i ≠ j := by
    rintro rfl
    exact hne (Function.update_self _ _ _)
  rw [Function.update_of_ne hij] at hne heq
  have hkj : k ≠ j := by
    rintro rfl
    rw [Function.update_self] at heq
    exact hne heq
  rw [Function.update_of_ne hkj] at heq
  exact h i hi k hk hne heq

/-- What the first loop did from slot `i` on, for the keys that were there. -/
structure Released (s : Scan) (l : List Nat) (s' : Scan) : Prop where
  kept : contents s'.old s'.addpos =
    contents s.old s.addpos ++ l.filter (· ∈ contents s.data 6)
  data : ∀ j < 6, s'.data j = erased s.data l j
  pushed : s'.pushed = s.pushed ++ push (keyEvents (l.filter (· ∉ contents s.data 6)) true)
  repeatcount : s'.repeatcount =
    if ∃ key ∈ l.getLast?, key ∉ contents s.data 6 then 0xff else s.repeatcount

theorem Released.nil (s : Scan) : Released s [] s where
  kept := (List.append_nil _).symm
  data j _ := (if_neg List.not_mem_nil).symm
  pushed := (List.append_nil _).symm
  repeatcount := by simp

theorem Released.cons_released {s : Scan} {c : Prop} [Decidable c] (hout : key ∉ contents s.data 6)
    (hlast : c ↔ rest = [])
    (h : Released { s with
      pushed := s.pushed ++ procscankey key releasebit
      repeatcount := if c then 0xff else s.repeatcount } rest s') :
    Released s (key :: rest) s' := by
  have hkept : (key :: rest).filter (· ∈ contents s.data 6) = rest.filter (· ∈ contents s.data 6) :=
    List.filter_cons_of_neg (by simpa using hout)
  have hgone : (key :: rest).filter (· ∉ contents s.data 6) =
      key :: rest.filter (· ∉ contents s.data 6) :=
    List.filter_cons_of_pos (by simpa using hout)
  have hpushed : procscankey key releasebit = push (keyEvents [key] true) := procscankey_eq key true
  refine ⟨?_, fun j hj => ?_, ?_, ?_⟩
  · rw [hkept]
    exact h.kept
  · have hne : s.data j ≠ key := fun heq => hout (mem_contents.mpr ⟨j, hj, heq⟩)
    have hsame : erased s.data (key :: rest) j = erased s.data rest j := by
      simp [erased, hne]
    rw [hsame]
    exact h.data j hj
  · rw [hgone, keyEvents_cons, push_append, ← hpushed, ← List.append_assoc]
    exact h.pushed
  · rw [h.repeatcount]
    cases rest with
    | nil => simp [hlast.mpr rfl, hout]
    | cons key' rest =>
      have hc : ¬ c := fun hc => List.cons_ne_nil _ _ (hlast.mp hc)
      rw [if_neg hc, List.getLast?_cons_cons]

theorem Released.cons_kept {s : Scan} (hdist : DistinctKeys s.data) (hj : j < 6)
    (hkey : s.data j ≠ 0) (hnew : s.data j ∉ rest) (hne : ∀ key ∈ rest, key ≠ 0)
    (h : Released { s with
      data := Function.update s.data j 0
      old := Function.update s.old s.addpos (s.data j)
      addpos := s.addpos + 1 } rest s') :
    Released s (s.data j :: rest) s' := by
  have hin : s.data j ∈ contents s.data 6 := mem_contents.mpr ⟨j, hj, rfl⟩
  have hmem : ∀ key ∈ rest, (key ∈ contents (Function.update s.data j 0) 6 ↔
      key ∈ contents s.data 6) :=
    fun key hmem => mem_update_zero (fun heq => hnew (heq ▸ hmem)) (hne key hmem)
  have hkept : rest.filter (· ∈ contents (Function.update s.data j 0) 6) =
      rest.filter (· ∈ contents s.data 6) :=
    List.filter_congr fun key h => decide_eq_decide.mpr (hmem key h)
  have hgone : rest.filter (· ∉ contents (Function.update s.data j 0) 6) =
      rest.filter (· ∉ contents s.data 6) :=
    List.filter_congr fun key h => decide_eq_decide.mpr (not_congr (hmem key h))
  refine ⟨?_, fun k hk => ?_, ?_, ?_⟩
  · have hcons : (s.data j :: rest).filter (· ∈ contents s.data 6) =
        [s.data j] ++ rest.filter (· ∈ contents s.data 6) :=
      List.filter_cons_of_pos (by simpa using hin)
    rw [hcons, ← hkept, ← List.append_assoc, ← contents_push]
    exact h.kept
  · rw [h.data k hk]
    by_cases hkj : k = j
    · subst hkj
      simp [erased]
    · have hdata : s.data k ≠ s.data j := fun heq => hkj (hdist j hj k hk hkey heq.symm).symm
      simp [erased, Function.update_of_ne hkj, hdata]
  · have hcons : (s.data j :: rest).filter (· ∉ contents s.data 6) =
        rest.filter (· ∉ contents s.data 6) :=
      List.filter_cons_of_neg (by simpa using hin)
    rw [hcons, ← hgone]
    exact h.pushed
  · rw [h.repeatcount]
    cases rest with
    | nil => simp [hin]
    | cons key' rest =>
      rw [List.getLast?_cons_cons]
      refine if_congr (exists_congr fun key => and_congr_right fun hlast => ?_) rfl rfl
      exact not_congr (hmem key (List.mem_of_mem_getLast? hlast))

theorem ListsFrom.ne_zero (h : ListsFrom keys i l) : ∀ key ∈ l, key ≠ 0 := by
  induction l generalizing i with
  | nil => exact fun _ hmem => absurd hmem List.not_mem_nil
  | cons key rest ih => exact List.forall_mem_cons.mpr ⟨h.2.2.1, ih h.2.2.2⟩

theorem ListsFrom.eq_nil (h : ListsFrom keys i l) (hend : i ≥ 6 ∨ keys i = 0) : l = [] := by
  cases l with
  | nil => rfl
  | cons key rest =>
    obtain ⟨hi, hkey, hne, -⟩ := h
    obtain hend | hzero := hend
    · exact absurd hi (Nat.not_lt.mpr hend)
    · exact absurd (hkey.symm.trans hzero) hne

theorem ListsFrom.eq_cons (h : ListsFrom keys i l) (hi : i < 6) (hne : keys i ≠ 0) :
    ∃ rest, l = keys i :: rest ∧ ListsFrom keys (i + 1) rest := by
  cases l with
  | nil =>
    obtain hend | ⟨-, hzero⟩ := h
    · exact absurd hend (Nat.ne_of_lt hi)
    · exact absurd hzero hne
  | cons key rest =>
    obtain ⟨-, rfl, -, hrest⟩ := h
    exact ⟨rest, rfl, hrest⟩

theorem releaseLoop_spec (i : Nat) (s : Scan) : ∀ l, ListsFrom s.old i l → l.Nodup →
    s.addpos ≤ i → DistinctKeys s.data → Released s l (releaseLoop i s) := by
  fun_induction releaseLoop i s with
  | case1 i s hend =>
    intro l hlist hnodup hpos hdist
    obtain rfl := hlist.eq_nil (Or.inl hend)
    exact .nil s
  | case2 i s hgo key hzero =>
    intro l hlist hnodup hpos hdist
    obtain rfl := hlist.eq_nil (Or.inr hzero)
    exact .nil s
  | case3 i s hgo key hne hnone ih =>
    intro l hlist hnodup hpos hdist
    obtain ⟨rest, rfl, hrest⟩ := hlist.eq_cons (Nat.lt_of_not_le hgo) hne
    have hout : s.old i ∉ contents s.data 6 := by
      intro hmem
      obtain ⟨j, hj, heq⟩ := mem_contents.mp hmem
      exact findKey_none hnone (Nat.zero_le j) hj heq
    exact .cons_released hout hrest.last_iff
      (ih rest hrest (List.nodup_cons.mp hnodup).2 (Nat.le_succ_of_le hpos) hdist)
  | case4 i s hgo key hne j hsome ih =>
    intro l hlist hnodup hpos hdist
    obtain ⟨rest, rfl, hrest⟩ := hlist.eq_cons (Nat.lt_of_not_le hgo) hne
    obtain ⟨hj, hdata⟩ := findKey_some hsome
    obtain ⟨hnew, hnodup⟩ := List.nodup_cons.mp hnodup
    -- the write is below the slots that are still to be read
    have hrest' : ListsFrom (Function.update s.old s.addpos key) (i + 1) rest :=
      hrest.congr fun k hk => Function.update_of_ne (by omega) _ _
    have hstep := ih rest hrest' hnodup (Nat.succ_le_succ hpos) hdist.update_zero
    have hkey : s.old i = s.data j := hdata.symm
    rw [hkey] at hnew ⊢
    exact .cons_kept hdist hj (hdata.trans_ne hne) hnew hrest.ne_zero (hdata ▸ hstep)

/-- The keys in the slots from `i` on. -/
def keysFrom (data : Nat → Nat) (i : Nat) : List Nat :=
  ((List.range' i (6 - i)).map data).filter (· ≠ 0)

theorem keysFrom_succ (hi : i < 6) :
    keysFrom data i = if data i = 0 then keysFrom data (i + 1) else data i :: keysFrom data (i + 1) := by
  have hsucc : 6 - i = 6 - (i + 1) + 1 := by omega
  rw [keysFrom, hsucc, List.range'_succ, List.map_cons, List.filter_cons]
  by_cases hzero : data i = 0
  · simp [hzero, keysFrom]
  · simp [hzero, keysFrom]

/-- What the second loop did from slot `i` on, for the keys that were left there. -/
structure Appended (s : Scan) (l : List Nat) (s' : Scan) : Prop where
  kept : contents s'.old s'.addpos = contents s.old s.addpos ++ l
  pushed : s'.pushed = s.pushed ++ push (keyEvents l false)
  repeatcount : s'.repeatcount = if l = [] then s.repeatcount else keyrepeatwaitms / keyrepeatms + 1

theorem newLoop_spec (i : Nat) (s : Scan) : Appended s (keysFrom s.data i) (newLoop i s) := by
  fun_induction newLoop i s with
  | case1 i s hend =>
    have hnone : keysFrom s.data i = [] := by
      rw [keysFrom, Nat.sub_eq_zero_of_le hend]
      rfl
    rw [hnone]
    exact ⟨(List.append_nil _).symm, (List.append_nil _).symm, rfl⟩
  | case2 i s hgo key hzero ih =>
    rw [keysFrom_succ (Nat.lt_of_not_le hgo), if_pos hzero]
    exact ih
  | case3 i s hgo key hne ih =>
    have hpushed : procscankey key 0 = push (keyEvents [key] false) := procscankey_eq key false
    rw [keysFrom_succ (Nat.lt_of_not_le hgo), if_neg hne]
    refine ⟨?_, ?_, ?_⟩
    · rw [ih.kept, contents_push, List.append_assoc]
      rfl
    · rw [ih.pushed, hpushed, @keyEvents_cons (s.data i) (keysFrom s.data (i + 1)), push_append,
        List.append_assoc]
    · rw [ih.repeatcount, if_neg (List.cons_ne_nil _ _), ite_self]

-- ---------------------------------------------------------------------------
-- One report
-- ---------------------------------------------------------------------------

/-- The keys of a report, in the order of their slots. -/
def Keyevent.pressed (data : Keyevent) : List Nat := keysFrom data.keys 0

theorem mem_keysFrom : key ∈ keysFrom data 0 ↔ key ∈ contents data 6 ∧ key ≠ 0 := by
  rw [keysFrom, contents, List.range_eq_range', List.mem_filter, decide_eq_true_eq]

theorem keysFrom_nodup (h : DistinctKeys data) : (keysFrom data 0).Nodup := by
  unfold keysFrom
  rw [← List.range_eq_range', List.filter_map]
  refine List.Nodup.map_on (fun i hi j hj heq => ?_) (List.nodup_range.filter _)
  obtain ⟨hi, hne⟩ := List.mem_filter.mp hi
  exact h i (List.mem_range.mp hi) j (List.mem_range.mp (List.mem_filter.mp hj).1)
    (by simpa using hne) heq

/-- What is left of a report whose slots of old keys are zeroed. -/
theorem keysFrom_erased (hzero : ∀ j < 6, data' j = erased data l j) :
    keysFrom data' 0 = (keysFrom data 0).filter (· ∉ l) := by
  have hmap : (List.range' 0 (6 - 0)).map data' =
      ((List.range' 0 (6 - 0)).map data).map fun key => if key ∈ l then 0 else key := by
    rw [List.map_map]
    exact List.map_congr_left fun j hj => hzero j (by simpa using (List.mem_range'_1.mp hj).2)
  rw [keysFrom, hmap, keysFrom]
  generalize (List.range' 0 (6 - 0)).map data = keys
  induction keys with
  | nil => rfl
  | cons key keys ih =>
    rw [List.map_cons, List.filter_cons, ih, List.filter_cons]
    by_cases hmem : key ∈ l
    · by_cases hkey : key = 0
      · simp [hkey]
      · simp [hmem, hkey]
    · by_cases hkey : key = 0
      · simp [hkey]
      · simp [hmem, hkey]

/-- The old keys that are still down, then the new ones. -/
def Keyevent.held (data : Keyevent) (l : List Nat) : List Nat :=
  l.filter (· ∈ data.pressed) ++ data.pressed.filter (· ∉ l)

/-- The repeat counter when the keys are compared. -/
def Keyevent.counter (data : Keyevent) (l : List Nat) (repeatcount : Nat) : Nat :=
  if data.pressed.filter (· ∉ l) ≠ [] then keyrepeatwaitms / keyrepeatms + 1
  else if ∃ key ∈ l.getLast?, key ∉ data.pressed then 0xff
  else repeatcount

def Keyevent.repeated (data : Keyevent) (l : List Nat) (repeatcount : Nat) : List Nat :=
  if data.counter l repeatcount = 0 then (data.held l).getLast?.toList else []

def Keyevent.events (data : Keyevent) (last : Usbkeyinfo) (l : List Nat) : List (Nat × Bool) :=
  keyEvents (l.filter (· ∉ data.pressed)) true ++
  modEvents (last.modifiers &&& ~~~data.modifiers) true ++
  modEvents (data.modifiers &&& ~~~last.modifiers) false ++
  keyEvents (data.pressed.filter (· ∉ l)) false ++
  keyEvents (data.repeated l last.repeatcount) false

/-- What one report does when the last one listed the keys `l`. -/
structure Handled (last : Usbkeyinfo) (data : Keyevent) (l : List Nat) (r : Usbkeyinfo × List Nat) :
    Prop where
  modifiers : r.1.modifiers = data.modifiers
  keys : ListsFrom r.1.keys 0 (data.held l)
  repeatcount : r.1.repeatcount =
    if data.held l ≠ [] ∧ data.counter l last.repeatcount ≠ 0xff then
      data.counter l last.repeatcount - 1
    else data.counter l last.repeatcount
  pushed : r.2 = push (data.events last l)

theorem Keyevent.mem_held (data : Keyevent) (l : List Nat) :
    key ∈ data.held l ↔ key ∈ data.pressed := by
  simp only [held, List.mem_append, List.mem_filter, decide_eq_true_eq]
  by_cases hmem : key ∈ l
  · simp [hmem]
  · simp [hmem]

theorem Keyevent.held_nodup {data : Keyevent} (hdist : DistinctKeys data.keys) (hnodup : l.Nodup) :
    (data.held l).Nodup := by
  refine (hnodup.filter _).append ((keysFrom_nodup hdist).filter _) fun key hl hr => ?_
  have hin := (List.mem_filter.mp hl).1
  have hout := (List.mem_filter.mp hr).2
  simp [hin] at hout

theorem Keyevent.length_held_le {data : Keyevent} (hdist : DistinctKeys data.keys)
    (hnodup : l.Nodup) : (data.held l).length ≤ 6 := by
  have hsub : (data.held l).Subperm data.pressed :=
    (held_nodup hdist hnodup).subperm fun key hmem => (data.mem_held l).mp hmem
  calc (data.held l).length ≤ data.pressed.length := hsub.length_le
    _ ≤ ((List.range' 0 (6 - 0)).map data.keys).length := List.length_filter_le _ _
    _ = 6 := by rw [List.length_map, List.length_range']

theorem Keyevent.mem_pressed {data : Keyevent} {l : List Nat} (h : ∀ key ∈ l, key ≠ 0)
    (hmem : key ∈ l) : key ∈ contents data.keys 6 ↔ key ∈ data.pressed := by
  rw [pressed, mem_keysFrom]
  exact (and_iff_left (h key hmem)).symm

/-- Both loops and the modifiers between them. -/
structure Compared (last : Usbkeyinfo) (data : Keyevent) (l : List Nat) (s : Scan) : Prop where
  kept : contents s.old s.addpos = data.held l
  pushed : s.pushed = push (keyEvents (l.filter (· ∉ data.pressed)) true ++
    modEvents (last.modifiers &&& ~~~data.modifiers) true ++
    modEvents (data.modifiers &&& ~~~last.modifiers) false ++
    keyEvents (data.pressed.filter (· ∉ l)) false)
  repeatcount : s.repeatcount = data.counter l last.repeatcount

theorem Compared.of_loops {last : Usbkeyinfo} {data : Keyevent} {s : Scan}
    (hne : ∀ key ∈ l, key ≠ 0)
    (hreleased : Released ⟨last.keys, data.keys, 0, last.repeatcount, []⟩ l s)
    (happended : Appended { s with
      pushed := s.pushed ++ procmodkey (last.modifiers &&& ~~~data.modifiers) releasebit ++
        procmodkey (data.modifiers &&& ~~~last.modifiers) 0 } (keysFrom s.data 0) s') :
    Compared last data l s' := by
  have hkept : l.filter (· ∈ contents data.keys 6) = l.filter (· ∈ data.pressed) :=
    List.filter_congr fun key h => decide_eq_decide.mpr (Keyevent.mem_pressed hne h)
  have hgone : l.filter (· ∉ contents data.keys 6) = l.filter (· ∉ data.pressed) :=
    List.filter_congr fun key h => decide_eq_decide.mpr (not_congr (Keyevent.mem_pressed hne h))
  have hlast : (∃ key ∈ l.getLast?, key ∉ contents data.keys 6) ↔
      ∃ key ∈ l.getLast?, key ∉ data.pressed :=
    exists_congr fun key => and_congr_right fun h =>
      not_congr (Keyevent.mem_pressed hne (List.mem_of_mem_getLast? h))
  have hnew : keysFrom s.data 0 = data.pressed.filter (· ∉ l) := keysFrom_erased hreleased.data
  have hup : procmodkey (last.modifiers &&& ~~~data.modifiers) releasebit =
      push (modEvents (last.modifiers &&& ~~~data.modifiers) true) := procmodkey_eq _ true
  have hdown : procmodkey (data.modifiers &&& ~~~last.modifiers) 0 =
      push (modEvents (data.modifiers &&& ~~~last.modifiers) false) := procmodkey_eq _ false
  rw [hnew] at happended
  refine ⟨?_, ?_, ?_⟩
  · rw [happended.kept, hreleased.kept, hkept]
    rfl
  · rw [happended.pushed, hreleased.pushed, hgone, hup, hdown]
    simp only [push_append, List.nil_append]
  · rw [happended.repeatcount, hreleased.repeatcount, Keyevent.counter]
    by_cases hnone : data.pressed.filter (· ∉ l) = []
    · rw [if_pos hnone, if_neg (not_not.mpr hnone)]
      exact if_congr hlast rfl rfl
    · rw [if_neg hnone, if_pos hnone]

theorem getLast?_contents (h : n ≠ 0) : (contents keys n).getLast? = some (keys (n - 1)) := by
  obtain ⟨m, rfl⟩ := Nat.exists_eq_succ_of_ne_zero h
  rw [Nat.succ_eq_add_one, contents_succ, List.getLast?_append_cons]
  rfl

theorem contents_terminated :
    contents (if n < 6 then Function.update old n 0 else old) n = contents old n := by
  split
  · exact contents_congr fun i hi => Function.update_of_ne (Nat.ne_of_lt hi) _ _
  · rfl

theorem ListsFrom.terminated (hne : ∀ key ∈ contents old n, key ≠ 0) (hle : n ≤ 6) :
    ListsFrom (if n < 6 then Function.update old n 0 else old) 0 (contents old n) := by
  rw [← @contents_terminated n old] at hne ⊢
  refine ListsFrom.of_contents hne ?_
  obtain rfl | hlt := Nat.eq_or_lt_of_le hle
  · exact Or.inl rfl
  · exact Or.inr ⟨hlt, by rw [if_pos hlt, Function.update_self]⟩

theorem Compared.handled {last : Usbkeyinfo} {data : Keyevent} {s : Scan}
    (h : Compared last data l s) (hle : (data.held l).length ≤ 6)
    (hne : ∀ key ∈ data.held l, key ≠ 0) (hkeys : keys = if s.addpos < 6 then
      Function.update s.old s.addpos 0 else s.old)
    (hr : r = if s.addpos ≠ 0 then
        if s.repeatcount = 0 then (s.repeatcount, procscankey (keys (s.addpos - 1)) 0)
        else if s.repeatcount ≠ 0xff then (s.repeatcount - 1, [])
        else (s.repeatcount, [])
      else (s.repeatcount, [])) :
    Handled last data l (⟨data.modifiers, r.1, keys⟩, s.pushed ++ r.2) := by
  have hheld := h.kept
  have hlen : s.addpos = (data.held l).length := by
    rw [← hheld, length_contents]
  have hempty : s.addpos = 0 ↔ data.held l = [] := by
    rw [hlen, List.length_eq_zero_iff]
  have hsome : s.addpos ≠ 0 ↔ data.held l ≠ [] := not_congr hempty
  have hlast : s.addpos ≠ 0 → (data.held l).getLast? = some (keys (s.addpos - 1)) := by
    intro hpos
    rw [hkeys, ← hheld, ← @contents_terminated s.addpos s.old]
    exact getLast?_contents hpos
  have hevents : data.events last l = keyEvents (l.filter (· ∉ data.pressed)) true ++
      modEvents (last.modifiers &&& ~~~data.modifiers) true ++
      modEvents (data.modifiers &&& ~~~last.modifiers) false ++
      keyEvents (data.pressed.filter (· ∉ l)) false ++
      keyEvents (data.repeated l last.repeatcount) false := rfl
  refine ⟨rfl, ?_, ?_, ?_⟩
  · rw [hkeys, ← hheld]
    exact ListsFrom.terminated (hheld.symm ▸ hne) (hlen.symm ▸ hle)
  · rw [hr, ← h.repeatcount]
    by_cases hpos : s.addpos = 0
    · simp [hpos, hempty.mp hpos]
    · have hheld := hsome.mp hpos
      by_cases hzero : s.repeatcount = 0
      · simp [hpos, hzero]
      · by_cases hoff : s.repeatcount = 0xff
        · simp [hpos, hoff]
        · simp [hpos, hheld, hzero, hoff]
  · have hrest : r.2 = push (keyEvents (data.repeated l last.repeatcount) false) → s.pushed ++ r.2 =
        push (data.events last l) := by
      intro heq
      rw [hevents, push_append, ← h.pushed, heq]
    refine hrest ?_
    rw [Keyevent.repeated, ← h.repeatcount]
    by_cases hpos : s.addpos = 0
    · simp [hr, hpos, hempty.mp hpos, keyEvents, push]
    · by_cases hzero : s.repeatcount = 0
      · rw [if_pos hzero, hlast hpos]
        have hkey : procscankey (keys (s.addpos - 1)) 0 =
            push (keyEvents [keys (s.addpos - 1)] false) := procscankey_eq _ false
        simp only [hr, hpos, hzero, ne_eq, not_false_eq_true, if_true]
        exact hkey
      · simp [hr, hpos, hzero, keyEvents, push]
        split <;> rfl

theorem handleKey_spec {last : Usbkeyinfo} {data : Keyevent} (hlist : ListsFrom last.keys 0 l)
    (hnodup : l.Nodup) (hdist : DistinctKeys data.keys) :
    Handled last data l (handleKey last data) := by
  have hreleased := releaseLoop_spec 0 ⟨last.keys, data.keys, 0, last.repeatcount, []⟩ l hlist hnodup
    (Nat.le_refl 0) hdist
  have hne : ∀ key ∈ data.held l, key ≠ 0 := by
    intro key hmem
    exact (mem_keysFrom.mp ((data.mem_held l).mp hmem)).2
  unfold handleKey
  generalize releaseLoop 0 ⟨last.keys, data.keys, 0, last.repeatcount, []⟩ = s at hreleased
  have hcompared := Compared.of_loops hlist.ne_zero hreleased (newLoop_spec 0 _)
  simp only
  generalize newLoop 0 _ = s' at hcompared
  exact hcompared.handled (Keyevent.length_held_le hdist hnodup) hne rfl rfl

end ItxLlama.Seabios.UsbHid
