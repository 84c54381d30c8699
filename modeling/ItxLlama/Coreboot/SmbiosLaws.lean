import ItxLlama.Coreboot.Smbios

/-!
# What a structure is written as

The formatted area, each string field with the number of its string, and then the
different nonempty strings in the order in which they came.
-/

namespace ItxLlama.Coreboot.Smbios

open Lib.Word Lib.Bytes Lib.StringSet

-- ---------------------------------------------------------------------------
-- Strings
-- ---------------------------------------------------------------------------

/-- The bytes from `eos` on: a set of strings, and a byte that an empty string may leave. -/
def Area (ss : List (List Byte)) (eos : List Byte) : Prop :=
  ∃ junk, eos = terminated ss ++ 0 :: junk ∧ junk.length ≤ 1

theorem addStringFrom_spec {str junk : List Byte} {ss : List (List Byte)} (h : Strings ss)
    (hjunk : junk.length ≤ 1) (hfuel : ss.length < fuel) (i : Nat) :
    Area (add ss str) (addStringFrom str fuel (terminated ss ++ 0 :: junk) i).1 ∧
      (addStringFrom str fuel (terminated ss ++ 0 :: junk) i).2 + 1 = i + position ss str := by
  induction ss generalizing fuel i with
  | nil =>
    obtain ⟨fuel, rfl⟩ := Nat.exists_eq_succ_of_ne_zero (Nat.ne_of_gt hfuel)
    have hend : (terminated ([] : List (List Byte)) ++ 0 :: junk).takeWhile (· ≠ 0) = [] :=
      firstString_zero junk
    rw [addStringFrom, hend]
    refine ⟨?_, rfl⟩
    have hdrop : (terminated ([] : List (List Byte)) ++ 0 :: junk).drop (str.length + 2) = [] := by
      refine List.drop_eq_nil_of_le ?_
      show junk.length + 1 ≤ str.length + 2
      omega
    show Area (add [] str) (str ++ [0, 0] ++ _)
    rw [hdrop, List.append_nil]
    by_cases hempty : str = []
    · subst hempty
      exact ⟨[0], rfl, Nat.le_refl _⟩
    · refine ⟨[], ?_, Nat.zero_le _⟩
      rw [add, if_neg (not_or.mpr ⟨hempty, List.not_mem_nil⟩), List.nil_append, terminated,
        List.flatMap_singleton,
        List.append_assoc]
      rfl
  | cons s ss ih =>
    obtain ⟨fuel, rfl⟩ :=
      Nat.exists_eq_succ_of_ne_zero (Nat.ne_of_gt (Nat.lt_of_le_of_lt (Nat.zero_le _) hfuel))
    have hfirst : (terminated (s :: ss) ++ 0 :: junk).takeWhile (· ≠ 0) = s := by
      rw [terminated_cons]
      exact firstString_append (h.noZero s List.mem_cons_self) _
    have hrest : (terminated (s :: ss) ++ 0 :: junk).drop (s.length + 1) =
        terminated ss ++ 0 :: junk := by
      rw [terminated_cons, drop_string]
    rw [addStringFrom, hfirst]
    simp only
    rw [if_neg (h.nonempty s List.mem_cons_self)]
    by_cases heq : s = str
    · subst heq
      rw [if_pos rfl, add, if_pos (Or.inr List.mem_cons_self), position, if_pos List.mem_cons_self,
        List.idxOf_cons_self]
      exact ⟨⟨junk, rfl, hjunk⟩, rfl⟩
    · rw [if_neg heq, hrest, add_cons_ne heq, position_cons_ne heq]
      obtain ⟨⟨junk', harea, hjunk'⟩, hi⟩ := ih h.tail (Nat.lt_of_succ_lt_succ hfuel) (i + 1)
      refine ⟨⟨junk', ?_, hjunk'⟩, ?_⟩
      · show s ++ [0] ++ _ = _
        rw [harea, terminated_cons, List.append_assoc]
        rfl
      · show _ + 1 = i + (position ss str + 1)
        omega

theorem addString_spec {str eos : List Byte} {ss : List (List Byte)} (h : Strings ss)
    (harea : Area ss eos) :
    Area (add ss str) (addString eos str).1 ∧ (addString eos str).2 = position ss str := by
  obtain ⟨junk, rfl, hjunk⟩ := harea
  have hfuel : ss.length < (terminated ss ++ 0 :: junk).length := by
    have hlen := length_terminated_ge ss
    rw [List.length_append, List.length_cons]
    omega
  obtain ⟨hadd, hi⟩ := @addStringFrom_spec _ str junk ss h hjunk hfuel 1
  exact ⟨hadd, by unfold addString; omega⟩

theorem stringTableLenFrom_spec {junk : List Byte} {ss : List (List Byte)} (h : Strings ss)
    (hfuel : ss.length < fuel) :
    stringTableLenFrom fuel (terminated ss ++ 0 :: junk) = (terminated ss).length := by
  induction ss generalizing fuel with
  | nil =>
    obtain ⟨fuel, rfl⟩ := Nat.exists_eq_succ_of_ne_zero (Nat.ne_of_gt hfuel)
    rw [stringTableLenFrom]
    exact if_pos (firstString_zero junk)
  | cons s ss ih =>
    obtain ⟨fuel, rfl⟩ :=
      Nat.exists_eq_succ_of_ne_zero (Nat.ne_of_gt (Nat.lt_of_le_of_lt (Nat.zero_le _) hfuel))
    have hfirst : (terminated (s :: ss) ++ 0 :: junk).takeWhile (· ≠ 0) = s := by
      rw [terminated_cons]
      exact firstString_append (h.noZero s List.mem_cons_self) _
    have hlen : (terminated (s :: ss)).length = s.length + 1 + (terminated ss).length := by
      rw [terminated, List.flatMap_cons, List.length_append, List.length_append]
      rfl
    rw [stringTableLenFrom, hfirst, if_neg (h.nonempty s List.mem_cons_self), terminated_cons,
      drop_string,
      ih h.tail (Nat.lt_of_succ_lt_succ hfuel), hlen]

theorem take_stringTableLen {eos : List Byte} {ss : List (List Byte)} (h : Strings ss)
    (harea : Area ss eos) :
    eos.take (stringTableLen eos) = terminated ss ++ [0] := by
  obtain ⟨junk, rfl, -⟩ := harea
  have hfuel : ss.length < (terminated ss ++ 0 :: junk).length := by
    have hlen := length_terminated_ge ss
    rw [List.length_append, List.length_cons]
    omega
  rw [stringTableLen, stringTableLenFrom_spec h hfuel, List.append_cons]
  exact List.take_left' (by rw [List.length_append]; rfl)

-- ---------------------------------------------------------------------------
-- Structures
-- ---------------------------------------------------------------------------

/-- The string fields, and the strings they are given. -/
def Structure.fieldStrings (s : Structure) : List (Nat × CString) :=
  match s.strings with
  | .fields fs => fs
  | _ => []

def Structure.given (s : Structure) : List (List Byte) :=
  match s.strings with
  | .plain => []
  | .fields fs => fs.map fun f => f.2.1
  | .oem ss => ss.map Subtype.val

/-- The string set behind the formatted area. -/
def Structure.set (s : Structure) : List (List Byte) := collect s.given

def Structure.isPlain (s : Structure) : Prop := s.strings = .plain

def Structure.tail (s : Structure) : List Byte :=
  match s.strings with
  | .plain => [0, 0]
  | _ => terminated s.set ++ [0]

theorem given_noZero (s : Structure) : ∀ str ∈ s.given, (0 : Byte) ∉ str := by
  intro str hstr
  unfold Structure.given at hstr
  split at hstr
  · exact nomatch hstr
  · obtain ⟨f, -, rfl⟩ := List.mem_map.mp hstr
    exact f.2.2
  · obtain ⟨str', -, rfl⟩ := List.mem_map.mp hstr
    exact str'.2

theorem strings_set (s : Structure) : Strings s.set := strings_collect (given_noZero s)

/-- The field holds the number of its string. -/
def Numbered (ss : List (List Byte)) (body : List Byte) (f : Nat × CString) : Prop :=
  ∃ k, 0 < k ∧ k < 256 ∧ body[f.1]? = some (BitVec.ofNat 8 k) ∧
    (f.2.1 ≠ [] → ss[k - 1]? = some f.2.1)

theorem Numbered.mono (h : Numbered ss body f) (hpre : ss <+: ss')
    (hbody : body'[f.1]? = body[f.1]?) :
    Numbered ss' body' f := by
  obtain ⟨k, hpos, hlt, hfield, hstr⟩ := h
  obtain ⟨more, rfl⟩ := hpre
  refine ⟨k, hpos, hlt, hbody.trans hfield, fun hne => ?_⟩
  have hold := hstr hne
  obtain ⟨hin, -⟩ := List.getElem?_eq_some_iff.mp hold
  rw [List.getElem?_append_left hin]
  exact hold

theorem foldl_addField (fs : List (Nat × CString)) {body : List Byte}
    (hnodup : (fs.map Prod.fst).Nodup)
    (hin : ∀ f ∈ fs, f.1 < body.length) (hlen : fs.length < 255) :
    Area (collect (fs.map fun f => f.2.1)) (fs.foldl addField (body, [0, 0])).2 ∧
      (fs.foldl addField (body, [0, 0])).1.length = body.length ∧
      ∀ f ∈ fs, Numbered (collect (fs.map fun f => f.2.1)) (fs.foldl addField (body, [0, 0])).1 f := by
  induction fs using List.reverseRecOn with
  | nil => exact ⟨⟨[0], rfl, Nat.le_refl _⟩, rfl, fun f hf => nomatch hf⟩
  | append_singleton fs f ih =>
    rw [List.map_append, List.map_singleton, List.nodup_append] at hnodup
    rw [List.length_append, List.length_singleton] at hlen
    obtain ⟨harea, hbody, hfields⟩ :=
      ih hnodup.1 (fun f' hf' => hin f' (List.mem_append_left _ hf')) (Nat.lt_of_succ_lt hlen)
    have hset : Strings (collect (fs.map fun f => f.2.1)) :=
      strings_collect fun str hstr => by
        obtain ⟨f', -, rfl⟩ := List.mem_map.mp hstr
        exact f'.2.2
    obtain ⟨hadd, hindex⟩ := @addString_spec f.2.1 _ _ hset harea
    rw [List.map_append, List.map_singleton, collect_concat, List.foldl_append]
    refine ⟨hadd, by rw [← hbody]; exact List.length_set, fun f' hf' => ?_⟩
    show Numbered _ ((fs.foldl addField (body, [0, 0])).1.set f.1
      (BitVec.ofNat 8 (addString (fs.foldl addField (body, [0, 0])).2 f.2.1).2)) f'
    rw [hindex]
    obtain hold | hnew := List.mem_append.mp hf'
    · refine (hfields f' hold).mono (prefix_add _ _) (List.getElem?_set_ne ?_)
      exact fun heq => hnodup.2.2 f'.1 (List.mem_map_of_mem hold) f.1 (List.mem_singleton_self _) heq.symm
    · obtain rfl := List.mem_singleton.mp hnew
      have hle := position_le (collect (fs.map fun f => f.2.1)) f'.2.1
      have hcount := length_collect_le (fs.map fun f => f.2.1)
      rw [List.length_map] at hcount
      refine ⟨_, position_pos _ _, by omega, ?_, fun hne => getElem?_position hne _⟩
      rw [List.getElem?_set_self (by rw [hbody]; exact hin f' hf')]

theorem foldl_addOem (strs : List CString) (body : List Byte) :
    Area (collect (strs.map Subtype.val)) (strs.foldl addOem (body, [0, 0])).2 ∧
      (strs.foldl addOem (body, [0, 0])).1.length = body.length := by
  induction strs using List.reverseRecOn with
  | nil => exact ⟨⟨[0], rfl, Nat.le_refl _⟩, rfl⟩
  | append_singleton strs str ih =>
    obtain ⟨harea, hbody⟩ := ih
    have hset : Strings (collect (strs.map Subtype.val)) :=
      strings_collect fun s hs => by
        obtain ⟨s', -, rfl⟩ := List.mem_map.mp hs
        exact s'.2
    rw [List.map_append, List.map_singleton, collect_concat, List.foldl_append]
    exact ⟨(@addString_spec str.1 _ _ hset harea).1, by rw [← hbody]; exact List.length_set⟩

theorem foldl_addOem_count (strs : List CString) (str : CString) (b : Byte) :
    ((strs ++ [str]).foldl addOem ([b], [0, 0])).1 =
      [BitVec.ofNat 8 (position (collect (strs.map Subtype.val)) str.1)] := by
  obtain ⟨harea, hbody⟩ := foldl_addOem strs [b]
  have hset : Strings (collect (strs.map Subtype.val)) :=
    strings_collect fun s hs => by
      obtain ⟨s', -, rfl⟩ := List.mem_map.mp hs
      exact s'.2
  obtain ⟨-, hindex⟩ := @addString_spec str.1 _ _ hset harea
  rw [List.foldl_append]
  show (strs.foldl addOem ([b], [0, 0])).1.set 0
    (BitVec.ofNat 8 (addString (strs.foldl addOem ([b], [0, 0])).2 str.1).2) = _
  rw [hindex]
  obtain ⟨b', hb'⟩ := List.length_eq_one_iff.mp hbody
  rw [hb']
  rfl

/-- What a structure is written as. -/
structure Wrote (s : Structure) (handle : Nat) (body : List Byte) : Prop where
  write : s.write handle = s.header handle ++ body ++ s.tail
  length : body.length = s.body.length
  fields : ∀ f ∈ s.fieldStrings, Numbered s.set body f
  oem : ∀ strs, s.strings = .oem strs → ∀ init last, strs = init ++ [last] →
    body = [BitVec.ofNat 8 (position (collect (init.map Subtype.val)) last.1)]

theorem Structure.wrote (s : Structure) (handle : Nat) : ∃ body, Wrote s handle body := by
  cases hs : s.strings with
  | plain =>
    refine ⟨s.body, ?_, rfl, fun f hf => ?_, fun strs hstrs => ?_⟩
    · simp only [Structure.write, Structure.tail, hs]
    · rw [Structure.fieldStrings, hs] at hf
      exact absurd hf List.not_mem_nil
    · rw [hs] at hstrs
      cases hstrs
  | fields fs =>
    obtain ⟨-, hcount, hnodup, hin⟩ := s.fields fs hs
    obtain ⟨harea, hbody, hfields⟩ := foldl_addField fs hnodup hin hcount
    have hset : s.set = collect (fs.map fun f => f.2.1) := by
      rw [Structure.set, Structure.given, hs]
    rw [← hset] at harea hfields
    refine ⟨(fs.foldl addField (s.body, [0, 0])).1, ?_, hbody, fun f hf => ?_, fun strs hstrs => ?_⟩
    · simp only [Structure.write, Structure.tail, hs]
      rw [take_stringTableLen (strings_set s) harea]
    · rw [Structure.fieldStrings, hs] at hf
      exact hfields f hf
    · rw [hs] at hstrs
      cases hstrs
  | oem strs =>
    obtain ⟨harea, hbody⟩ := foldl_addOem strs s.body
    have hset : s.set = collect (strs.map Subtype.val) := by
      rw [Structure.set, Structure.given, hs]
    rw [← hset] at harea
    refine ⟨(strs.foldl addOem (s.body, [0, 0])).1, ?_, hbody, fun f hf => ?_,
      fun strs' hstrs' init last hsplit => ?_⟩
    · simp only [Structure.write, Structure.tail, hs]
      rw [take_stringTableLen (strings_set s) harea]
    · rw [Structure.fieldStrings, hs] at hf
      exact absurd hf List.not_mem_nil
    · obtain rfl : strs = strs' := by
        rw [hs] at hstrs'
        exact StringPart.oem.inj hstrs'
      obtain ⟨b, hb⟩ := List.length_eq_one_iff.mp (s.oem strs hs)
      rw [hb, hsplit]
      exact foldl_addOem_count init last b

end ItxLlama.Coreboot.Smbios
