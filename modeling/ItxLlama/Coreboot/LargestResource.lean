import ItxLlama.Coreboot.DeviceTree
import ItxLlama.Lib.Successor
import Mathlib.Data.Prod.Lex

/-!
# Enumerating the resources of a bus

Calls of `largest_resource`, each with the result of the one before, yield the
resources of a bus by alignment and size. A resource that has been stored is
yielded like any other.
-/

namespace ItxLlama.Coreboot

open Lib.Successor

/-- The alignment, then the size. -/
def Store.rank (h : Store) (p : ResPtr) : ℕ ×ₗ ℕ := toLex ((h.res p).align, (h.res p).size)

def Store.movable (h : Store) (p : ResPtr) : Bool := !(h.res p).has ioresourceFixed

theorem rank_lt {h : Store} : h.rank p < h.rank q ↔ (h.res p).align < (h.res q).align ∨
    (h.res p).align = (h.res q).align ∧ (h.res p).size < (h.res q).size :=
  Prod.Lex.toLex_lt_toLex

theorem rank_eq {h : Store} : h.rank p = h.rank q ↔
    (h.res p).align = (h.res q).align ∧ (h.res p).size = (h.res q).size :=
  toLex_inj.trans Prod.mk_inj

-- ---------------------------------------------------------------------------
-- One search
-- ---------------------------------------------------------------------------

section

variable {h : Store} {last : Option ResPtr}

theorem follows_some {l p : ResPtr} (met : Bool) : follows h.rank (some l) met p = true ↔
    ¬ ((h.res l).align < (h.res p).align ∨
      (h.res l).align = (h.res p).align ∧ (h.res l).size < (h.res p).size ∨
      (h.res l).align = (h.res p).align ∧ (h.res l).size = (h.res p).size ∧ (!met) = true) := by
  have hlt := @rank_lt p l h
  have heq := @rank_eq p l h
  cases met <;> simp only [follows, Bool.or_eq_true, Bool.and_eq_true, decide_eq_true_eq, hlt, heq,
    Bool.not_true, Bool.not_false, reduceCtorEq, and_true, and_false, or_false] <;> omega

/-- The better of the two, the first of equals. -/
def better (h : Store) (q : Option ResPtr) (p : ResPtr) : Option ResPtr :=
  List.argAux (fun b c => h.rank c < h.rank b) q p

theorem better_eq (q : Option ResPtr) (p : ResPtr) : better h q p =
    match q with
    | none => some p
    | some q =>
      if (h.res q).align < (h.res p).align ∨
          (h.res q).align = (h.res p).align ∧ (h.res q).size < (h.res p).size then some p
      else some q := by
  cases q with
  | none => rfl
  | some q => exact if_congr rank_lt rfl rfl

theorem pick_better (result : Option ResPtr) (seenLast : Bool) (p : ResPtr) :
    (match result with
      | none => { result := some p, seenLast := seenLast }
      | some q =>
        if (h.res q).align < (h.res p).align ∨
            (h.res q).align = (h.res p).align ∧ (h.res q).size < (h.res p).size then
          { result := some p, seenLast := seenLast }
        else { result := result, seenLast := seenLast } : PickLargestState) =
      { result := better h result p, seenLast := seenLast } := by
  rw [better_eq]
  cases result with
  | none => rfl
  | some q =>
    dsimp only
    split <;> rfl

theorem pickLargestResource_eq {state : PickLargestState} {p : ResPtr} (hne : last ≠ some p) :
    pickLargestResource h last state p =
      if h.movable p && follows h.rank last state.seenLast p then
        { state with result := better h state.result p }
      else state := by
  obtain ⟨result, seenLast⟩ := state
  unfold pickLargestResource Store.movable
  rw [if_neg hne]
  cases hfixed : (h.res p).has ioresourceFixed with
  | true => rfl
  | false =>
    cases last with
    | none => exact pick_better result seenLast p
    | some l =>
      by_cases hfollows : follows h.rank (some l) seenLast p = true
      · have hbefore := (follows_some seenLast).mp hfollows
        simp only [hfollows, decide_eq_false hbefore]
        exact pick_better result seenLast p
      · have hbefore := not_not.mp (mt (follows_some seenLast).mpr hfollows)
        simp only [hfollows, decide_eq_true hbefore]
        rfl

theorem foldl_pickLargestResource (l : List ResPtr) (state : PickLargestState) :
    (l.foldl (pickLargestResource h last) state).result =
      (walk h.rank h.movable last state.seenLast l).foldl (better h) state.result := by
  induction l generalizing state with
  | nil => rfl
  | cons p l ih =>
    rw [List.foldl_cons, ih, walk]
    by_cases heq : last = some p
    · rw [if_pos heq, pickLargestResource.eq_def, if_pos heq]
    · rw [if_neg heq, pickLargestResource_eq heq]
      split <;> rfl

theorem largestResource_eq (bus : Devices) (typeMask type : BitVec 32) :
    largestResource h bus last typeMask type =
      (walk h.rank h.movable last false (searchBusResources h typeMask type bus)).argmax h.rank :=
  foldl_pickLargestResource _ {}

end

-- ---------------------------------------------------------------------------
-- The resources of a bus
-- ---------------------------------------------------------------------------

section

variable (h : Store) (typeMask type : BitVec 32)

/-- The resources of a device, those behind a subtractive one in its place. -/
def listOrder (behind : BitVec 32 → List ResPtr) (resources : List ResPtr) : List ResPtr :=
  resources.flatMap fun p =>
    if !(h.res p).isType typeMask type then []
    else if (h.res p).has ioresourceSubtractive then behind (ioindexSubtractiveLink (h.res p).index)
    else [p]

mutual
/-- The resources of the type on a bus, in tree order. -/
def treeOrder : Devices → List ResPtr
  | .nil => []
  | .cons enabled resources links sibling =>
    (if enabled then listOrder h typeMask type (fun n => linkOrder n links) resources else []) ++
      treeOrder sibling

def linkOrder (n : BitVec 32) : Links → List ResPtr
  | .nil => []
  | .cons num children next => if num = n then treeOrder children else linkOrder n next
end

def Links.has (n : BitVec 32) : Links → Bool
  | .nil => false
  | .cons num _ next => num = n || next.has n

/-- Every subtractive resource of the type has its link, or nothing of the type comes behind it. -/
def ListLinked (links : Links) : List ResPtr → Prop
  | [] => True
  | p :: rest =>
    ((h.res p).isType typeMask type = true → (h.res p).has ioresourceSubtractive = true →
      links.has (ioindexSubtractiveLink (h.res p).index) = true ∨
        listOrder h typeMask type (fun n => linkOrder h typeMask type n links) rest = []) ∧
      ListLinked links rest

mutual
/-- No device that is searched has resources left out for want of a link. -/
def Devices.Linked : Devices → Prop
  | .nil => True
  | .cons enabled resources links sibling =>
    (enabled = true → ListLinked h typeMask type links resources ∧ links.Linked) ∧ sibling.Linked

def Links.Linked : Links → Prop
  | .nil => True
  | .cons _ children next => children.Linked ∧ next.Linked
end

end

section

variable {h : Store} {typeMask type : BitVec 32}

theorem listOrder_cons (behind : BitVec 32 → List ResPtr) (p : ResPtr) (rest : List ResPtr) :
    listOrder h typeMask type behind (p :: rest) =
      (if !(h.res p).isType typeMask type then []
        else if (h.res p).has ioresourceSubtractive then
          behind (ioindexSubtractiveLink (h.res p).index)
        else [p]) ++ listOrder h typeMask type behind rest := List.flatMap_cons

theorem searchList_eq {subbus : BitVec 32 → Option (List ResPtr)} {links : Links}
    {resources : List ResPtr}
    (hhas : ∀ n, links.has n = true → subbus n = some (linkOrder h typeMask type n links))
    (hmissing : ∀ n, links.has n = false →
      subbus n = none ∧ linkOrder h typeMask type n links = [])
    (hlinked : ListLinked h typeMask type links resources) :
    searchList h typeMask type subbus resources =
      listOrder h typeMask type (fun n => linkOrder h typeMask type n links) resources := by
  induction resources with
  | nil => rfl
  | cons p rest ih =>
    obtain ⟨hp, hrest⟩ := hlinked
    rw [searchList, listOrder_cons, ih hrest]
    cases htype : (h.res p).isType typeMask type with
    | false => rfl
    | true =>
      cases hsub : (h.res p).has ioresourceSubtractive with
      | false => rfl
      | true =>
        cases hlink : links.has (ioindexSubtractiveLink (h.res p).index) with
        | true =>
          simp only [hhas _ hlink]
          rfl
        | false =>
          -- the rest of the resources is left out here
          obtain ⟨hnone, hempty⟩ := hmissing _ hlink
          have hnothing := (hp htype hsub).resolve_left (by rw [hlink]; exact Bool.false_ne_true)
          simp only [hnone, hempty, hnothing]
          rfl

theorem searchLink_missing : (links : Links) → links.has n = false →
    searchLink h typeMask type n links = none ∧ linkOrder h typeMask type n links = []
  | .nil, _ => ⟨rfl, rfl⟩
  | .cons num children next, hhas => by
    obtain ⟨hne, hnext⟩ := Bool.or_eq_false_iff.mp hhas
    have hne : ¬ num = n := of_decide_eq_false hne
    rw [searchLink, linkOrder, if_neg hne, if_neg hne]
    exact searchLink_missing next hnext

mutual
theorem searchBusResources_eq (bus : Devices) (hlinked : bus.Linked h typeMask type) :
    searchBusResources h typeMask type bus = treeOrder h typeMask type bus := by
  cases bus with
  | nil => rfl
  | cons enabled resources links sibling =>
    obtain ⟨hdevice, hsibling⟩ := hlinked
    rw [searchBusResources, treeOrder, searchBusResources_eq sibling hsibling]
    congr 1
    cases enabled with
    | false => rfl
    | true =>
      obtain ⟨hlist, hlinks⟩ := hdevice rfl
      exact searchList_eq (fun n hhas => searchLink_eq links hlinks hhas)
        (fun n hhas => searchLink_missing links hhas) hlist

theorem searchLink_eq (links : Links) (hlinked : links.Linked h typeMask type)
    (hhas : links.has n = true) :
    searchLink h typeMask type n links = some (linkOrder h typeMask type n links) := by
  cases links with
  | nil => exact absurd hhas Bool.false_ne_true
  | cons num children next =>
    obtain ⟨hchildren, hnext⟩ := hlinked
    rw [searchLink, linkOrder]
    by_cases heq : num = n
    · rw [if_pos heq, if_pos heq, searchBusResources_eq children hchildren]
    · rw [if_neg heq, if_neg heq]
      exact searchLink_eq next hnext (by simpa [Links.has, heq] using hhas)
end

theorem yields_largestResource {bus : Devices}
    (hturns : NotInTurns h.rank (searchBusResources h typeMask type bus) h.movable) :
    ∃ l, Yields (fun last => largestResource h bus last typeMask type) none l ∧
      Enumerates h.rank (searchBusResources h typeMask type bus) (h.movable · = true) l := by
  obtain ⟨l, hyields, henum⟩ :=
    exists_enumerates h.rank (searchBusResources h typeMask type bus) h.movable
  refine ⟨l, hyields.congr (P := fun last => ∀ p, last = some p →
    p ∈ searchBusResources h typeMask type bus ∧ h.movable p = true) ?_ ?_ nofun, henum⟩
  · intro last hlast
    show next _ _ _ _ = largestResource h bus last typeMask type
    rw [largestResource_eq, next]
    cases last with
    | none => rw [walk_none, rest_none]
    | some p =>
      obtain ⟨hmem, hwant⟩ := hlast p rfl
      rw [walk_eq hturns hmem hwant]
  · rintro last p - hsome q hq
    obtain rfl := Option.some.inj hq
    obtain ⟨hmem, -⟩ := next_eq_some hsome
    obtain ⟨hxs, hwant, -⟩ := mem_rest.mp hmem
    exact ⟨hxs, hwant⟩

/-- Every resource on the bus that is not fixed is yielded, stored or not. -/
theorem largestResource_enumerates {bus : Devices} (hlinked : bus.Linked h typeMask type)
    (hturns : NotInTurns h.rank (treeOrder h typeMask type bus) h.movable) :
    ∃ l, Yields (fun last => largestResource h bus last typeMask type) none l ∧
      Enumerates h.rank (treeOrder h typeMask type bus) (h.movable · = true) l := by
  rw [← searchBusResources_eq bus hlinked] at hturns ⊢
  exact yields_largestResource hturns

end

/-- Two resources of one size behind a subtractive one, and one that has been stored. -/
def twoAlike : Store :=
  [{ flags := ioresourceMem ||| ioresourceSubtractive, index := 0x10000000 },
    { flags := ioresourceMem, align := 12, size := 0x1000 },
    { flags := ioresourceMem, align := 12, size := 0x1000 },
    { flags := ioresourceMem ||| ioresourceStored, align := 16, size := 0x10000 }]

def twoAlikeBus : Devices :=
  .cons true [0, 3] (.cons 0 (.cons true [1, 2] .nil .nil) .nil) .nil

theorem largestResource_enumerates_twoAlike :
    ∃ l, Yields (fun last => largestResource twoAlike twoAlikeBus last ioresourceMem ioresourceMem)
        none l ∧
      Enumerates twoAlike.rank (treeOrder twoAlike ioresourceMem ioresourceMem twoAlikeBus)
        (twoAlike.movable · = true) l := by
  refine largestResource_enumerates ?_ (notInTurns_of_nodup (by decide))
  have hdevice : ListLinked twoAlike ioresourceMem ioresourceMem .nil [1, 2] :=
    ⟨by decide, by decide, trivial⟩
  have hbus : ListLinked twoAlike ioresourceMem ioresourceMem
      (.cons 0 (.cons true [1, 2] .nil .nil) .nil) [0, 3] := ⟨by decide, by decide, trivial⟩
  exact ⟨fun _ => ⟨hbus, ⟨fun _ => ⟨hdevice, trivial⟩, trivial⟩, trivial⟩, trivial⟩

/-- What has nonzero flags and is neither fixed nor stored. -/
def Store.Unassigned (h : Store) (p : ResPtr) : Prop :=
  (h.res p).flags ≠ 0 ∧ (h.res p).has ioresourceFixed = false ∧
    (h.res p).has ioresourceStored = false

/-- The one that has been stored comes first. -/
theorem largestResource_stored :
    ¬ ∃ l, Yields (fun last => largestResource twoAlike twoAlikeBus last ioresourceMem ioresourceMem)
        none l ∧
      Enumerates twoAlike.rank (treeOrder twoAlike ioresourceMem ioresourceMem twoAlikeBus)
        twoAlike.Unassigned l := by
  rintro ⟨l, hyields, henum⟩
  have hfirst : largestResource twoAlike twoAlikeBus none ioresourceMem ioresourceMem = some 3 := by
    decide
  cases hyields with
  | null hnone => exact absurd (hfirst.symm.trans hnone) nofun
  | next hsome rest =>
    obtain rfl := Option.some.inj (hfirst.symm.trans hsome)
    obtain ⟨-, -, -, hstored⟩ := (henum.mem 3).mp List.mem_cons_self
    exact absurd hstored (by decide)

end ItxLlama.Coreboot
