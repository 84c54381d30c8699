import ItxLlama.Lib.StableInsert
import ItxLlama.Seabios.Malloc
import Mathlib.Data.Prod.Lex

/-!
# Boot list

`BootList` of `boot.c`: `bootentry_add` and the choice that
`interactive_bootmenu` makes. The links are words of memory; what stands in a
`bootentry_s` before its links is found under the address of its node. The
build has `CONFIG_BOOT` set.
-/

namespace ItxLlama.Seabios

open Lib.Hlist Lib.StableInsert

def iplTypeFloppy : Int := 0x01
def iplTypeHarddisk : Int := 0x02
def iplTypeCdrom : Int := 0x03
def iplTypeCbfs : Int := 0x20
def iplTypeBev : Int := 0x80
def iplTypeBcv : Int := 0x81
def iplTypeHalt : Int := 0xf0

/-- What the boot list reads of a `drive_s`. -/
structure BootDrive where
  type : Nat
  cntlId : Nat
  deriving DecidableEq, Repr

/-- `data` is the union's word: a vector, or the address of a drive. -/
structure BootEntry where
  type : Int
  data : Nat
  priority : Int
  description : String
  deriving DecidableEq, Repr

structure BootState where
  mem : Mem
  entry : Nat → BootEntry

/-- `&BootList.first`. The head is not memory that `malloc` hands out. -/
def bootListHead : Nat := 2 ^ 32

/-- `sizeof(struct bootentry_s)` -/
def bootentrySize : Nat := 24

def bootNode (be : Nat) : Nat := be + 16

section Source

variable (drives : Nat → BootDrive)

/-- The scan stops in front of `pos`. -/
def bootStops (be pos : BootEntry) : Bool :=
  if be.priority < pos.priority then true
  else if be.priority > pos.priority then false
  else if be.type < pos.type then true
  else if be.type > pos.type then false
  else be.type ≤ iplTypeCdrom &&
    ((drives be.data).type < (drives pos.data).type ||
      ((drives be.data).type = (drives pos.data).type &&
        (drives be.data).cntlId < (drives pos.data).cntlId))

/-- A call of `bootentry_add`; `be` is what `malloc_tmp` returns in it. -/
structure BootAdd where
  be : Nat
  type : Int
  prio : Int
  data : Nat
  desc : Option String

def BootAdd.entry (c : BootAdd) : BootEntry := ⟨c.type, c.data, c.prio, c.desc.getD "?"⟩

def bootentryAdd (s : BootState) (c : BootAdd) : Option BootState :=
  if c.be = 0 then some s
  else
    let entry := Function.update s.entry (bootNode c.be) c.entry
    (hlistFind s.mem (fun pos => bootStops drives c.entry (entry pos)) walkFuel bootListHead).map
      fun pprev => ⟨hlistAdd s.mem (bootNode c.be) pprev, entry⟩

end Source

def setupMenuKey : Int := 0x3B
def bootMenuKey : Int := 0x01

/-- The walk to the chosen entry. -/
def bootChosen (m : Mem) : (choice pos : Nat) → Nat
  | 0, pos => pos
  | choice + 1, pos =>
    if pos = 0 then pos
    else if choice = 0 then pos
    else bootChosen m choice (m pos)

def bootRecords (s : BootState) : List Nat := listRecords s.mem walkFuel bootListHead

/-- `scanCode` is the key of the first prompt and `keys` are those of the
second, -1 where `get_keystroke` timed out. `none` is a menu that still waits. -/
def interactiveBootmenu (scanCode : Int) (keys : List Int) (s : BootState) : Option BootState :=
  if scanCode ≠ setupMenuKey ∧ scanCode ≠ bootMenuKey then some s
  else if scanCode = setupMenuKey then some s
  else
    let maxmenu := (bootRecords s).length
    (keys.find? fun k => 1 ≤ k ∧ k ≤ (maxmenu : Int) + 1).map fun scanCode =>
      if scanCode = 0x01 then s
      else
        let pos := bootChosen s.mem (scanCode - 1).toNat (s.mem bootListHead)
        let mem := hlistDel s.mem pos
        let entry := Function.update s.entry pos { s.entry pos with priority := 0 }
        ⟨hlistAdd mem pos bootListHead, entry⟩

-- ---------------------------------------------------------------------------
-- The order
-- ---------------------------------------------------------------------------

/-- Priority, type, drive type and controller. Only entries up to the CD-ROM
type have a drive. -/
def bootKey (drives : Nat → BootDrive) (e : BootEntry) : Int ×ₗ Int ×ₗ Nat ×ₗ Nat :=
  toLex (e.priority, toLex (e.type,
    if e.type ≤ iplTypeCdrom then toLex ((drives e.data).type, (drives e.data).cntlId)
    else toLex (0, 0)))

theorem bootStops_iff (drives : Nat → BootDrive) (be pos : BootEntry) :
    bootStops drives be pos = true ↔ bootKey drives be < bootKey drives pos := by
  unfold bootStops bootKey
  simp only [Prod.Lex.toLex_lt_toLex]
  rcases lt_trichotomy be.priority pos.priority with hp | hp | hp
  · simp [hp]
  · rcases lt_trichotomy be.type pos.type with ht | ht | ht
    · simp [hp, ht]
    · by_cases hc : pos.type ≤ iplTypeCdrom
      · simp [hp, ht, hc, Prod.Lex.toLex_lt_toLex]
      · simp [hp, ht, hc]
    · simp [hp, ht.not_gt, ht.ne', ht]
  · simp [hp.not_gt, hp.ne', hp]

/-- The list in memory holds the nodes `l`, each in a record of its own. -/
structure BootState.Holds (s : BootState) (l : List Nat) : Prop where
  chain : Chain s.mem bootListHead l
  apart : (bootListHead :: l).Pairwise (Apart 8)
  below : ∀ n ∈ l, n < bootListHead

section Holds

variable {s : BootState} {l : List Nat}

theorem BootState.Holds.length_lt (h : s.Holds l) : l.length < walkFuel := by
  obtain ⟨-, hap⟩ := List.pairwise_cons.mp h.apart
  exact h.chain.length_lt hap (by decide) (by decide) h.below

theorem BootState.Holds.records (h : s.Holds l) : bootRecords s = l :=
  listRecords_chain h.chain h.length_lt

/-- A scan that goes by the key links a node in behind equal keys. -/
theorem BootState.Holds.add (h : s.Holds l) (drives : Nat → BootDrive) {c : BootAdd}
    (h0 : c.be ≠ 0) (hbe : c.be + bootentrySize ≤ bootListHead)
    (hap : ∀ n ∈ l, Apart 8 (bootNode c.be) n) :
    ∃ s', bootentryAdd drives s c = some s' ∧
      s'.entry = Function.update s.entry (bootNode c.be) c.entry ∧
      s'.Holds (insertBehind (fun n => bootKey drives (s'.entry n)) (bootNode c.be) l) := by
  have hlen := h.length_lt
  have hnode : bootNode c.be ∉ l := fun hm => (hap _ hm).ne (by decide) rfl
  set entry := Function.update s.entry (bootNode c.be) c.entry with hentry
  set key := fun n => bootKey drives (entry n) with hkey
  have hstop : ∀ pos, bootStops drives c.entry (entry pos) =
      decide (key (bootNode c.be) < key pos) := by
    intro pos
    have hself : key (bootNode c.be) = bootKey drives c.entry := by simp [hkey, hentry]
    rw [Bool.eq_iff_iff, bootStops_iff, decide_eq_true_iff, hself]
  set A := l.takeWhile (fun n => ¬ key (bootNode c.be) < key n) with hA
  set B := l.dropWhile (fun n => ¬ key (bootNode c.be) < key n) with hB
  have hAB : A ++ B = l := List.takeWhile_append_dropWhile
  have hins : insertBehind key (bootNode c.be) l = A ++ bootNode c.be :: B := insertBehind_eq ..
  have hfind : hlistFind s.mem (fun pos => bootStops drives c.entry (entry pos)) walkFuel
      bootListHead = some (lastLoc bootListHead A) := by
    refine Chain.find (hAB ▸ h.chain) (fun a ha => ?_) (fun b hb => ?_) ?_
    · rw [hstop]
      simpa using List.mem_takeWhile_imp ha
    · rw [hstop]
      have hhead := List.head?_dropWhile_not (fun n => decide ¬ key (bootNode c.be) < key n) l
      rw [← hB, Option.mem_def.mp hb] at hhead
      simpa using hhead
    · rw [← hAB, List.length_append] at hlen
      omega
  refine ⟨⟨hlistAdd s.mem (bootNode c.be) (lastLoc bootListHead A), entry⟩, ?_, rfl, ?_⟩
  · simp only [bootentryAdd, if_neg h0]
    rw [hfind]
    rfl
  · have hperm : (bootListHead :: (A ++ bootNode c.be :: B)).Perm
        (bootNode c.be :: (bootListHead :: l)) := by
      rw [← hAB]
      exact (List.perm_middle.cons _).trans (.swap ..)
    have hap' : (bootListHead :: (A ++ bootNode c.be :: B)).Pairwise (Apart 8) := by
      refine (hperm.pairwise_iff fun {a b} hab => hab.symm).mpr (List.pairwise_cons.mpr ⟨?_, h.apart⟩)
      rintro n (_ | ⟨_, hn⟩)
      · exact .inl (by unfold bootNode bootentrySize at *; omega)
      · exact hap n hn
    rw [hins]
    refine ⟨(hAB ▸ h.chain : Chain s.mem bootListHead (A ++ B)).add ?_ hap', hap', fun n hn => ?_⟩
    · exact Nat.ne_of_gt (Nat.lt_add_left _ (by decide))
    · have hmem := hperm.mem_iff.mp (List.mem_cons_of_mem _ hn)
      have hne : n ≠ bootListHead := by
        rintro rfl
        exact ((List.pairwise_cons.mp hap').1 _ hn).ne (by decide) rfl
      simp only [List.mem_cons, hne, false_or] at hmem
      rcases hmem with rfl | hn
      · unfold bootNode bootentrySize at *
        omega
      · exact h.below n hn

theorem bootChosen_eq {m : Mem} (h : Chain m loc l) (i : Nat) (hi : i < l.length) :
    bootChosen m (i + 1) (m loc) = l[i] := by
  induction l generalizing loc i with
  | nil => simp at hi
  | cons a l ih =>
    obtain ⟨ha, ha0, -, hrest⟩ := h
    cases i with
    | zero => simp [bootChosen, ha]
    | succ i =>
      rw [bootChosen, ha, if_neg ha0, if_neg (Nat.succ_ne_zero i), List.getElem_cons_succ]
      exact ih hrest i (Nat.lt_of_succ_lt_succ hi)

theorem BootState.Holds.choose (h : s.Holds l) (i : Nat) (hi : i < l.length) {keys : List Int}
    (hkeys : (keys.find? fun k => 1 ≤ k ∧ k ≤ (l.length : Int) + 1) = some ((i : Int) + 2)) :
    ∃ s', interactiveBootmenu bootMenuKey keys s = some s' ∧
      s'.entry = Function.update s.entry l[i] { s.entry l[i] with priority := 0 } ∧
      s'.Holds (l[i] :: l.eraseIdx i) := by
  obtain ⟨A, n, B, rfl, hAi, hn⟩ : ∃ A n B, l = A ++ n :: B ∧ A.length = i ∧ n = l[i] :=
    ⟨l.take i, l[i], l.drop (i + 1), by simp, by simp; omega, rfl⟩
  have herase : (A ++ n :: B).eraseIdx i = A ++ B := by
    rw [← hAi, List.eraseIdx_append_of_length_le (Nat.le_refl _)]
    simp
  rw [herase, ← hn]
  have hchosen : bootChosen s.mem ((i : Int) + 2 - 1).toNat (s.mem bootListHead) = n := by
    rw [show ((i : Int) + 2 - 1).toNat = i + 1 by omega, bootChosen_eq h.chain i hi, ← hn]
  refine ⟨⟨hlistAdd (hlistDel s.mem n) n bootListHead, Function.update s.entry n
    { s.entry n with priority := 0 }⟩, ?_, rfl, ?_⟩
  · unfold interactiveBootmenu
    rw [if_neg (by decide), if_neg (by decide), h.records]
    simp only [hkeys, Option.map_some]
    rw [if_neg (by omega), hchosen]
  · have hperm : (bootListHead :: (n :: (A ++ B))).Perm (bootListHead :: (A ++ n :: B)) :=
      List.perm_middle.symm.cons _
    have hap : (bootListHead :: (n :: (A ++ B))).Pairwise (Apart 8) :=
      (hperm.pairwise_iff fun {a b} hab => hab.symm).mpr h.apart
    have hdel := h.chain.del h.apart
    refine ⟨?_, hap, fun a ha => h.below a ?_⟩
    · have h0 : n ≠ 0 := h.chain.ne_zero (by simp)
      exact Chain.add (A := []) hdel h0 hap
    · exact List.perm_middle.mem_iff.mpr ha

end Holds

-- ---------------------------------------------------------------------------
-- All additions
-- ---------------------------------------------------------------------------

section Runs

variable (drives : Nat → BootDrive)

def bootentryAdds : List BootAdd → BootState → Option BootState
  | [], s => some s
  | c :: cs, s => (bootentryAdd drives s c).bind (bootentryAdds cs)

/-- The nodes that calls add, in the order of the calls. -/
def addedNodes (calls : List BootAdd) : List Nat :=
  (calls.filter (·.be ≠ 0)).map fun c => bootNode c.be

/-- `malloc_tmp` fails, or returns a record of its own. -/
structure Allocated (calls : List BootAdd) : Prop where
  apart : ((calls.filter (·.be ≠ 0)).map BootAdd.be).Pairwise (Apart bootentrySize)
  below : ∀ c ∈ calls, c.be + bootentrySize ≤ bootListHead

theorem addedNodes_cons_pos {calls : List BootAdd} (h0 : c.be ≠ 0) :
    addedNodes (c :: calls) = bootNode c.be :: addedNodes calls := by
  simp [addedNodes, h0]

theorem addedNodes_cons_neg {calls : List BootAdd} (h0 : c.be = 0) :
    addedNodes (c :: calls) = addedNodes calls := by
  simp [addedNodes, h0]

theorem Allocated.nodes {calls : List BootAdd} (h : Allocated calls) :
    (addedNodes calls).Pairwise (Apart 8) := by
  have hap := h.apart
  simp only [addedNodes, List.pairwise_map] at hap ⊢
  refine hap.imp fun hab => ?_
  unfold Apart bootNode bootentrySize at *
  omega

theorem bootentryAdds_holds {s : BootState} {pre : List Nat} (calls : List BootAdd)
    (hs : s.Holds (insertAll (fun n => bootKey drives (s.entry n)) pre))
    (hap : (pre ++ addedNodes calls).Pairwise (Apart 8))
    (hbelow : ∀ c ∈ calls, c.be + bootentrySize ≤ bootListHead) :
    ∃ s', bootentryAdds drives calls s = some s' ∧
      s'.Holds (insertAll (fun n => bootKey drives (s'.entry n)) (pre ++ addedNodes calls)) ∧
      (∀ c ∈ calls, c.be ≠ 0 → s'.entry (bootNode c.be) = c.entry) ∧
      ∀ n ∈ pre, s'.entry n = s.entry n := by
  induction calls generalizing s pre with
  | nil => exact ⟨s, rfl, by simpa [addedNodes] using hs, by simp, fun _ _ => rfl⟩
  | cons c calls ih =>
    rw [List.forall_mem_cons] at hbelow
    by_cases h0 : c.be = 0
    · rw [addedNodes_cons_neg h0] at hap ⊢
      obtain ⟨s', hrun, hs', hentry, hpre⟩ := ih hs hap hbelow.2
      refine ⟨s', by simpa [bootentryAdds, bootentryAdd, h0] using hrun, hs', ?_, hpre⟩
      exact List.forall_mem_cons.mpr ⟨fun h => absurd h0 h, hentry⟩
    rw [addedNodes_cons_pos h0] at hap ⊢
    obtain ⟨-, -, hcross⟩ := List.pairwise_append.mp hap
    have hnode : ∀ n ∈ pre, n ≠ bootNode c.be := fun n hn =>
      (hcross n hn _ List.mem_cons_self).ne (by decide)
    obtain ⟨s₁, hadd, hentry₁, hs₁⟩ := hs.add drives h0 hbelow.1 fun n hn =>
      (hcross n ((insertAll_perm _ pre).subset hn) _ List.mem_cons_self).symm
    have hkeep : ∀ n ∈ pre, s₁.entry n = s.entry n := fun n hn => by
      rw [hentry₁, Function.update_of_ne (hnode n hn)]
    rw [insertAll_congr (fun n => bootKey drives (s₁.entry n)) fun n hn => by
      rw [hkeep n hn], ← insertAll_concat] at hs₁
    rw [List.append_cons] at hap
    obtain ⟨s', hrun, hs', hentry, hpre⟩ := ih hs₁ hap hbelow.2
    refine ⟨s', by simpa [bootentryAdds, hadd] using hrun, by simpa using hs', ?_, fun n hn => ?_⟩
    · refine List.forall_mem_cons.mpr ⟨fun _ => ?_, hentry⟩
      rw [hpre _ (by simp), hentry₁, Function.update_self]
    · rw [hpre n (by simp [hn]), hkeep n hn]

/-- Every added entry once, by keys, and equal keys in the order of the calls. -/
structure BootState.Ordered (s : BootState) (added : List Nat) : Prop where
  once : (bootRecords s).Nodup
  all : (bootRecords s).Perm added
  sorted : (bootRecords s).Pairwise fun a b =>
    bootKey drives (s.entry a) ≤ bootKey drives (s.entry b)
  stable : ∀ k, (bootRecords s).filter (fun n => bootKey drives (s.entry n) = k) =
    added.filter fun n => bootKey drives (s.entry n) = k

/-- The list is ordered after every sequence of calls, and a choice takes one
entry to the front. -/
theorem bootList_ordered {s : BootState} (calls : List BootAdd) (hempty : s.mem bootListHead = 0)
    (hcalls : Allocated calls) :
    ∃ s', bootentryAdds drives calls s = some s' ∧ s'.Ordered drives (addedNodes calls) ∧
      (∀ c ∈ calls, c.be ≠ 0 → s'.entry (bootNode c.be) = c.entry) ∧
      ∀ i (hi : i < (bootRecords s').length) (keys : List Int),
        (keys.find? fun k => 1 ≤ k ∧ k ≤ ((bootRecords s').length : Int) + 1) =
            some ((i : Int) + 2) →
          ∃ s'', interactiveBootmenu bootMenuKey keys s' = some s'' ∧
            bootRecords s'' = (bootRecords s')[i] :: (bootRecords s').eraseIdx i ∧
            s''.entry = Function.update s'.entry (bootRecords s')[i]
              { s'.entry (bootRecords s')[i] with priority := 0 } := by
  have hs : s.Holds (insertAll (fun n => bootKey drives (s.entry n)) []) :=
    ⟨hempty, List.pairwise_singleton .., by simp [insertAll]⟩
  obtain ⟨s', hrun, hs', hentry, -⟩ :=
    bootentryAdds_holds drives calls hs (by simpa using hcalls.nodes) hcalls.below
  rw [List.nil_append] at hs'
  refine ⟨s', hrun, ⟨?_, ?_, ?_, ?_⟩, hentry, ?_⟩
  all_goals rw [hs'.records]
  · exact (List.pairwise_cons.mp hs'.apart).2.imp fun hab => hab.ne (by decide)
  · exact insertAll_perm _ _
  · exact insertAll_sorted _
  · exact fun k => insertAll_filter _ k
  · intro i hi keys hkeys
    obtain ⟨s'', hmenu, hupd, hs''⟩ := hs'.choose i hi hkeys
    exact ⟨s'', hmenu, hs''.records, hupd⟩

theorem bootList_ordered_two :
    ∃ s', bootentryAdds (fun _ => ⟨0, 0⟩)
        [⟨0x1000, iplTypeHarddisk, 5, 0x100, none⟩, ⟨0x2000, iplTypeFloppy, 5, 0x200, none⟩]
        ⟨fun _ => 0, fun _ => ⟨0, 0, 0, "?"⟩⟩ = some s' ∧
      s'.Ordered (fun _ => ⟨0, 0⟩) [0x1010, 0x2010] := by
  obtain ⟨s', hrun, hord, -⟩ := bootList_ordered (fun _ => ⟨0, 0⟩)
    (s := ⟨fun _ => 0, fun _ => ⟨0, 0, 0, "?"⟩⟩)
    [⟨0x1000, iplTypeHarddisk, 5, 0x100, none⟩, ⟨0x2000, iplTypeFloppy, 5, 0x200, none⟩] rfl
    ⟨by decide, by decide⟩
  exact ⟨s', hrun, hord⟩

end Runs

end ItxLlama.Seabios
