import ItxLlama.Lib.Collapse
import ItxLlama.Seabios.BootMatch

/-!
# Boot preparation

`add_bev` and `bcv_prepboot` of `boot.c`: the drives of the boot list are
mapped and the table of boot vectors is filled. The build has `CONFIG_BOOT`
set.
-/

namespace ItxLlama.Seabios.Boot

open Lib.Hlist Lib.StableInsert Lib.Collapse

structure Bev where
  type : Int
  vector : Nat
  deriving DecidableEq, Repr

/-- `ARRAY_SIZE(BEV)` -/
def bevSlots : Nat := 20

/-- The calls that set a device up. -/
inductive BootCall where
  | bcv (vector : Nat)
  | mapFloppyDrive (drive : Nat)
  | mapHdDrive (drive : Nat)
  | mapCdDrive (drive : Nat)
  deriving DecidableEq, Repr

/-- `bev` are the first `BEVCount` slots of the table. -/
structure PrepState where
  bev : List Bev
  fits : bev.length ≤ bevSlots
  haveHdBoot : Nat
  haveFdBoot : Nat
  calls : List BootCall

def PrepState.init : PrepState := ⟨[], Nat.zero_le _, 0, 0, []⟩

def PrepState.call (p : PrepState) (c : BootCall) : PrepState := { p with calls := p.calls ++ [c] }

def PrepState.push (p : PrepState) (b : Bev) : PrepState :=
  if h : p.bev.length ≥ bevSlots then p
  else { p with
    bev := p.bev ++ [b]
    fits := by
      rw [List.length_append]
      exact Nat.not_le.mp h }

def addBev (type : Int) (vector : Nat) (p : PrepState) : PrepState :=
  if type = iplTypeHarddisk then
    let p' := { p with haveHdBoot := p.haveHdBoot + 1 }
    if p.haveHdBoot ≠ 0 then p' else p'.push ⟨type, vector⟩
  else if type = iplTypeFloppy then
    let p' := { p with haveFdBoot := p.haveFdBoot + 1 }
    if p.haveFdBoot ≠ 0 then p' else p'.push ⟨type, vector⟩
  else p.push ⟨type, vector⟩

/-- The body of the loop over `BootList`. -/
def prepEntry (p : PrepState) (pos : BootEntry) : PrepState :=
  if pos.type = iplTypeBcv then addBev iplTypeHarddisk 0 (p.call (.bcv pos.data))
  else if pos.type = iplTypeFloppy then
    addBev iplTypeFloppy 0 (p.call (.mapFloppyDrive pos.data))
  else if pos.type = iplTypeHarddisk then
    addBev iplTypeHarddisk 0 (p.call (.mapHdDrive pos.data))
  else if pos.type = iplTypeCdrom then addBev pos.type pos.data (p.call (.mapCdDrive pos.data))
  else addBev pos.type pos.data p

/-- The first lines of `bcv_prepboot`; `be` is what `malloc_tmp` returns in
`bootentry_add`. -/
def addHalt (drives : Nat → BootDrive) (o : BootOrder) (be : Nat) (s : BootState) :
    Option BootState :=
  let haltprio := findPrio o (cstr "HALT")
  if haltprio ≥ 0 then bootentryAdd drives s ⟨be, iplTypeHalt, haltprio, 0, some "HALT"⟩
  else some s

def bcvPrepboot (drives : Nat → BootDrive) (o : BootOrder) (be : Nat) (s : BootState) :
    Option (BootState × PrepState) :=
  (addHalt drives o be s).map fun s =>
    let p := ((bootRecords s).map s.entry).foldl prepEntry .init
    (s, addBev iplTypeHarddisk 0 (addBev iplTypeFloppy 0 p))

-- ---------------------------------------------------------------------------
-- The table
-- ---------------------------------------------------------------------------

def hdBev : Bev := ⟨iplTypeHarddisk, 0⟩
def floppyBev : Bev := ⟨iplTypeFloppy, 0⟩

/-- What an entry asks for: all hard disks and option ROM disks boot through
one vector, and all floppies through another. -/
def bevOf (e : BootEntry) : Bev :=
  if e.type = iplTypeBcv ∨ e.type = iplTypeHarddisk then hdBev
  else if e.type = iplTypeFloppy then floppyBev
  else ⟨e.type, e.data⟩

def bevOnce (b : Bev) : Bool := b = hdBev ∨ b = floppyBev

/-- The table after the vectors `asked`. -/
structure PrepState.Holds (p : PrepState) (asked : List Bev) : Prop where
  bev : p.bev = (collapse bevOnce [] asked).take bevSlots
  hd : p.haveHdBoot = asked.count hdBev
  fd : p.haveFdBoot = asked.count floppyBev

section
variable {p : PrepState} {asked : List Bev}

theorem PrepState.Holds.call (h : p.Holds asked) (c : BootCall) : (p.call c).Holds asked :=
  ⟨h.bev, h.hd, h.fd⟩

@[simp] theorem PrepState.push_haveHdBoot : (p.push b).haveHdBoot = p.haveHdBoot := by
  unfold push
  split <;> rfl

@[simp] theorem PrepState.push_haveFdBoot : (p.push b).haveFdBoot = p.haveFdBoot := by
  unfold push
  split <;> rfl

theorem PrepState.push_bev {l : List Bev} (h : p.bev = l.take bevSlots) :
    (p.push b).bev = (l ++ [b]).take bevSlots := by
  have hlen : p.bev.length = min bevSlots l.length := by rw [h, List.length_take]
  unfold push
  split
  · next hfull => rw [h, List.take_append_of_le_length (by omega)]
  · next hfull =>
    have hle : l.length < bevSlots := by omega
    show p.bev ++ [b] = _
    rw [h, List.take_of_length_le (Nat.le_of_lt hle), List.take_of_length_le]
    rw [List.length_append]
    exact hle

theorem PrepState.Holds.addBev_hd (h : p.Holds asked) :
    (addBev iplTypeHarddisk 0 p).Holds (asked ++ [hdBev]) := by
  have hmem : hdBev ∈ asked ↔ p.haveHdBoot ≠ 0 := by
    rw [h.hd, ← Nat.pos_iff_ne_zero, List.count_pos_iff]
  have hcount : (asked ++ [hdBev]).count hdBev = p.haveHdBoot + 1 := by
    rw [List.count_append, h.hd, List.count_singleton_self]
  have hfloppy : (asked ++ [hdBev]).count floppyBev = p.haveFdBoot := by
    rw [List.count_append, h.fd, List.count_singleton]
    rfl
  rw [addBev, if_pos rfl]
  by_cases hhave : p.haveHdBoot ≠ 0
  · rw [if_pos hhave]
    refine ⟨?_, hcount.symm, hfloppy.symm⟩
    rw [collapse_concat, if_pos ⟨rfl, hmem.mpr hhave⟩, List.append_nil]
    exact h.bev
  · rw [if_neg hhave]
    refine ⟨?_, ?_, ?_⟩
    · rw [collapse_concat, if_neg fun hc => hhave (hmem.mp hc.2)]
      exact push_bev h.bev
    · rw [push_haveHdBoot, hcount]
    · rw [push_haveFdBoot, hfloppy]

theorem PrepState.Holds.addBev_floppy (h : p.Holds asked) :
    (addBev iplTypeFloppy 0 p).Holds (asked ++ [floppyBev]) := by
  have hmem : floppyBev ∈ asked ↔ p.haveFdBoot ≠ 0 := by
    rw [h.fd, ← Nat.pos_iff_ne_zero, List.count_pos_iff]
  have hcount : (asked ++ [floppyBev]).count floppyBev = p.haveFdBoot + 1 := by
    rw [List.count_append, h.fd, List.count_singleton_self]
  have hhd : (asked ++ [floppyBev]).count hdBev = p.haveHdBoot := by
    rw [List.count_append, h.hd, List.count_singleton]
    rfl
  rw [addBev, if_neg (by decide), if_pos rfl]
  by_cases hhave : p.haveFdBoot ≠ 0
  · rw [if_pos hhave]
    refine ⟨?_, hhd.symm, hcount.symm⟩
    rw [collapse_concat, if_pos ⟨rfl, hmem.mpr hhave⟩, List.append_nil]
    exact h.bev
  · rw [if_neg hhave]
    refine ⟨?_, ?_, ?_⟩
    · rw [collapse_concat, if_neg fun hc => hhave (hmem.mp hc.2)]
      exact push_bev h.bev
    · rw [push_haveHdBoot, hhd]
    · rw [push_haveFdBoot, hcount]

theorem PrepState.Holds.addBev_other (h : p.Holds asked) (hhd : type ≠ iplTypeHarddisk)
    (hfloppy : type ≠ iplTypeFloppy) :
      (addBev type vector p).Holds (asked ++ [⟨type, vector⟩]) := by
  have hne : (⟨type, vector⟩ : Bev) ≠ hdBev := fun hb => hhd (congrArg Bev.type hb)
  have hne' : (⟨type, vector⟩ : Bev) ≠ floppyBev := fun hb => hfloppy (congrArg Bev.type hb)
  rw [addBev, if_neg hhd, if_neg hfloppy]
  refine ⟨?_, ?_, ?_⟩
  · rw [collapse_concat, if_neg (by simp [bevOnce, hne, hne'])]
    exact push_bev h.bev
  · rw [push_haveHdBoot, h.hd, List.count_append, List.count_singleton, beq_eq_false_iff_ne.mpr hne]
    rfl
  · rw [push_haveFdBoot, h.fd, List.count_append, List.count_singleton,
      beq_eq_false_iff_ne.mpr hne']
    rfl

theorem PrepState.Holds.prepEntry (h : p.Holds asked) (pos : BootEntry) :
    (prepEntry p pos).Holds (asked ++ [bevOf pos]) := by
  unfold Boot.prepEntry bevOf
  by_cases hbcv : pos.type = iplTypeBcv
  · rw [if_pos hbcv, if_pos (.inl hbcv)]
    exact (h.call _).addBev_hd
  rw [if_neg hbcv]
  by_cases hfloppy : pos.type = iplTypeFloppy
  · rw [if_pos hfloppy, if_neg (by rw [hfloppy]; decide), if_pos hfloppy]
    exact (h.call _).addBev_floppy
  rw [if_neg hfloppy]
  by_cases hhd : pos.type = iplTypeHarddisk
  · rw [if_pos hhd, if_pos (.inr hhd)]
    exact (h.call _).addBev_hd
  rw [if_neg hhd, if_neg (not_or.mpr ⟨hbcv, hhd⟩), if_neg hfloppy]
  split
  · exact (h.call _).addBev_other hhd hfloppy
  · exact h.addBev_other hhd hfloppy

theorem PrepState.Holds.foldl (h : p.Holds asked) (l : List BootEntry) :
    (l.foldl Boot.prepEntry p).Holds (asked ++ l.map bevOf) := by
  induction l generalizing p asked with
  | nil => simpa using h
  | cons pos l ih => simpa using ih (h.prepEntry pos)

end

-- ---------------------------------------------------------------------------
-- The whole sequence
-- ---------------------------------------------------------------------------

/-- The vectors in the order of the list, and the two that are always asked
for. -/
def bevsAsked (s : BootState) : List Bev :=
  (bootRecords s).map (fun n => bevOf (s.entry n)) ++ [floppyBev, hdBev]

/-- The list at the time of the walk: with HALT, if the boot order names it. -/
def withHalt (drives : Nat → BootDrive) (o : BootOrder) (be : Nat) (s : BootState)
    (l : List Nat) : List Nat :=
  if 0 ≤ findPrio o (cstr "HALT") ∧ be ≠ 0 then
    insertBehind (fun n => bootKey drives (s.entry n)) (bootNode be) l
  else l

theorem addHalt_holds (drives : Nat → BootDrive) (o : BootOrder) {s : BootState}
    {l : List Nat} (hs : s.Holds l) (hbe : be + bootentrySize ≤ bootListHead)
    (hap : be ≠ 0 → ∀ n ∈ l, Apart 8 (bootNode be) n) :
    ∃ s', addHalt drives o be s = some s' ∧ s'.Holds (withHalt drives o be s' l) ∧
      ∀ n ∈ l, s'.entry n = s.entry n := by
  by_cases hprio : findPrio o (cstr "HALT") ≥ 0
  · simp only [addHalt, if_pos hprio]
    by_cases h0 : be = 0
    · refine ⟨s, by rw [bootentryAdd, if_pos h0], ?_, fun _ _ => rfl⟩
      rw [withHalt, if_neg fun h => h.2 h0]
      exact hs
    · obtain ⟨s', hadd, hentry, hs'⟩ := hs.add drives
        (c := ⟨be, iplTypeHalt, findPrio o (cstr "HALT"), 0, some "HALT"⟩) h0 hbe (hap h0)
      refine ⟨s', hadd, ?_, fun n hn => ?_⟩
      · rw [withHalt, if_pos ⟨hprio, h0⟩]
        exact hs'
      · rw [hentry, Function.update_of_ne ((hap h0 n hn).ne (by decide)).symm]
  · refine ⟨s, if_neg hprio, ?_, fun _ _ => rfl⟩
    rw [withHalt, if_neg fun h => hprio h.1]
    exact hs

theorem bcvPrepboot_holds (drives : Nat → BootDrive) (o : BootOrder) {s : BootState}
    {l : List Nat} (hs : s.Holds l) (hbe : be + bootentrySize ≤ bootListHead)
    (hap : be ≠ 0 → ∀ n ∈ l, Apart 8 (bootNode be) n) :
    ∃ s' p, bcvPrepboot drives o be s = some (s', p) ∧ s'.Holds (withHalt drives o be s' l) ∧
      (∀ n ∈ l, s'.entry n = s.entry n) ∧ p.Holds (bevsAsked s') := by
  obtain ⟨s', hrun, hs', hentry⟩ := addHalt_holds drives o hs hbe hap
  have hinit : PrepState.init.Holds [] := ⟨rfl, rfl, rfl⟩
  have hfold := ((hinit.foldl ((bootRecords s').map s'.entry)).addBev_floppy).addBev_hd
  refine ⟨s', _, by rw [bcvPrepboot, hrun]; rfl, hs', hentry, ?_⟩
  simpa [bevsAsked, Function.comp_def] using hfold

theorem PrepState.Holds.bevs {p : PrepState} (h : p.Holds (bevsAsked s)) (hb : bevOnce b = true)
    (hmem : b ∈ bevsAsked s) :
    p.bev.count b ≤ 1 ∧
      (b ∈ p.bev ↔ (collapse bevOnce [] (bevsAsked s)).idxOf b < bevSlots) := by
  rw [h.bev]
  exact ⟨((List.take_sublist ..).count_le _).trans (count_collapse_le hb [] _),
    List.mem_take_iff_idxOf_lt (mem_collapse hmem List.not_mem_nil)⟩

/-- The table holds the first twenty of the collapsed vectors. -/
theorem bcvPrepboot_bev {drives : Nat → BootDrive} {o : BootOrder} {s : BootState}
    {l : List Nat} (hs : s.Holds l) (hbe : be + bootentrySize ≤ bootListHead)
    (hap : be ≠ 0 → ∀ n ∈ l, Apart 8 (bootNode be) n) :
    ∃ s' p, bcvPrepboot drives o be s = some (s', p) ∧
      bootRecords s' = withHalt drives o be s' l ∧
      p.bev = (collapse bevOnce [] (bevsAsked s')).take bevSlots ∧
      p.bev.count hdBev ≤ 1 ∧ p.bev.count floppyBev ≤ 1 ∧
      (hdBev ∈ p.bev ↔ (collapse bevOnce [] (bevsAsked s')).idxOf hdBev < bevSlots) ∧
      (floppyBev ∈ p.bev ↔ (collapse bevOnce [] (bevsAsked s')).idxOf floppyBev < bevSlots) := by
  obtain ⟨s', p, hrun, hs', -, hp⟩ := bcvPrepboot_holds drives o hs hbe hap
  obtain ⟨hhd, hhdmem⟩ := hp.bevs (b := hdBev) rfl (by simp [bevsAsked])
  obtain ⟨hfd, hfdmem⟩ := hp.bevs (b := floppyBev) rfl (by simp [bevsAsked])
  exact ⟨s', p, hrun, hs'.records, hp.bev, hhd, hfd, hhdmem, hfdmem⟩

def mixedNodes : List Nat := [0x1010, 0x1030, 0x1050, 0x1070]

/-- Two hard disks, with a floppy drive and a payload between them. -/
def mixedList : BootState where
  mem a :=
    if a = bootListHead then 0x1010
    else if a = 0x1014 then bootListHead
    else if a % 0x20 = 0x14 then a - 0x24
    else if a = 0x1070 then 0
    else a + 0x20
  entry n :=
    if n = 0x1030 then ⟨iplTypeFloppy, 0, 1, "floppy"⟩
    else if n = 0x1050 then ⟨iplTypeCbfs, 0, 2, "payload"⟩
    else ⟨iplTypeHarddisk, 0, 3, "disk"⟩

theorem mixedList_holds : mixedList.Holds mixedNodes := ⟨by decide, by decide, by decide⟩

theorem bcvPrepboot_bev_mixed :
    ∃ s' p, bcvPrepboot (fun _ => ⟨0, 0⟩) ⟨[], 0⟩ 0 mixedList = some (s', p) ∧
      p.bev = [hdBev, floppyBev, ⟨iplTypeCbfs, 0⟩] ∧
      p.bev = (collapse bevOnce [] (bevsAsked s')).take bevSlots ∧
      p.bev.count hdBev ≤ 1 ∧ p.bev.count floppyBev ≤ 1 := by
  have hfits : 0 + bootentrySize ≤ bootListHead := by decide
  obtain ⟨s', p, hrun, -, hbev, hhd, hfloppy, -⟩ :=
    @bcvPrepboot_bev 0 (fun _ => ⟨0, 0⟩) ⟨[], 0⟩ _ _ mixedList_holds hfits fun h => absurd rfl h
  have htable : (bcvPrepboot (fun _ => ⟨0, 0⟩) ⟨[], 0⟩ 0 mixedList).map (fun r => r.2.bev) =
      some [hdBev, floppyBev, ⟨iplTypeCbfs, 0⟩] := by decide +kernel
  rw [hrun] at htable
  exact ⟨s', p, hrun, Option.some.inj htable, hbev, hhd, hfloppy⟩

/-- Twenty payloads, one behind the other. -/
def payloadNodes : List Nat := (List.range 20).map fun i => 0x1010 + 0x20 * i

def payloadList : BootState where
  mem a :=
    if a = bootListHead then 0x1010
    else if a = 0x1014 then bootListHead
    else if a % 0x20 = 0x14 then a - 0x24
    else if a = 0x1270 then 0
    else a + 0x20
  entry _ := ⟨iplTypeCbfs, 0, 1, "payload"⟩

theorem payloadList_holds : payloadList.Holds payloadNodes := ⟨by decide, by decide, by decide⟩

/-- Twenty payloads leave no slot for the disks. -/
theorem bcvPrepboot_full :
    ∃ s' p, bcvPrepboot (fun _ => ⟨0, 0⟩) ⟨[], 0⟩ 0 payloadList = some (s', p) ∧
      hdBev ∉ p.bev ∧ floppyBev ∉ p.bev := by
  obtain ⟨s', p, hrun, hs', hentry, hp⟩ := bcvPrepboot_holds (fun _ => ⟨0, 0⟩) ⟨[], 0⟩
    payloadList_holds (by decide : 0 + bootentrySize ≤ bootListHead) fun h => absurd rfl h
  have hasked : bevsAsked s' =
      payloadNodes.map (fun _ => ⟨iplTypeCbfs, 0⟩) ++ [floppyBev, hdBev] := by
    rw [bevsAsked, hs'.records, withHalt, if_neg fun h => h.2 rfl]
    congr 1
    refine List.map_congr_left fun n hn => ?_
    rw [hentry n hn]
    rfl
  have hbev : p.bev = payloadNodes.map fun _ => ⟨iplTypeCbfs, 0⟩ := by
    rw [hp.bev, hasked]
    rfl
  refine ⟨s', p, hrun, ?_, ?_⟩
  · rw [hbev]
    decide
  · rw [hbev]
    decide

end ItxLlama.Seabios.Boot
