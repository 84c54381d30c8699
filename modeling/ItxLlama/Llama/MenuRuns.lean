import ItxLlama.Llama.BiosMenu
import ItxLlama.Llama.SettingsPersist

/-!
# Runs of the BIOS menu

The selections always point into the tables, whatever the keys. A key edits
the record through a setter of an entry of the table, saves it, or leaves it
alone, so a property that every entry keeps holds throughout a run.
-/

namespace ItxLlama.Llama

-- ---------------------------------------------------------------------------
-- Table accesses
-- ---------------------------------------------------------------------------

theorem entryAt_some {table : List α} (h : entryAt table i = some a) :
    0 ≤ i ∧ i < table.length ∧ a ∈ table := by
  unfold entryAt at h
  split at h
  · have hm := List.mem_of_getElem? h
    obtain ⟨hlt, -⟩ := List.getElem?_eq_some_iff.mp h
    exact ⟨by assumption, by omega, hm⟩
  · cases h

theorem entryAt_lt {table : List α} {i : Int} (h0 : 0 ≤ i) (h : i < table.length) :
    ∃ a, entryAt table i = some a := by
  have hlt : i.toNat < table.length := by omega
  exact ⟨table[i.toNat], by rw [entryAt, if_pos h0, List.getElem?_eq_getElem hlt]⟩

theorem MainMenuEntry.submenu {menu : MainMenuEntry} {i : Int} (h0 : 0 ≤ i)
    (h : i < menu.numSubmenus) :
    ∃ e, entryAt menu.submenus i = some e :=
  entryAt_lt h0 (by rw [menu.counted]; exact h)

theorem menuForward_range {i n : Int} (h0 : 0 ≤ i) (h : i < n) :
    0 ≤ menuForward n i ∧ menuForward n i < n := by
  unfold menuForward
  split <;> omega

theorem menuBackward_range {i n : Int} (h0 : 0 ≤ i) (h : i < n) :
    0 ≤ menuBackward n i ∧ menuBackward n i < n := by
  unfold menuBackward
  split <;> omega

theorem getIndex_range {e : SubmenuEntry} (h : 0 < e.numChangeEntries) (value : BitVec 16) :
    0 ≤ getIndex e.changeEntries value ∧ getIndex e.changeEntries value < e.numChangeEntries := by
  unfold getIndex
  cases hf : e.changeEntries.findIdx? (· == value) with
  | none => exact ⟨by simp, by simpa using h⟩
  | some k =>
    obtain ⟨hk, -⟩ := List.findIdx?_eq_some_iff_getElem.mp hf
    rw [e.counted] at hk
    exact ⟨by simp, by simpa using hk⟩

theorem lift_some_bind (a : α) (f : α → Spi β) : (StateT.lift (some a) : Spi α) >>= f = f a := rfl

theorem saveAndReboot_run {s s' : Menu} (h : (saveAndReboot s).run c = some (s', c')) :
    (llamaSaveBiosSettings s.lbs).run c = some ((), c') ∧ s' = s.reboot := by
  unfold saveAndReboot at h
  rw [StateT.run_bind, Option.bind_eq_bind, Option.bind_eq_some_iff] at h
  obtain ⟨⟨⟨⟩, c₁⟩, hsave, hrest⟩ := h
  cases hrest
  exact ⟨hsave, rfl⟩

-- ---------------------------------------------------------------------------
-- Rows
-- ---------------------------------------------------------------------------

theorem forM_some {l : List α} {f : α → Option Unit} (h : ∀ a ∈ l, f a = some ()) :
    forM l f = some () := by
  induction l with
  | nil => rfl
  | cons a l ih =>
    rw [List.forM_cons, h a (by simp), Option.bind_eq_bind, Option.bind_some]
    exact ih fun b hb => h b (List.mem_cons_of_mem _ hb)

theorem getChangeEntry_some (e : SubmenuEntry) (value : BitVec 16) :
    ∃ v, getChangeEntry e value = some v := by
  unfold getChangeEntry
  split
  · exact ⟨0, rfl⟩
  · cases e.changeEntries.find? (· == value) with
    | some v => exact ⟨v, rfl⟩
    | none => exact entryAt_lt (Int.le_refl 0) (by rw [e.counted]; omega)

theorem rowValue_some (leds : LedRegs) (lbs : LlamaBiosSettings) {e : SubmenuEntry}
    (h : e.Editable) : ∃ v, rowValue leds lbs e = some v := by
  unfold rowValue
  rcases h with ⟨hget, -⟩ | ⟨hnone, hsel, -⟩
  · obtain ⟨get, hget⟩ := Option.isSome_iff_exists.mp hget
    exact ⟨_, by rw [hget]⟩
  · obtain ⟨get, hsel⟩ := Option.isSome_iff_exists.mp hsel
    obtain ⟨v, hv⟩ := getChangeEntry_some e (get leds lbs)
    exact ⟨v, by rw [Option.isNone_iff_eq_none.mp hnone, hsel]; exact hv⟩

theorem drawRow_some (leds : LedRegs) (lbs : LlamaBiosSettings) {menu : MainMenuEntry}
    (hj : j < menu.numSubmenus) : drawRow leds lbs menu j = some () := by
  rw [← menu.counted] at hj
  obtain ⟨v, hv⟩ := rowValue_some leds lbs (menu.editable _ (List.getElem_mem hj))
  simp [drawRow, List.getElem?_eq_getElem hj, hv]

-- ---------------------------------------------------------------------------
-- Moves
-- ---------------------------------------------------------------------------

/-- The forward moves from `i` to `j` in a table of `n` entries. -/
def movesBetween (n i j : Int) : Nat := (if i ≤ j then j - i else j - i + n).toNat

section
variable {n i orig : Int} (h0 : 0 ≤ i) (h : i < n) (h0' : 0 ≤ orig) (h' : orig < n)
include h0 h h0' h'

theorem menuForward_closer (hne : i ≠ orig) :
    movesBetween n (menuForward n i) orig < movesBetween n i orig := by
  unfold movesBetween menuForward
  grind

theorem menuBackward_closer (hne : i ≠ orig) :
    movesBetween n orig (menuBackward n i) < movesBetween n orig i := by
  unfold movesBetween menuBackward
  grind

theorem movesBetween_lt : movesBetween n i orig < n := by
  unfold movesBetween
  split <;> omega

end

theorem skipDisabled_some {menu : MainMenuEntry} {move : Int → Int} (dist : Int → Nat)
    (hmove : ∀ i : Int, 0 ≤ i → i < menu.numSubmenus → 0 ≤ move i ∧ move i < menu.numSubmenus)
    (hdist : ∀ i : Int, 0 ≤ i → i < menu.numSubmenus → i ≠ orig → dist (move i) < dist i)
    (p : KeyPress) (lbs : LlamaBiosSettings) {i : Int} (h0 : 0 ≤ i) (hlt : i < menu.numSubmenus)
    (hf : dist i < fuel) :
    ∃ e j, skipDisabled menu p lbs move orig fuel i = some j ∧
      entryAt menu.submenus j = some e := by
  induction fuel generalizing i with
  | zero => omega
  | succ fuel ih =>
    obtain ⟨e, he⟩ := menu.submenu h0 hlt
    rw [skipDisabled, he, Option.bind_eq_bind, Option.bind_some]
    split
    · exact ⟨e, i, rfl, he⟩
    · split
      · have := hdist i h0 hlt (by assumption)
        exact ih (hmove i h0 hlt).1 (hmove i h0 hlt).2 (by omega)
      · exact ⟨e, i, rfl, he⟩

theorem skipDisabled_enabled {menu : MainMenuEntry} {move : Int → Int}
    (h : skipDisabled menu p lbs move orig fuel i = some j) :
    j = orig ∨ ∃ e, entryAt menu.submenus j = some e ∧ e.disabled p.leds lbs = false := by
  induction fuel generalizing i with
  | zero => cases h
  | succ fuel ih =>
    rw [skipDisabled, Option.bind_eq_bind, Option.bind_eq_some_iff] at h
    obtain ⟨e, he, h⟩ := h
    split at h
    · next horig =>
      cases h
      exact .inl horig
    · split at h
      · exact ih h
      · next hen =>
        cases h
        exact .inr ⟨e, he, by simpa using hen⟩

-- ---------------------------------------------------------------------------
-- Selections
-- ---------------------------------------------------------------------------

section Tables

variable [MenuTable]

/-- `e` is the entry the two selections point at. -/
def Selected (i j : Int) (e : SubmenuEntry) : Prop :=
  ∃ menu, entryAt MenuTable.entries i = some menu ∧ entryAt menu.submenus j = some e

theorem Selected.selectedEntry (h : Selected s.mainMenuSelection s.submenuSelection e) :
    selectedEntry s = some e := by
  obtain ⟨menu, hmenu, he⟩ := h
  rw [Llama.selectedEntry, hmenu]
  exact he

def menuEntries : List SubmenuEntry := MenuTable.entries.flatMap (·.submenus)

theorem Selected.mem (h : Selected i j e) : e ∈ menuEntries := by
  obtain ⟨menu, hmenu, he⟩ := h
  exact List.mem_flatMap.mpr ⟨menu, (entryAt_some hmenu).2.2, (entryAt_some he).2.2⟩

theorem Selected.editable (h : Selected i j e) : e.Editable := by
  obtain ⟨menu, hmenu, he⟩ := h
  exact menu.editable e (entryAt_some he).2.2

/-- Which loops can be active, and where the selections then point. -/
inductive Placed (i : Int) : (j change : Int) → List Loop → Prop
  | off : Placed i j change []
  | main : Placed i (-1) (-1) [.mainMenuLoop]
  | quitMain : Placed i (-1) (-1) [.quitMenuLoop, .mainMenuLoop]
  | sub (h : Selected i j e) : Placed i j (-1) [.submenuLoop, .mainMenuLoop]
  | quitSub (h : Selected i j e) : Placed i j (-1) [.quitMenuLoop, .submenuLoop, .mainMenuLoop]
  | change {change : Int} (h : Selected i j e) (hn : e.getInputValue = none) (h0 : 0 ≤ change)
      (hlt : change < e.numChangeEntries) :
      Placed i j change [.changeLoop e, .submenuLoop, .mainMenuLoop]
  | input (h : Selected i j e) (hs : e.getInputValue.isSome) (buf : List Byte) :
      Placed i j (-1) [.inputLoop e buf, .submenuLoop, .mainMenuLoop]

structure Menu.Ok (s : Menu) : Prop where
  nonneg : 0 ≤ s.mainMenuSelection
  lt : s.mainMenuSelection < MenuTable.numEntries
  placed : Placed s.mainMenuSelection s.submenuSelection s.changeSelection s.loops
  quit : -1 ≤ s.quitMenuSelection ∧ s.quitMenuSelection < MenuTable.quitEntry.numChangeEntries

theorem Menu.Ok.initial (lbs : LlamaBiosSettings) : Menu.Ok { lbs } :=
  ⟨Int.le_refl 0, Int.ofNat_lt.mpr MenuTable.nonempty, .main, Int.le_refl _,
    Int.lt_of_lt_of_le (by decide : (-1 : Int) < 0) (Int.natCast_nonneg _)⟩

theorem Menu.Ok.menu {s : Menu} (h : s.Ok) :
    ∃ menu, entryAt MenuTable.entries s.mainMenuSelection = some menu :=
  entryAt_lt h.nonneg (by rw [MenuTable.counted]; exact h.lt)

theorem Menu.Ok.reboot {s : Menu} (h : s.Ok) : s.reboot.Ok :=
  ⟨h.nonneg, h.lt, .off, h.quit⟩

-- ---------------------------------------------------------------------------
-- Drawing
-- ---------------------------------------------------------------------------

section
variable {s : Menu}

theorem drawMainEntry_some (leds : LedRegs) (hi : i < MenuTable.numEntries)
    (hsel : s.submenuSelection ≠ -1 → ∃ e, selectedEntry s = some e) :
    drawMainEntry leds s i = some () := by
  rw [← MenuTable.counted] at hi
  have hrows : forM (List.range MenuTable.entries[i].numSubmenus)
      (drawRow leds s.lbs MenuTable.entries[i]) = some () :=
    forM_some fun j hj => drawRow_some leds s.lbs (List.mem_range.mp hj)
  by_cases hsub : s.submenuSelection = -1
  · simp [drawMainEntry, List.getElem?_eq_getElem hi, hrows, hsub]
  · obtain ⟨e, he⟩ := hsel hsub
    simp [drawMainEntry, List.getElem?_eq_getElem hi, hrows, he]

theorem drawMenus_some (leds : LedRegs) (input : Option (List Byte))
    (hsel : s.submenuSelection ≠ -1 → ∃ e, selectedEntry s = some e ∧
      (s.changeSelection ≠ -1 ∨ input.isSome → e.getInputValue.isSome → input.isSome)) :
    drawMenus leds s input = some () := by
  have hrows : forM (List.range MenuTable.numEntries) (drawMainEntry leds s) = some () :=
    forM_some fun i hi => drawMainEntry_some leds (List.mem_range.mp hi) fun hsub =>
      have ⟨e, he, _⟩ := hsel hsub
      ⟨e, he⟩
  unfold drawMenus
  rw [List.forM_eq_forM, hrows, Option.bind_eq_bind, Option.bind_some]
  by_cases hpopup : s.mainMenuSelection ≠ -1 ∧ s.submenuSelection ≠ -1 ∧
      (s.changeSelection ≠ -1 ∨ input.isSome)
  · obtain ⟨e, he, hinput⟩ := hsel hpopup.2.1
    have hinput := hinput hpopup.2.2
    rw [if_pos hpopup, drawPopup, he, Option.bind_eq_bind, Option.bind_some]
    by_cases hget : e.getInputValue.isSome
    · obtain ⟨buf, hbuf⟩ := Option.isSome_iff_exists.mp (hinput hget)
      rw [if_pos hget, hbuf]
      rfl
    · rw [if_neg hget]
      rfl
  · rw [if_neg hpopup]
    rfl

end

theorem Menu.Ok.draw (h : s.Ok) (leds : LedRegs) : drawTop leds s = some () := by
  obtain ⟨-, -, hp, -⟩ := h
  obtain ⟨lbs, i, j, change, quit, loops⟩ := s
  cases hp with
  | off => rfl
  | main | quitMain => exact drawMenus_some leds none fun hsub => absurd rfl hsub
  | sub hsel | quitSub hsel =>
    exact drawMenus_some leds none fun _ => ⟨_, hsel.selectedEntry, by simp⟩
  | change hsel hn =>
    exact drawMenus_some leds none fun _ => ⟨_, hsel.selectedEntry, by simp [hn]⟩
  | input hsel hs buf =>
    exact drawMenus_some leds (some buf) fun _ => ⟨_, hsel.selectedEntry, by simp⟩

-- ---------------------------------------------------------------------------
-- Keys
-- ---------------------------------------------------------------------------

section
variable {s : Menu} {menu : MainMenuEntry}
  (hmenu : entryAt MenuTable.entries s.mainMenuSelection = some menu)
  (hsel : Selected s.mainMenuSelection s.submenuSelection e)
include hmenu hsel

theorem Selected.range : 0 ≤ s.submenuSelection ∧ s.submenuSelection < menu.numSubmenus := by
  obtain ⟨menu', hmenu', he⟩ := hsel
  obtain rfl : menu = menu' := Option.some.inj (hmenu.symm.trans hmenu')
  obtain ⟨h0, hlt, -⟩ := entryAt_some he
  rw [menu.counted] at hlt
  exact ⟨h0, hlt⟩

theorem moveForward_some (p : KeyPress) :
    ∃ e j, moveSubmenu menu p s (menuForward menu.numSubmenus) =
        some { s with submenuSelection := j } ∧ Selected s.mainMenuSelection j e := by
  obtain ⟨h0, hlt⟩ := Selected.range hmenu hsel
  obtain ⟨h0', hlt'⟩ := menuForward_range h0 hlt
  have hfuel := movesBetween_lt h0' hlt' h0 hlt
  obtain ⟨e, j, hj, he⟩ := skipDisabled_some (movesBetween menu.numSubmenus · s.submenuSelection)
    (fun i h hi => menuForward_range h hi)
    (fun i h hi hne => menuForward_closer h hi h0 hlt hne) p s.lbs h0' hlt' (by simpa using hfuel)
  exact ⟨e, j, by rw [moveSubmenu, hj]; rfl, menu, hmenu, he⟩

theorem moveBackward_some (p : KeyPress) :
    ∃ e j, moveSubmenu menu p s (menuBackward menu.numSubmenus) =
        some { s with submenuSelection := j } ∧ Selected s.mainMenuSelection j e := by
  obtain ⟨h0, hlt⟩ := Selected.range hmenu hsel
  obtain ⟨h0', hlt'⟩ := menuBackward_range h0 hlt
  have hfuel := movesBetween_lt h0 hlt h0' hlt'
  obtain ⟨e, j, hj, he⟩ := skipDisabled_some (movesBetween menu.numSubmenus s.submenuSelection ·)
    (fun i h hi => menuBackward_range h hi)
    (fun i h hi hne => menuBackward_closer h hi h0 hlt hne) p s.lbs h0' hlt' (by simpa using hfuel)
  exact ⟨e, j, by rw [moveSubmenu, hj]; rfl, menu, hmenu, he⟩

end

/-- What a key can do to the record short of saving it. -/
inductive Edited (lbs : LlamaBiosSettings) : LlamaBiosSettings → Prop
  | same : Edited lbs lbs
  | selection {set : SetValue} (he : e ∈ menuEntries) (hset : e.setSelectionValue = some set)
      (hv : value ∈ e.changeEntries) : Edited lbs (set lbs value)
  | input {set : SetValue} (he : e ∈ menuEntries) (hset : e.setInputValue = some set)
      (value : BitVec 16) : Edited lbs (set lbs value)

/-- The menu goes on, or has rebooted, with every selection in its table. -/
def Menu.Continues (s : Menu) (r : Option Menu) : Prop :=
  ∃ s', r = some s' ∧ s'.Ok ∧ Edited s.lbs s'.lbs

theorem Menu.Ok.continues {s : Menu} (h : s.Ok) : s.Continues (some s) := ⟨s, rfl, h, .same⟩

section
variable {s : Menu} (h : s.Ok)
include h

theorem changeKey_continues (hl : s.loops = [.changeLoop e, .submenuLoop, .mainMenuLoop])
    (p : KeyPress) : s.Continues (changeKey e [.submenuLoop, .mainMenuLoop] p s) := by
  obtain ⟨h0, hlt, hp, hq⟩ := h
  obtain ⟨lbs, i, j, change, quit, loops⟩ := s
  subst hl
  cases hp with
  | change hsel hn hc0 hclt =>
    have hedit : e.setSelectionValue.isSome := by
      rcases hsel.editable with ⟨hget, -⟩ | ⟨-, -, hset, -⟩
      · rw [hn] at hget
        cases hget
      · exact hset
    obtain ⟨set, hset⟩ := Option.isSome_iff_exists.mp hedit
    obtain ⟨value, hvalue⟩ := entryAt_lt hc0 (by rw [e.counted]; exact hclt)
    have hmem := (entryAt_some hvalue).2.2
    have hback := menuBackward_range hc0 hclt
    have hforw := menuForward_range hc0 hclt
    unfold changeKey
    rw [hvalue, Option.bind_eq_bind, Option.bind_some]
    cases getInput p.keystroke with
    | none => exact ⟨_, rfl, ⟨h0, hlt, .change hsel hn hc0 hclt, hq⟩, .same⟩
    | some action =>
      cases action with
      | up | shiftTab => exact ⟨_, rfl, ⟨h0, hlt, .change hsel hn hback.1 hback.2, hq⟩, .same⟩
      | down | tab => exact ⟨_, rfl, ⟨h0, hlt, .change hsel hn hforw.1 hforw.2, hq⟩, .same⟩
      | left | right | f10 => exact ⟨_, rfl, ⟨h0, hlt, .change hsel hn hc0 hclt, hq⟩, .same⟩
      | enter =>
        rw [hset]
        exact ⟨_, rfl, ⟨h0, hlt, .sub hsel, hq⟩, .selection hsel.mem hset hmem⟩
      | esc => exact ⟨_, rfl, ⟨h0, hlt, .sub hsel, hq⟩, .same⟩

theorem inputKey_continues (hl : s.loops = [.inputLoop e buf, .submenuLoop, .mainMenuLoop])
    (p : KeyPress) : s.Continues (inputKey e buf [.submenuLoop, .mainMenuLoop] p s) := by
  obtain ⟨h0, hlt, hp, hq⟩ := h
  obtain ⟨lbs, i, j, change, quit, loops⟩ := s
  subst hl
  cases hp with
  | input hsel hs buf =>
    have hedit : e.setInputValue.isSome := by
      rcases hsel.editable with ⟨-, hset⟩ | ⟨hnone, -⟩
      · exact hset
      · rw [Option.isNone_iff_eq_none.mp hnone] at hs
        cases hs
    obtain ⟨set, hset⟩ := Option.isSome_iff_exists.mp hedit
    unfold inputKey
    dsimp only
    split
    · exact ⟨_, rfl, ⟨h0, hlt, .input hsel hs _, hq⟩, .same⟩
    split
    · exact ⟨_, rfl, ⟨h0, hlt, .input hsel hs _, hq⟩, .same⟩
    split
    · rw [hset]
      exact ⟨_, rfl, ⟨h0, hlt, .sub hsel, hq⟩, .input hsel.mem hset _⟩
    split
    · exact ⟨_, rfl, ⟨h0, hlt, .sub hsel, hq⟩, .same⟩
    · exact ⟨_, rfl, ⟨h0, hlt, .input hsel hs _, hq⟩, .same⟩

theorem enterChangeLoop_continues (hl : s.loops = [.submenuLoop, .mainMenuLoop])
    (hsel : Selected s.mainMenuSelection s.submenuSelection e) (hn : ¬ e.getInputValue.isSome)
    (p : KeyPress) : s.Continues (enterChangeLoop p s) := by
  obtain ⟨h0, hlt, -, hq⟩ := h
  obtain ⟨hget, -, hnum⟩ := hsel.editable.resolve_left (fun hget => hn hget.1) |>.2
  obtain ⟨get, hget⟩ := Option.isSome_iff_exists.mp hget
  have hidx := getIndex_range hnum (get p.leds s.lbs)
  rw [enterChangeLoop, hsel.selectedEntry, Option.bind_eq_bind, Option.bind_some, hget, hl]
  exact ⟨_, rfl, ⟨h0, hlt, .change hsel (by simpa using hn) hidx.1 hidx.2, hq⟩, .same⟩

theorem enterInputLoop_continues (hl : s.loops = [.submenuLoop, .mainMenuLoop])
    (hj : s.changeSelection = -1) (hsel : Selected s.mainMenuSelection s.submenuSelection e)
    (hs : e.getInputValue.isSome) (p : KeyPress) : s.Continues (enterInputLoop e p s) := by
  obtain ⟨h0, hlt, -, hq⟩ := h
  obtain ⟨get, hget⟩ := Option.isSome_iff_exists.mp hs
  rw [enterInputLoop, hget, hl]
  refine ⟨_, rfl, ⟨h0, hlt, ?_, hq⟩, .same⟩
  simp only [hj]
  exact .input hsel hs _

theorem submenuEnter_continues (hl : s.loops = [.submenuLoop, .mainMenuLoop])
    (hj : s.changeSelection = -1) (hsel : Selected s.mainMenuSelection s.submenuSelection e)
    (hmenu : entryAt MenuTable.entries s.mainMenuSelection = some menu) (p : KeyPress) :
    s.Continues (submenuEnter menu p s) := by
  have he : entryAt menu.submenus s.submenuSelection = some e := by
    obtain ⟨menu', hmenu', he⟩ := hsel
    obtain rfl : menu = menu' := Option.some.inj (hmenu.symm.trans hmenu')
    exact he
  unfold submenuEnter
  rw [he, Option.bind_eq_bind, Option.bind_some]
  split
  · exact h.continues
  split
  · exact enterInputLoop_continues h hl hj hsel (by assumption) p
  · exact enterChangeLoop_continues h hl hsel (by assumption) p

theorem quitKey_ok (hp : Placed s.mainMenuSelection s.submenuSelection s.changeSelection
    (.quitMenuLoop :: s.loops)) : (quitKey s).Ok ∧ (quitKey s).lbs = s.lbs := by
  unfold quitKey
  split
  · have := MenuTable.quitNonempty
    exact ⟨⟨h.nonneg, h.lt, hp, (by decide : (-1 : Int) ≤ 0), Int.ofNat_lt.mpr this⟩, rfl⟩
  · exact ⟨h.reboot, rfl⟩

end

/-- The same without touching the chip. -/
def Menu.Stays (s : Menu) (m : Spi Menu) : Prop :=
  ∃ s', s'.Ok ∧ Edited s.lbs s'.lbs ∧ ∀ c, m.run c = some (s', c)

theorem Menu.Continues.stays {s : Menu} (h : s.Continues r) : s.Stays (StateT.lift r) := by
  obtain ⟨s', rfl, hok, hedit⟩ := h
  exact ⟨s', hok, hedit, fun _ => rfl⟩

theorem Menu.Ok.stays {s s' : Menu} (h : s'.Ok) (hlbs : s'.lbs = s.lbs) : s.Stays (pure s') :=
  ⟨s', h, hlbs ▸ .same, fun _ => rfl⟩

section
variable {s : Menu} (h : s.Ok)
include h

theorem quitMenuKey_cases
    (hout : Placed s.mainMenuSelection s.submenuSelection s.changeSelection outer)
    (p : KeyPress) : s.Stays (quitMenuKey outer p s) ∨ quitMenuKey outer p s = saveAndReboot s := by
  have hpos := MenuTable.quitNonempty
  have hmoved (k : Int) (hk : -1 ≤ k ∧ k < MenuTable.quitEntry.numChangeEntries) :
      Menu.Ok { s with quitMenuSelection := k } := ⟨h.nonneg, h.lt, h.placed, hk⟩
  have hback : -1 ≤ menuBackward MenuTable.quitEntry.numChangeEntries s.quitMenuSelection ∧
      menuBackward MenuTable.quitEntry.numChangeEntries s.quitMenuSelection <
        MenuTable.quitEntry.numChangeEntries := by
    have := h.quit
    unfold menuBackward
    split <;> omega
  have hforw : -1 ≤ menuForward MenuTable.quitEntry.numChangeEntries s.quitMenuSelection ∧
      menuForward MenuTable.quitEntry.numChangeEntries s.quitMenuSelection <
        MenuTable.quitEntry.numChangeEntries := by
    have := h.quit
    unfold menuForward
    split <;> omega
  unfold quitMenuKey
  cases getInput p.keystroke with
  | none => exact .inl (h.stays rfl)
  | some action =>
    cases action with
    | up | shiftTab => exact .inl ((hmoved _ hback).stays rfl)
    | down | tab => exact .inl ((hmoved _ hforw).stays rfl)
    | left | right | f10 => exact .inl (h.stays rfl)
    | esc =>
      exact .inl (Menu.Ok.stays ⟨h.nonneg, h.lt, hout, Int.le_refl _, by simp only; omega⟩ rfl)
    | enter =>
      dsimp only
      split
      · exact .inr rfl
      · exact .inl (h.reboot.stays rfl)

theorem submenuKey_cases (hl : s.loops = [.submenuLoop, .mainMenuLoop])
    (hj : s.changeSelection = -1) (hsel : Selected s.mainMenuSelection s.submenuSelection e)
    (p : KeyPress) : s.Stays (submenuKey [.mainMenuLoop] p s) ∨
      submenuKey [.mainMenuLoop] p s = saveAndReboot s := by
  obtain ⟨menu, hmenu⟩ := h.menu
  have hmoved {e' : SubmenuEntry} {j : Int} (he : Selected s.mainMenuSelection j e') :
      Menu.Ok { s with submenuSelection := j } := by
    refine ⟨h.nonneg, h.lt, ?_, h.quit⟩
    simp only [hl, hj]
    exact .sub he
  unfold submenuKey
  rw [hmenu]
  rw [lift_some_bind]
  cases getInput p.keystroke with
  | none => exact .inl (h.stays rfl)
  | some action =>
    cases action with
    | up | shiftTab =>
      obtain ⟨e', j, hmove, he⟩ := moveBackward_some hmenu hsel p
      rw [hmove]
      exact .inl (Menu.Continues.stays ⟨_, rfl, hmoved he, .same⟩)
    | down | tab =>
      obtain ⟨e', j, hmove, he⟩ := moveForward_some hmenu hsel p
      rw [hmove]
      exact .inl (Menu.Continues.stays ⟨_, rfl, hmoved he, .same⟩)
    | right => exact .inl (h.stays rfl)
    | enter => exact .inl (submenuEnter_continues h hl hj hsel hmenu p).stays
    | left =>
      refine .inl (Menu.Ok.stays ⟨h.nonneg, h.lt, ?_, h.quit⟩ rfl)
      simp only [hj]
      exact .main
    | esc =>
      have hquit := quitKey_ok h (by rw [hl, hj]; exact .quitSub hsel)
      exact .inl (hquit.1.stays hquit.2)
    | f10 => exact .inr rfl

theorem mainMenuKey_cases (hl : s.loops = [.mainMenuLoop]) (hj : s.submenuSelection = -1)
    (hc : s.changeSelection = -1) (p : KeyPress) :
    s.Stays (mainMenuKey p s) ∨ mainMenuKey p s = saveAndReboot s := by
  obtain ⟨menu, hmenu⟩ := h.menu
  have hplaced (i : Int) : Placed i s.submenuSelection s.changeSelection s.loops := by
    rw [hl, hj, hc]
    exact .main
  have hback := menuBackward_range h.nonneg h.lt
  have hforw := menuForward_range h.nonneg h.lt
  unfold mainMenuKey
  rw [hmenu, lift_some_bind]
  cases getInput p.keystroke with
  | none => exact .inl (h.stays rfl)
  | some action =>
    cases action with
    | up | shiftTab => exact .inl (Menu.Ok.stays ⟨hback.1, hback.2, hplaced _, h.quit⟩ rfl)
    | down | tab => exact .inl (Menu.Ok.stays ⟨hforw.1, hforw.2, hplaced _, h.quit⟩ rfl)
    | left | enter => exact .inl (h.stays rfl)
    | right =>
      obtain ⟨e, he⟩ := menu.submenu (Int.le_refl 0) (Int.ofNat_lt.mpr menu.nonempty)
      refine .inl (Menu.Ok.stays ⟨h.nonneg, h.lt, ?_, h.quit⟩ rfl)
      simp only [hl, hc]
      exact .sub ⟨menu, hmenu, he⟩
    | esc =>
      have hquit := quitKey_ok h (by rw [hl, hj, hc]; exact .quitMain)
      exact .inl (hquit.1.stays hquit.2)
    | f10 => exact .inr rfl

/-- A key either edits the record and goes on, or saves it and reboots. -/
theorem handleKey_cases (p : KeyPress) :
    s.Stays (handleKey p s) ∨ handleKey p s = saveAndReboot s := by
  obtain ⟨lbs, i, j, change, quit, loops⟩ := s
  unfold handleKey
  cases h.placed with
  | off => exact .inl (h.stays rfl)
  | main => exact mainMenuKey_cases h rfl rfl rfl p
  | sub hsel => exact submenuKey_cases h rfl rfl hsel p
  | quitMain => exact quitMenuKey_cases h .main p
  | quitSub hsel => exact quitMenuKey_cases h (.sub hsel) p
  | change hsel hn hc0 hclt => exact .inl (changeKey_continues h rfl p).stays
  | input hsel hs buf => exact .inl (inputKey_continues h rfl p).stays

end

-- ---------------------------------------------------------------------------
-- Runs
-- ---------------------------------------------------------------------------

/-- Every value an entry can set keeps the property. -/
structure SubmenuEntry.Keeps (P : LlamaBiosSettings → Prop) (e : SubmenuEntry) : Prop where
  selection : ∀ set, e.setSelectionValue = some set → ∀ value ∈ e.changeEntries, ∀ lbs,
    P lbs → P (set lbs value)
  input : ∀ set, e.setInputValue = some set → ∀ value lbs, P lbs → P (set lbs value)

theorem Edited.keeps {P : LlamaBiosSettings → Prop} (hP : ∀ e ∈ menuEntries, e.Keeps P)
    (h : Edited lbs lbs') (hl : P lbs) : P lbs' := by
  cases h with
  | same => exact hl
  | selection he hset hv => exact (hP _ he).selection _ hset _ hv _ hl
  | input he hset value => exact (hP _ he).input _ hset value _ hl

section
variable {P : LlamaBiosSettings → Prop} (hP : ∀ e ∈ menuEntries, e.Keeps P)
include hP

theorem handleKey_keeps {s s' : Menu} (h : s.Ok) (hl : P s.lbs)
    (hrun : (handleKey p s).run c = some (s', c')) : s'.Ok ∧ P s'.lbs := by
  rcases handleKey_cases h p with ⟨s₁, hok, hedit, hstay⟩ | hsave
  · rw [hstay] at hrun
    cases hrun
    exact ⟨hok, hedit.keeps hP hl⟩
  · rw [hsave] at hrun
    obtain ⟨-, rfl⟩ := saveAndReboot_run hrun
    exact ⟨h.reboot, hl⟩

end

theorem handleKey_ok {s s' : Menu} (h : s.Ok) (hrun : (handleKey p s).run c = some (s', c')) :
    s'.Ok := by
  have hkeys : ∀ e ∈ menuEntries, e.Keeps fun _ => True :=
    fun _ _ => ⟨fun _ _ _ _ _ _ => trivial, fun _ _ _ _ _ => trivial⟩
  exact (handleKey_keeps hkeys h trivial hrun).1

/-- The draw at the end of a step finds every entry it reads. -/
theorem menuStep_run {s : Menu} (h : s.Ok) (p : KeyPress) (c : Chip) :
    (menuStep p s).run c = (handleKey p s).run c := by
  unfold menuStep
  rw [StateT.run_bind]
  cases hrun : (handleKey p s).run c with
  | none => rfl
  | some r =>
    have hok := handleKey_ok h hrun
    rw [Option.bind_eq_bind, Option.bind_some, hok.draw, lift_some_bind]
    rfl

theorem menuRun_keeps {P : LlamaBiosSettings → Prop} (hP : ∀ e ∈ menuEntries, e.Keeps P)
    {s s' : Menu} (h : s.Ok) (hl : P s.lbs)
    (hrun : (menuRun s ps).run c = some (s', c')) : P s'.lbs := by
  induction ps generalizing s c with
  | nil =>
    cases hrun
    exact hl
  | cons p ps ih =>
    unfold menuRun at hrun
    rw [StateT.run_bind, menuStep_run h, Option.bind_eq_bind, Option.bind_eq_some_iff] at hrun
    obtain ⟨⟨s₁, c₁⟩, hstep, hrest⟩ := hrun
    obtain ⟨hok, hl⟩ := handleKey_keeps hP h hl hstep
    exact ih hok hl hrest

theorem llamaBiosMenu_run (lbs : LlamaBiosSettings) (leds : LedRegs) (ps : List KeyPress) :
    llamaBiosMenu lbs leds ps = menuRun { lbs } ps := by
  unfold llamaBiosMenu
  rw [(Menu.Ok.initial lbs).draw, lift_some_bind]

theorem llamaBiosMenu_keeps {P : LlamaBiosSettings → Prop} (hP : ∀ e ∈ menuEntries, e.Keeps P)
    {s : Menu} (hl : P lbs) (hrun : (llamaBiosMenu lbs leds ps).run c = some (s, c')) :
    P s.lbs := by
  rw [llamaBiosMenu_run] at hrun
  exact menuRun_keeps hP (Menu.Ok.initial lbs) hl hrun

end Tables

-- ---------------------------------------------------------------------------
-- The changed flag
-- ---------------------------------------------------------------------------

section
variable {P : LlamaBiosSettings → Prop}

theorem selection_keeps {get : GetValue} {set : SetValue} {hc : values.length = num}
    (h : ∀ value ∈ values, ∀ lbs, P lbs → P (set lbs value)) :
    (selection num values get set hc).Keeps P :=
  ⟨fun _ hset => (Option.some.inj hset) ▸ h, nofun⟩

theorem numberInput_keeps {get : GetValue} {set : SetValue}
    (h : ∀ value lbs, P lbs → P (set lbs value)) : (numberInput get set).Keeps P :=
  ⟨nofun, fun _ hset => (Option.some.inj hset) ▸ h⟩

theorem SubmenuEntry.Keeps.enabled {e : SubmenuEntry} (h : e.Keeps P)
    (enabled : Option GetEnabled) : SubmenuEntry.Keeps P { e with getEnabled := enabled } :=
  ⟨h.selection, h.input⟩

end

/-- While the flag is down, the record is the one the menu was entered with. -/
def UnchangedUnlessFlagged (entered lbs : LlamaBiosSettings) : Prop :=
  lbs.hasChanges = 0 → lbs = entered

section
variable {set : SetValue} (h : set.Flags)
include h

theorem SetValue.Flags.keeps (value : BitVec 16) (lbs : LlamaBiosSettings)
    (hl : UnchangedUnlessFlagged entered lbs) :
    UnchangedUnlessFlagged entered (set lbs value) := by
  intro hzero
  rcases h lbs value with hsame | hone
  · rw [hsame] at hzero ⊢
    exact hl hzero
  · rw [hone] at hzero
    cases hzero

theorem SetValue.Flags.selection {get : GetValue} {hc : values.length = num} :
    (selection num values get set hc).Keeps (UnchangedUnlessFlagged entered) :=
  selection_keeps fun value _ => h.keeps value

theorem SetValue.Flags.numberInput {get : GetValue} :
    (numberInput get set).Keeps (UnchangedUnlessFlagged entered) :=
  numberInput_keeps h.keeps

end

theorem setNothing_flags : SetValue.Flags fun lbs _ => lbs := fun _ _ => .inl rfl

theorem menuEntries_eq : menuEntries = mainMenuEntries.flatMap (·.submenus) := rfl

theorem menuEntries_unchanged :
    ∀ e ∈ menuEntries, e.Keeps (UnchangedUnlessFlagged entered) := by
  have u8 {get put} : (setFieldU8 get put).Flags := setFieldU8_flags get put
  have u16 {get put} : SetValue.Flags (setField get put) := setFieldU16_flags get put
  simp only [menuEntries_eq, mainMenuEntries, List.flatMap_cons, List.flatMap_nil, List.cons_append,
    List.nil_append, List.append_nil, List.forall_mem_cons, List.not_mem_nil]
  exact ⟨u8.selection, u8.selection, u8.selection,
    u8.selection, u8.selection,
    u8.selection, u8.selection,
    u16.selection, u16.selection, u16.selection, u16.selection,
    u16.selection, u8.selection.enabled _, u8.selection,
    u8.selection,
    u16.numberInput, u16.numberInput, u16.numberInput,
    u8.selection, setNothing_flags.selection, setNothing_flags.selection.enabled _,
    setNothing_flags.selection, nofun⟩

/-- Nothing is lost by leaving the menu without a save prompt: whatever the
keys, while the flag is down the record is unchanged. -/
theorem menu_never_drops_changes (hrun : (llamaBiosMenu lbs leds ps).run c = some (s, c'))
    (hflag : s.lbs.hasChanges = 0) : s.lbs = lbs :=
  llamaBiosMenu_keeps (P := UnchangedUnlessFlagged lbs) menuEntries_unchanged (fun _ => rfl) hrun
    hflag

/-- Right, ENTER, ENTER: the CPU frequency that is already set. -/
def reselectKeys : List KeyPress :=
  [⟨0x4D00, fun _ => 0⟩, ⟨0x1C0D, fun _ => 0⟩, ⟨0x1C0D, fun _ => 0⟩]

theorem menu_never_drops_changes_reselect :
    ∃ s c', (llamaBiosMenu llamaBiosSettingsDefault (fun _ => 0) reselectKeys).run
        (uniformChip 0) = some (s, c') ∧ s.loops.length = 2 ∧
      s.lbs = llamaBiosSettingsDefault := by
  refine ⟨_, _, rfl, rfl, ?_⟩
  have hrun : (llamaBiosMenu llamaBiosSettingsDefault (fun _ => 0) reselectKeys).run
      (uniformChip 0) = some (_, _) := rfl
  exact menu_never_drops_changes hrun rfl

end ItxLlama.Llama
