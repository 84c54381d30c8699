import ItxLlama.Llama.MenuRuns

/-!
# The cursor of the BIOS menu

For any tables the selections are -1 or indices of entries in every state of
the loops, the moves past disabled entries end, and they end on an enabled
entry or where they began.
-/

namespace ItxLlama.Llama

-- ---------------------------------------------------------------------------
-- Keys that leave the selection alone
-- ---------------------------------------------------------------------------

theorem quitKey_submenuSelection (s : Menu) :
    (quitKey s).submenuSelection = s.submenuSelection := by
  unfold quitKey
  split <;> rfl

theorem changeKey_submenuSelection {s s' : Menu} (h : changeKey e outer p s = some s') :
    s'.submenuSelection = s.submenuSelection := by
  rw [changeKey, Option.bind_eq_bind, Option.bind_eq_some_iff] at h
  obtain ⟨value, -, h⟩ := h
  split at h
  case h_5 =>
    rw [Option.bind_eq_bind, Option.bind_eq_some_iff] at h
    obtain ⟨set, -, h⟩ := h
    cases h
    rfl
  all_goals
    cases h
    rfl

theorem inputKey_submenuSelection {s s' : Menu} (h : inputKey e buf outer p s = some s') :
    s'.submenuSelection = s.submenuSelection := by
  unfold inputKey at h
  dsimp only at h
  split at h
  · cases h
    rfl
  split at h
  · cases h
    rfl
  split at h
  · rw [Option.bind_eq_bind, Option.bind_eq_some_iff] at h
    obtain ⟨set, -, h⟩ := h
    cases h
    rfl
  split at h <;> cases h <;> rfl

theorem lift_run_eq_some {r : Option α} (h : (StateT.lift r : Spi α).run c = some (a, c')) :
    r = some a := by
  cases r with
  | none => cases h
  | some b => cases h; rfl

section Tables

variable [MenuTable]

/-- Every selection is -1 or the index of an entry. -/
structure Menu.InTable (s : Menu) : Prop where
  main : s.mainMenuSelection = -1 ∨
    ∃ menu, entryAt MenuTable.entries s.mainMenuSelection = some menu
  submenu : s.submenuSelection = -1 ∨ ∃ e, Selected s.mainMenuSelection s.submenuSelection e
  change : s.changeSelection = -1 ∨ ∃ e value,
    Selected s.mainMenuSelection s.submenuSelection e ∧
      entryAt e.changeEntries s.changeSelection = some value
  quit : s.quitMenuSelection = -1 ∨
    ∃ value, entryAt MenuTable.quitEntry.changeEntries s.quitMenuSelection = some value

theorem Menu.Ok.inTable {s : Menu} (h : s.Ok) (hl : s.loops ≠ []) : s.InTable := by
  have hplaced : (s.submenuSelection = -1 ∨
        ∃ e, Selected s.mainMenuSelection s.submenuSelection e) ∧
      (s.changeSelection = -1 ∨ ∃ e value,
        Selected s.mainMenuSelection s.submenuSelection e ∧
          entryAt e.changeEntries s.changeSelection = some value) := by
    obtain ⟨lbs, i, j, change, quit, loops⟩ := s
    cases h.placed with
    | off => exact absurd rfl hl
    | main | quitMain => exact ⟨.inl rfl, .inl rfl⟩
    | sub hsel | quitSub hsel | input hsel => exact ⟨.inr ⟨_, hsel⟩, .inl rfl⟩
    | @change _ e _ hsel hn h0 hlt =>
      obtain ⟨value, hvalue⟩ := entryAt_lt h0 (by rw [e.counted]; exact hlt)
      exact ⟨.inr ⟨e, hsel⟩, .inr ⟨e, value, hsel, hvalue⟩⟩
  refine ⟨.inr h.menu, hplaced.1, hplaced.2, ?_⟩
  obtain ⟨h0, hlt⟩ := h.quit
  by_cases hq : s.quitMenuSelection = -1
  · exact .inl hq
  · exact .inr (entryAt_lt (by omega) (by rw [MenuTable.quitEntry.counted]; exact hlt))

/-- A step that moves the selection of the submenu moves it to an entry that
is enabled then. -/
def Menu.MovesToEnabled (s : Menu) (p : KeyPress) (s' : Menu) : Prop :=
  s'.submenuSelection = s.submenuSelection ∨ s'.submenuSelection = -1 ∨
    ∃ e, Selected s'.mainMenuSelection s'.submenuSelection e ∧
      e.disabled p.leds s'.lbs = false

theorem Menu.MovesToEnabled.of_eq {s s' : Menu} (h : s'.submenuSelection = s.submenuSelection) :
    s.MovesToEnabled p s' := .inl h

theorem submenuEnter_submenuSelection {s s' : Menu} (h : submenuEnter menu p s = some s') :
    s'.submenuSelection = s.submenuSelection := by
  rw [submenuEnter, Option.bind_eq_bind, Option.bind_eq_some_iff] at h
  obtain ⟨e, -, h⟩ := h
  split at h
  · cases h
    rfl
  split at h
  · rw [enterInputLoop, Option.bind_eq_bind, Option.bind_eq_some_iff] at h
    obtain ⟨get, -, h⟩ := h
    cases h
    rfl
  · rw [enterChangeLoop, Option.bind_eq_bind, Option.bind_eq_some_iff] at h
    obtain ⟨e, -, h⟩ := h
    rw [Option.bind_eq_bind, Option.bind_eq_some_iff] at h
    obtain ⟨get, -, h⟩ := h
    cases h
    rfl

theorem moveSubmenu_moves {s s' : Menu} {move : Int → Int}
    (hmenu : entryAt MenuTable.entries s.mainMenuSelection = some menu)
    (h : moveSubmenu menu p s move = some s') : s.MovesToEnabled p s' := by
  rw [moveSubmenu, Option.bind_eq_bind, Option.bind_eq_some_iff] at h
  obtain ⟨j, hskip, h⟩ := h
  cases h
  rcases skipDisabled_enabled hskip with hj | ⟨e, he, hen⟩
  · exact .inl hj
  · exact .inr (.inr ⟨e, ⟨menu, hmenu, he⟩, hen⟩)

theorem saveAndReboot_moves {s s' : Menu} (h : (saveAndReboot s).run c = some (s', c')) :
    s.MovesToEnabled p s' :=
  .of_eq (by rw [(saveAndReboot_run h).2]; rfl)

theorem quitMenuKey_moves {s s' : Menu} (h : (quitMenuKey outer p s).run c = some (s', c')) :
    s.MovesToEnabled p s' := by
  unfold quitMenuKey at h
  split at h
  case h_5 =>
    split at h
    · exact saveAndReboot_moves h
    · cases h
      exact .of_eq rfl
  all_goals
    cases h
    exact .of_eq rfl

theorem submenuKey_moves {s s' : Menu} (h : (submenuKey outer p s).run c = some (s', c')) :
    s.MovesToEnabled p s' := by
  unfold submenuKey at h
  cases hmenu : entryAt MenuTable.entries s.mainMenuSelection with
  | none =>
    rw [hmenu] at h
    cases h
  | some menu =>
    rw [hmenu, lift_some_bind] at h
    split at h
    · exact moveSubmenu_moves hmenu (lift_run_eq_some h)
    · exact moveSubmenu_moves hmenu (lift_run_eq_some h)
    · exact moveSubmenu_moves hmenu (lift_run_eq_some h)
    · exact moveSubmenu_moves hmenu (lift_run_eq_some h)
    · exact .of_eq (submenuEnter_submenuSelection (lift_run_eq_some h))
    · cases h
      exact .inr (.inl rfl)
    · cases h
      exact .of_eq (quitKey_submenuSelection s)
    · exact saveAndReboot_moves h
    · cases h
      exact .of_eq rfl
    · cases h
      exact .of_eq rfl

theorem first_enabled (hmenu : entryAt MenuTable.entries i = some menu) (p : KeyPress)
    (lbs : LlamaBiosSettings) : ∃ e, Selected i 0 e ∧ e.disabled p.leds lbs = false := by
  obtain ⟨e, he⟩ := menu.submenu (Int.le_refl 0) (Int.ofNat_lt.mpr menu.nonempty)
  refine ⟨e, ⟨menu, hmenu, he⟩, ?_⟩
  have hhead : menu.submenus.head? = some e := by
    rw [entryAt, if_pos (Int.le_refl 0)] at he
    rw [List.head?_eq_getElem?]
    exact he
  unfold SubmenuEntry.disabled
  cases hen : e.getEnabled with
  | none => rfl
  | some enabled =>
    have := MenuTable.firstEnabled menu (entryAt_some hmenu).2.2 e hhead enabled hen p.leds lbs
    simpa using this

theorem mainMenuKey_moves {s s' : Menu} (h : (mainMenuKey p s).run c = some (s', c')) :
    s.MovesToEnabled p s' := by
  unfold mainMenuKey at h
  cases hmenu : entryAt MenuTable.entries s.mainMenuSelection with
  | none =>
    rw [hmenu] at h
    cases h
  | some menu =>
    rw [hmenu, lift_some_bind] at h
    split at h
    · cases h
      exact .of_eq rfl
    · cases h
      exact .of_eq rfl
    · cases h
      exact .of_eq rfl
    · cases h
      exact .of_eq rfl
    · cases h
      exact .inr (.inr (first_enabled hmenu p s.lbs))
    · cases h
      exact .of_eq (quitKey_submenuSelection s)
    · exact saveAndReboot_moves h
    all_goals
      cases h
      exact .of_eq rfl

theorem handleKey_moves {s s' : Menu} (h : (handleKey p s).run c = some (s', c')) :
    s.MovesToEnabled p s' := by
  unfold handleKey at h
  split at h
  · cases h
    exact .of_eq rfl
  · exact mainMenuKey_moves h
  · exact submenuKey_moves h
  · exact .of_eq (changeKey_submenuSelection (lift_run_eq_some h))
  · exact .of_eq (inputKey_submenuSelection (lift_run_eq_some h))
  · exact quitMenuKey_moves h

-- ---------------------------------------------------------------------------
-- Runs
-- ---------------------------------------------------------------------------

theorem menuRun_ok {s s' : Menu} (h : s.Ok) (hrun : (menuRun s ps).run c = some (s', c')) :
    s'.Ok := by
  induction ps generalizing s c with
  | nil =>
    cases hrun
    exact h
  | cons p ps ih =>
    unfold menuRun at hrun
    rw [StateT.run_bind, menuStep_run h, Option.bind_eq_bind, Option.bind_eq_some_iff] at hrun
    obtain ⟨⟨s₁, c₁⟩, hstep, hrest⟩ := hrun
    have hkeys : ∀ e ∈ menuEntries, e.Keeps fun _ => True :=
      fun _ _ => ⟨fun _ _ _ _ _ _ => trivial, fun _ _ _ _ _ => trivial⟩
    exact ih (handleKey_keeps hkeys h trivial hstep).1 hrest

/-- What holds of the cursor in a state of the loops and over the next key. -/
structure Menu.CursorOk (s : Menu) (c : Chip) : Prop where
  inTable : s.InTable
  skips : ∀ outer, s.loops = .submenuLoop :: outer → ∀ p, ∃ menu back forward,
    entryAt MenuTable.entries s.mainMenuSelection = some menu ∧
      moveSubmenu menu p s (menuBackward menu.numSubmenus) = some back ∧
      moveSubmenu menu p s (menuForward menu.numSubmenus) = some forward
  moves : ∀ p s' c', (menuStep p s).run c = some (s', c') → s.MovesToEnabled p s'

theorem menu_cursor {s : Menu} (hrun : (llamaBiosMenu lbs leds ps).run c = some (s, c'))
    (hl : s.loops ≠ []) : s.CursorOk c' := by
  rw [llamaBiosMenu_run] at hrun
  have h := menuRun_ok (Menu.Ok.initial lbs) hrun
  refine ⟨h.inTable hl, fun outer hsub p => ?_, fun p s' c'' hstep => ?_⟩
  · obtain ⟨menu, hmenu⟩ := h.menu
    obtain ⟨lbs, i, j, change, quit, loops⟩ := s
    subst hsub
    cases h.placed with
    | sub hsel =>
      obtain ⟨_, _, hback, -⟩ := moveBackward_some hmenu hsel p
      obtain ⟨_, _, hforw, -⟩ := moveForward_some hmenu hsel p
      exact ⟨menu, _, _, hmenu, hback, hforw⟩
  · rw [menuStep_run h] at hstep
    exact handleKey_moves hstep

end Tables

/-- Right and down: the second CPU setting. -/
theorem menu_cursor_down :
    ∃ s : Menu, s.submenuSelection = 1 ∧ s.CursorOk (uniformChip 0) := by
  have hrun : (llamaBiosMenu llamaBiosSettingsDefault (fun _ => 0)
      [⟨0x4D00, fun _ => 0⟩, ⟨0x5000, fun _ => 0⟩]).run (uniformChip 0) = some (_, _) := rfl
  exact ⟨_, rfl, menu_cursor hrun nofun⟩

end ItxLlama.Llama
