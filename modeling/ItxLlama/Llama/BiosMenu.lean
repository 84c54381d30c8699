import ItxLlama.Llama.MenuTable

/-!
# The BIOS menu

The nested loops of `llama_bios_menu.c` as a machine: the active calls with
their locals, the selections that are globals of the file, and one step for
each keystroke. A step ends with the `draw_menus` at the head of the loop
that waits next. `none` is an access outside a table or a call through NULL.
-/

namespace ItxLlama.Llama

-- ---------------------------------------------------------------------------
-- The number in the input popup
-- ---------------------------------------------------------------------------

def stringToU16 (str : List Byte) : BitVec 16 :=
  (str.takeWhile (· ≠ 0)).foldl
    (fun num ch => if ch < 0x30 ∨ ch > 0x39 then num else num * 10 + (ch.setWidth 16 - 0x30)) 0

/-- The loop ends within five rounds: a `u16` has at most five digits. -/
def numDigits (num : BitVec 16) (fuel : Nat := 5) : Nat :=
  match fuel with
  | 0 => 0
  | fuel + 1 => if num = 0 then 0 else numDigits (num / 10) fuel + 1

def u16ToString (num : BitVec 16) (len : Nat) : List Byte :=
  let l := numDigits num
  let digits := (List.range len).foldl (fun ((str : List Byte), (num : BitVec 16)) i =>
    if i ≥ l then (str.set (len - (i + 1)) 0x20, num)
    else (str.set (len - (i + 1)) ((num % 10).setWidth 8 + 0x30), num / 10))
    (List.replicate (len + 1) 0, num)
  let str := if num = 0 then digits.1.set (len - 1) 0x30 else digits.1
  str.set len 0

def addCharToEnd (str : List Byte) (len : Nat) (c : Byte) : List Byte :=
  let digits := numDigits (stringToU16 str)
  if digits = len then str
  else if digits = 0 then str.set (len - 1) c
  else (List.range len).foldl
    (fun s i => if i = len - 1 then s.set i c else s.set i (s.getD (i + 1) 0)) str

def delCharAtEnd (str : List Byte) (len : Nat) : List Byte :=
  let str := (List.range len).reverse.foldl
    (fun s i => if i = 0 then s.set i 0x20 else s.set i (s.getD (i - 1) 0)) str
  if str.getD (len - 1) 0 = 0x20 then str.set (len - 1) 0x30 else str

def inputMaxLength : Nat := 4

-- ---------------------------------------------------------------------------
-- State
-- ---------------------------------------------------------------------------

/-- An active call, with its locals. -/
inductive Loop where
  | mainMenuLoop
  | submenuLoop
  | changeLoop (entry : SubmenuEntry)
  | inputLoop (entry : SubmenuEntry) (input : List Byte)
  | quitMenuLoop

/-- `loops` has the innermost call first; it is empty after `reboot`. -/
structure Menu where
  lbs : LlamaBiosSettings
  mainMenuSelection : Int := 0
  submenuSelection : Int := -1
  changeSelection : Int := -1
  quitMenuSelection : Int := -1
  loops : List Loop := [.mainMenuLoop]

/-- A keystroke, and what the LED controller answers while it is handled. -/
structure KeyPress where
  keystroke : BitVec 16
  leds : LedRegs

def entryAt (table : List α) (i : Int) : Option α :=
  if 0 ≤ i then table[i.toNat]? else none

variable [MenuTable]

-- ---------------------------------------------------------------------------
-- Drawing
-- ---------------------------------------------------------------------------

/-- The value that the row of an entry shows. -/
def getChangeEntry (entry : SubmenuEntry) (value : BitVec 16) : Option (BitVec 16) :=
  if entry.numChangeEntries < 1 then some 0
  else match entry.changeEntries.find? (· == value) with
    | some v => some v
    | none => entryAt entry.changeEntries 0

def rowValue (leds : LedRegs) (lbs : LlamaBiosSettings) (entry : SubmenuEntry) :
    Option (BitVec 16) :=
  match entry.getInputValue with
  | some get => some (get leds lbs)
  | none => do
    let get ← entry.getSelectionValue
    getChangeEntry entry (get leds lbs)

/-- `main_menu_entries[main_menu_selection].submenus[submenu_selection]` -/
def selectedEntry (s : Menu) : Option SubmenuEntry := do
  let menu ← entryAt MenuTable.entries s.mainMenuSelection
  entryAt menu.submenus s.submenuSelection

def drawRow (leds : LedRegs) (lbs : LlamaBiosSettings) (menu : MainMenuEntry) (j : Nat) :
    Option Unit := do
  let entry ← menu.submenus[j]?
  let _ ← rowValue leds lbs entry

/-- One round of the outer loop of `draw_menus`. -/
def drawMainEntry (leds : LedRegs) (s : Menu) (i : Nat) : Option Unit := do
  let menu ← MenuTable.entries[i]?
  if s.mainMenuSelection = i then
    (List.range menu.numSubmenus).forM (drawRow leds s.lbs menu)
  if s.submenuSelection ≠ -1 then
    let _ ← selectedEntry s

/-- The popup over the selected entry; `draw_input_popup` takes the length of
its input. -/
def drawPopup (s : Menu) (input : Option (List Byte)) : Option Unit := do
  let entry ← selectedEntry s
  if entry.getInputValue.isSome then
    let _ ← input

def drawMenus (leds : LedRegs) (s : Menu) (input : Option (List Byte)) : Option Unit := do
  (List.range MenuTable.numEntries).forM (drawMainEntry leds s)
  if s.mainMenuSelection ≠ -1 ∧ s.submenuSelection ≠ -1 ∧
      (s.changeSelection ≠ -1 ∨ input.isSome) then
    drawPopup s input

/-- The draw at the head of the innermost loop. -/
def drawTop (leds : LedRegs) (s : Menu) : Option Unit :=
  match s.loops with
  | [] => some ()
  | .inputLoop _ input :: _ => drawMenus leds s (some input)
  | _ => drawMenus leds s none

-- ---------------------------------------------------------------------------
-- Keys
-- ---------------------------------------------------------------------------

inductive KeyboardAction where
  | up | down | left | right | tab | shiftTab | enter | esc | f10
  deriving DecidableEq, Repr

/-- `none` is a key the wait loop of `get_input` skips. -/
def getInput (keystroke : BitVec 16) : Option KeyboardAction :=
  match (keystroke >>> 8).toNat with
  | 0x48 => some .up
  | 0x50 => some .down
  | 0x4B => some .left
  | 0x4D => some .right
  | 0x0F => some (if keystroke &&& 0x0F = 0x09 then .tab else .shiftTab)
  | 0x1C => some .enter
  | 0xE0 => some .enter
  | 0x01 => some .esc
  | 0x44 => some .f10
  | _ => none

def menuForward (numEntries selection : Int) : Int :=
  if selection + 1 = numEntries then 0 else selection + 1

def menuBackward (numEntries selection : Int) : Int :=
  if selection - 1 < 0 then numEntries - 1 else selection - 1

/-- `get_index`: the first entry with the value, or 0. -/
def getIndex (entries : List (BitVec 16)) (value : BitVec 16) : Int :=
  ((entries.findIdx? (· == value)).getD 0 : Nat)

def Menu.reboot (s : Menu) : Menu := { s with loops := [] }

def saveAndReboot (s : Menu) : Spi Menu := do
  llamaSaveBiosSettings s.lbs
  pure s.reboot

/-- ESC in the main menu and in a submenu. -/
def quitKey (s : Menu) : Menu :=
  if s.lbs.hasChanges ≠ 0 then
    { s with quitMenuSelection := 0, loops := .quitMenuLoop :: s.loops }
  else s.reboot

def SubmenuEntry.disabled (leds : LedRegs) (lbs : LlamaBiosSettings) (entry : SubmenuEntry) :
    Bool :=
  match entry.getEnabled with
  | some enabled => enabled leds lbs == 0
  | none => false

/-- The loop that moves past disabled entries, back to the original one at
the latest; `none` when it has not ended within its bound. -/
def skipDisabled (menu : MainMenuEntry) (p : KeyPress) (lbs : LlamaBiosSettings)
    (move : Int → Int) (origSelection : Int) : (fuel : Nat) → (selection : Int) → Option Int
  | 0, _ => none
  | fuel + 1, selection => do
    let entry ← entryAt menu.submenus selection
    if selection = origSelection then pure selection
    else if entry.disabled p.leds lbs then
      skipDisabled menu p lbs move origSelection fuel (move selection)
    else pure selection

/-- Both arms of the submenu loop that move the selection. -/
def moveSubmenu (menu : MainMenuEntry) (p : KeyPress) (s : Menu) (move : Int → Int) :
    Option Menu := do
  let selection ← skipDisabled menu p s.lbs move s.submenuSelection menu.numSubmenus
    (move s.submenuSelection)
  pure { s with submenuSelection := selection }

def enterChangeLoop (p : KeyPress) (s : Menu) : Option Menu := do
  let entry ← selectedEntry s
  let get ← entry.getSelectionValue
  pure { s with
    changeSelection := getIndex entry.changeEntries (get p.leds s.lbs)
    loops := .changeLoop entry :: s.loops }

def enterInputLoop (entry : SubmenuEntry) (p : KeyPress) (s : Menu) : Option Menu := do
  let get ← entry.getInputValue
  pure { s with
    loops := .inputLoop entry (u16ToString (get p.leds s.lbs) inputMaxLength) :: s.loops }

def changeKey (entry : SubmenuEntry) (outer : List Loop) (p : KeyPress) (s : Menu) :
    Option Menu := do
  let changeEntry ← entryAt entry.changeEntries s.changeSelection
  match getInput p.keystroke with
  | some .up | some .shiftTab =>
    pure { s with changeSelection := menuBackward entry.numChangeEntries s.changeSelection }
  | some .down | some .tab =>
    pure { s with changeSelection := menuForward entry.numChangeEntries s.changeSelection }
  | some .enter => do
    let set ← entry.setSelectionValue
    pure { s with lbs := set s.lbs changeEntry, changeSelection := -1, loops := outer }
  | some .esc => pure { s with changeSelection := -1, loops := outer }
  | some .left | some .right | some .f10 | none => pure s

/-- `"1234567890"[scancode - 0x02]` -/
def digitKey (scancode : Nat) : Byte :=
  if scancode = 0x0B then 0x30 else BitVec.ofNat 8 (scancode - 0x02 + 0x31)

def inputKey (entry : SubmenuEntry) (input : List Byte) (outer : List Loop) (p : KeyPress)
    (s : Menu) : Option Menu := do
  let scancode := (p.keystroke >>> 8).toNat
  if 0x02 ≤ scancode ∧ scancode ≤ 0x0B then
    pure { s with
      loops := .inputLoop entry (addCharToEnd input inputMaxLength (digitKey scancode)) :: outer }
  else if scancode = 0x0E then
    pure { s with loops := .inputLoop entry (delCharAtEnd input inputMaxLength) :: outer }
  else if scancode = 0x1C ∨ scancode = 0xE0 then
    let set ← entry.setInputValue
    pure { s with lbs := set s.lbs (stringToU16 input), loops := outer }
  else if scancode = 0x01 then pure { s with loops := outer }
  else pure s

def quitMenuKey (outer : List Loop) (p : KeyPress) (s : Menu) : Spi Menu :=
  match getInput p.keystroke with
  | some .up | some .shiftTab =>
    pure { s with
      quitMenuSelection := menuBackward MenuTable.quitEntry.numChangeEntries s.quitMenuSelection }
  | some .down | some .tab =>
    pure { s with
      quitMenuSelection := menuForward MenuTable.quitEntry.numChangeEntries s.quitMenuSelection }
  | some .enter => if s.quitMenuSelection = 0 then saveAndReboot s else pure s.reboot
  | some .esc => pure { s with quitMenuSelection := -1, loops := outer }
  | some .left | some .right | some .f10 | none => pure s

def submenuEnter (menu : MainMenuEntry) (p : KeyPress) (s : Menu) : Option Menu := do
  let entry ← entryAt menu.submenus s.submenuSelection
  if entry.disabled p.leds s.lbs then pure s
  else if entry.getInputValue.isSome then enterInputLoop entry p s
  else enterChangeLoop p s

def submenuKey (outer : List Loop) (p : KeyPress) (s : Menu) : Spi Menu := do
  let menu ← StateT.lift (entryAt MenuTable.entries s.mainMenuSelection)
  match getInput p.keystroke with
  | some .up | some .shiftTab =>
    StateT.lift (moveSubmenu menu p s (menuBackward menu.numSubmenus))
  | some .down | some .tab =>
    StateT.lift (moveSubmenu menu p s (menuForward menu.numSubmenus))
  | some .enter => StateT.lift (submenuEnter menu p s)
  | some .left => pure { s with submenuSelection := -1, loops := outer }
  | some .esc => pure (quitKey s)
  | some .f10 => saveAndReboot s
  | some .right | none => pure s

def mainMenuKey (p : KeyPress) (s : Menu) : Spi Menu := do
  -- the loop reads the entry's update_loop before it waits
  let _ ← StateT.lift (entryAt MenuTable.entries s.mainMenuSelection)
  match getInput p.keystroke with
  | some .up | some .shiftTab =>
    pure { s with mainMenuSelection := menuBackward MenuTable.numEntries s.mainMenuSelection }
  | some .down | some .tab =>
    pure { s with mainMenuSelection := menuForward MenuTable.numEntries s.mainMenuSelection }
  | some .right => pure { s with submenuSelection := 0, loops := .submenuLoop :: s.loops }
  | some .esc => pure (quitKey s)
  | some .f10 => saveAndReboot s
  | some .left | some .enter | none => pure s

-- ---------------------------------------------------------------------------
-- Runs
-- ---------------------------------------------------------------------------

def handleKey (p : KeyPress) (s : Menu) : Spi Menu :=
  match s.loops with
  | [] => pure s
  | .mainMenuLoop :: _ => mainMenuKey p s
  | .submenuLoop :: outer => submenuKey outer p s
  | .changeLoop entry :: outer => StateT.lift (changeKey entry outer p s)
  | .inputLoop entry input :: outer => StateT.lift (inputKey entry input outer p s)
  | .quitMenuLoop :: outer => quitMenuKey outer p s

def menuStep (p : KeyPress) (s : Menu) : Spi Menu := do
  let s ← handleKey p s
  StateT.lift (drawTop p.leds s)
  pure s

def menuRun (s : Menu) : List KeyPress → Spi Menu
  | [] => pure s
  | p :: ps => do
    let s ← menuStep p s
    menuRun s ps

/-- `llama_bios_menu`, up to the last of the given keys. -/
def llamaBiosMenu (lbs : LlamaBiosSettings) (leds : LedRegs) (ps : List KeyPress) : Spi Menu := do
  StateT.lift (drawTop leds { lbs })
  menuRun { lbs } ps

end ItxLlama.Llama
