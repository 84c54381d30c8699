import ItxLlama.Lib.Lossy
import ItxLlama.Seabios.UsbHidRuns

/-!
# Key events that time out

`push_8042_keydata` gives a byte up when the 8042 stays busy, and no caller
looks at its result: of the bytes of a report those arrive whose own push found
the 8042 ready, and the key state is updated in every case.
-/

namespace ItxLlama.Seabios.UsbHid

open Lib.Lossy
open Lib.Slots

-- ---------------------------------------------------------------------------
-- One push
-- ---------------------------------------------------------------------------

def portPs2Data : Nat := 0x60

def portPs2Status : Nat := 0x64

def i8042StrObf : BitVec 8 := 0x01

def i8042StrIbf : BitVec 8 := 0x02

def i8042CtlTimeout : Nat := 10000

/-- What the status port reads in the three loops of one push. -/
structure Polls where
  idle : Nat → BitVec 8
  command : Nat → BitVec 8
  data : Nat → BitVec 8

def usbI8042WaitWriteLoop (status : Nat → BitVec 8) (i : Nat) : Int :=
  if i < i8042CtlTimeout then
    if status i &&& i8042StrIbf = 0 then 0 else usbI8042WaitWriteLoop status (i + 1)
  else -1
termination_by i8042CtlTimeout - i

def usbI8042WaitWrite (status : Nat → BitVec 8) : Int := usbI8042WaitWriteLoop status 0

/-- The first loop of `push_8042_keydata`: whether the 8042 became idle. -/
def idleLoop (status : Nat → BitVec 8) (i : Nat) : Bool :=
  if status i &&& (i8042StrIbf ||| i8042StrObf) ≠ 0 then
    if i + 1 > 0x30 then false else idleLoop status (i + 1)
  else true
termination_by 0x31 - i

/-- The ports written, with their bytes, and the result. -/
def push8042Keydata (polls : Polls) (key : Nat) : List (Nat × Nat) × Int :=
  if ¬ idleLoop polls.idle 0 then ([], 1)
  else
    let ret := usbI8042WaitWrite polls.command
    if ret ≠ 0 then ([], ret)
    else
      let ret := usbI8042WaitWrite polls.data
      if ret ≠ 0 then ([(portPs2Status, 0xd2)], ret)
      else ([(portPs2Status, 0xd2), (portPs2Data, key)], 0)

/-- The writes of the pushes of some bytes, the first being push `n`: a result is not looked at, so
the next byte is pushed in every case. -/
def pushKeys (polls : Nat → Polls) : Nat → List Nat → List (Nat × Nat)
  | _, [] => []
  | n, key :: keys => (push8042Keydata (polls n) key).1 ++ pushKeys polls (n + 1) keys

/-- The bytes that reach the keyboard output buffer. -/
def keydata (outs : List (Nat × Nat)) : List Nat :=
  (outs.filter fun out => out.1 = portPs2Data).map Prod.snd

theorem keydata_append : keydata (outs ++ outs') = keydata outs ++ keydata outs' := by
  rw [keydata, List.filter_append, List.map_append]
  rfl

/-- The 8042 is idle, takes the command and takes the byte, each time before the loop gives up. -/
def Polls.Ready (polls : Polls) : Prop :=
  (∃ i ≤ 0x30, polls.idle i &&& (i8042StrIbf ||| i8042StrObf) = 0) ∧
  (∃ i < i8042CtlTimeout, polls.command i &&& i8042StrIbf = 0) ∧
  ∃ i < i8042CtlTimeout, polls.data i &&& i8042StrIbf = 0

instance (polls : Polls) : Decidable polls.Ready := by
  unfold Polls.Ready
  infer_instance

theorem idleLoop_iff : idleLoop status i = true ↔
    ∃ j, i ≤ j ∧ j ≤ max i 0x30 ∧ status j &&& (i8042StrIbf ||| i8042StrObf) = 0 := by
  fun_induction idleLoop status i with
  | case1 i hbusy hend =>
    refine iff_of_false Bool.false_ne_true ?_
    rintro ⟨j, hle, hmax, hidle⟩
    obtain rfl : j = i := by omega
    exact hbusy hidle
  | case2 i hbusy hgo ih =>
    rw [ih]
    constructor
    · rintro ⟨j, hle, hmax, hidle⟩
      exact ⟨j, by omega, by omega, hidle⟩
    · rintro ⟨j, hle, hmax, hidle⟩
      obtain rfl | hlt := Nat.eq_or_lt_of_le hle
      · exact absurd hidle hbusy
      · exact ⟨j, hlt, by omega, hidle⟩
  | case3 i hidle =>
    exact iff_of_true rfl ⟨i, Nat.le_refl i, Nat.le_max_left i _, not_not.mp hidle⟩

theorem usbI8042WaitWriteLoop_iff : usbI8042WaitWriteLoop status i = 0 ↔
    ∃ j, i ≤ j ∧ j < i8042CtlTimeout ∧ status j &&& i8042StrIbf = 0 := by
  fun_induction usbI8042WaitWriteLoop status i with
  | case1 i hlt hfree => exact iff_of_true rfl ⟨i, Nat.le_refl i, hlt, hfree⟩
  | case2 i hlt hfull ih =>
    rw [ih]
    constructor
    · rintro ⟨j, hle, hend, hfree⟩
      exact ⟨j, Nat.le_of_succ_le hle, hend, hfree⟩
    · rintro ⟨j, hle, hend, hfree⟩
      obtain rfl | hlt := Nat.eq_or_lt_of_le hle
      · exact absurd hfree hfull
      · exact ⟨j, hlt, hend, hfree⟩
  | case3 i hend =>
    refine iff_of_false (by decide) ?_
    rintro ⟨j, hle, hlt, -⟩
    exact hend (Nat.lt_of_le_of_lt hle hlt)

theorem keydata_push8042Keydata (polls : Polls) (key : Nat) :
    keydata (push8042Keydata polls key).1 = if polls.Ready then [key] else [] := by
  have hidle : idleLoop polls.idle 0 = true ↔
      ∃ i ≤ 0x30, polls.idle i &&& (i8042StrIbf ||| i8042StrObf) = 0 := by
    rw [idleLoop_iff]
    exact exists_congr fun i => and_iff_right (Nat.zero_le i)
  have hwait : ∀ status, usbI8042WaitWrite status = 0 ↔
      ∃ i < i8042CtlTimeout, status i &&& i8042StrIbf = 0 := by
    intro status
    rw [usbI8042WaitWrite, usbI8042WaitWriteLoop_iff]
    exact exists_congr fun i => and_iff_right (Nat.zero_le i)
  have hready : polls.Ready ↔ idleLoop polls.idle 0 = true ∧
      usbI8042WaitWrite polls.command = 0 ∧ usbI8042WaitWrite polls.data = 0 := by
    rw [hidle, hwait, hwait]
    rfl
  simp only [push8042Keydata, hready]
  cases idleLoop polls.idle 0 with
  | false => rfl
  | true =>
    by_cases hcommand : usbI8042WaitWrite polls.command = 0
    · by_cases hdata : usbI8042WaitWrite polls.data = 0
      · simp [hcommand, hdata, keydata, portPs2Status, portPs2Data]
      · simp [hcommand, hdata, keydata, portPs2Status, portPs2Data]
    · simp [hcommand, keydata]

theorem keydata_pushKeys (polls : Nat → Polls) (n : Nat) (keys : List Nat) :
    keydata (pushKeys polls n keys) = delivered (fun i => (polls i).Ready) n keys := by
  induction keys generalizing n with
  | nil => rfl
  | cons key keys ih =>
    rw [pushKeys, keydata_append, ih, keydata_push8042Keydata]
    by_cases h : (polls n).Ready
    · rw [if_pos h, delivered_of_ok h]
      rfl
    · rw [if_neg h, delivered_of_not_ok h]
      rfl

-- ---------------------------------------------------------------------------
-- The events of a report
-- ---------------------------------------------------------------------------

/-- Bytes that are the events of some key sequences. -/
def Pushed (bytes : List Nat) : Prop :=
  ∃ es : List (Nat × Bool), (∀ e ∈ es, e.1 ∈ codes) ∧ bytes = push es

theorem Pushed.append (h : Pushed bytes) (h' : Pushed bytes') : Pushed (bytes ++ bytes') := by
  obtain ⟨es, hes, rfl⟩ := h
  obtain ⟨es', hes', rfl⟩ := h'
  refine ⟨es ++ es', fun e he => ?_, push_append.symm⟩
  obtain he | he := List.mem_append.mp he
  · exact hes e he
  · exact hes' e he

theorem pushed_nil : Pushed [] := ⟨[], fun _ he => absurd he List.not_mem_nil, rfl⟩

theorem mem_codes_keyEvents (h : e ∈ keyEvents l b) : e.1 ∈ codes := by
  obtain ⟨-, key, -, hne, heq⟩ := mem_keyEvents.mp h
  exact heq ▸ code_mem_codes hne

theorem mem_codes_modEvents {mods : BitVec 8} (h : e ∈ modEvents mods b) : e.1 ∈ codes := by
  obtain ⟨-, i, hi, -, heq⟩ := mem_modEvents.mp h
  exact heq ▸ modCode_mem_codes hi

theorem pushed_procscankey (key : Nat) (released : Bool) :
    Pushed (procscankey key (flag released)) :=
  ⟨_, fun _ he => mem_codes_keyEvents he, procscankey_eq key released⟩

theorem pushed_procmodkey (mods : BitVec 8) (released : Bool) :
    Pushed (procmodkey mods (flag released)) :=
  ⟨_, fun _ he => mem_codes_modEvents he, procmodkey_eq mods released⟩

theorem pushed_releaseLoop (i : Nat) (s : Scan) (h : Pushed s.pushed) :
    Pushed (releaseLoop i s).pushed := by
  fun_induction releaseLoop i s with
  | case1 i s hend => exact h
  | case2 i s hgo key hzero => exact h
  | case3 i s hgo key hne hnone ih => exact ih (h.append (pushed_procscankey key true))
  | case4 i s hgo key hne j hsome ih => exact ih h

theorem pushed_handleKey (last : Usbkeyinfo) (data : Keyevent) :
    Pushed (handleKey last data).2 := by
  have hreleased : Pushed (releaseLoop 0 ⟨last.keys, data.keys, 0, last.repeatcount, []⟩).pushed :=
    pushed_releaseLoop 0 _ pushed_nil
  unfold handleKey
  generalize releaseLoop 0 ⟨last.keys, data.keys, 0, last.repeatcount, []⟩ = s at hreleased
  have hmods := (hreleased.append (pushed_procmodkey (last.modifiers &&& ~~~data.modifiers) true)).append
    (pushed_procmodkey (data.modifiers &&& ~~~last.modifiers) false)
  simp only
  refine Pushed.append ?_ ?_
  · rw [(newLoop_spec 0 _).pushed]
    exact hmods.append ⟨_, fun _ he => mem_codes_keyEvents he, rfl⟩
  · generalize newLoop 0 _ = s'
    generalize (if s'.addpos < 6 then Function.update s'.old s'.addpos 0 else s'.old) = keys
    split
    · split
      · exact pushed_procscankey _ false
      · split
        · exact pushed_nil
        · exact pushed_nil
    · exact pushed_nil

theorem push_decode_handleKey (last : Usbkeyinfo) (data : Keyevent) :
    (∀ e ∈ decode (handleKey last data).2, e.1 ∈ codes) ∧
      push (decode (handleKey last data).2) = (handleKey last data).2 := by
  obtain ⟨es, hcodes, hbytes⟩ := pushed_handleKey last data
  have hdecode : decode (push es) = es := by
    rw [← List.append_nil (push es), decode_push_append hcodes]
    exact List.append_nil es
  rw [hbytes, hdecode]
  exact ⟨hcodes, rfl⟩

-- ---------------------------------------------------------------------------
-- The keys that are recorded
-- ---------------------------------------------------------------------------

theorem keysFrom_congr (h : ∀ j ≥ i, data' j = data j) : keysFrom data' i = keysFrom data i := by
  unfold keysFrom
  congr 1
  exact List.map_congr_left fun j hj => h j (List.mem_range'_1.mp hj).1

theorem keysFrom_update_zero (hj : i + n < 6) (hne : data (i + n) ≠ 0) :
    (keysFrom data i).Perm (data (i + n) :: keysFrom (Function.update data (i + n) 0) i) := by
  induction n generalizing i with
  | zero =>
    have hrest : keysFrom (Function.update data i 0) (i + 1) = keysFrom data (i + 1) :=
      keysFrom_congr fun j hj => Function.update_of_ne (Nat.ne_of_gt hj) _ _
    rw [Nat.add_zero] at hne ⊢
    rw [keysFrom_succ (Nat.lt_of_le_of_lt (Nat.le_add_right i 0) hj), if_neg hne,
      @keysFrom_succ i (Function.update data i 0) hj, Function.update_self, if_pos rfl, hrest]
  | succ n ih =>
    have hi : i < 6 := Nat.lt_of_le_of_lt (Nat.le_add_right i _) hj
    have hij : i ≠ i + (n + 1) := by omega
    have hassoc : i + 1 + n = i + (n + 1) := by omega
    have hrest := @ih (i + 1) (hassoc ▸ hj) (hassoc ▸ hne)
    rw [hassoc] at hrest
    rw [keysFrom_succ hi, keysFrom_succ hi, Function.update_of_ne hij]
    split
    case isTrue => exact hrest
    case isFalse => exact (hrest.cons (data i)).trans (.swap _ _ _)

/-- The keys kept so far, and what is left of the report. -/
def Scan.all (s : Scan) : List Nat := contents s.old s.addpos ++ keysFrom s.data 0

theorem releaseLoop_all (i : Nat) (s : Scan) : (releaseLoop i s).all.Perm s.all := by
  fun_induction releaseLoop i s with
  | case1 i s hend => exact .refl _
  | case2 i s hgo key hzero => exact .refl _
  | case3 i s hgo key hne hnone ih => exact ih
  | case4 i s hgo key hne j hsome ih =>
    obtain ⟨hj, hdata⟩ := findKey_some hsome
    have hzeroed := @keysFrom_update_zero 0 j s.data (by omega) (by rw [Nat.zero_add, hdata]; exact hne)
    rw [Nat.zero_add, hdata] at hzeroed
    refine ih.trans ?_
    rw [Scan.all, contents_push, List.append_assoc]
    exact (hzeroed.symm).append_left _

theorem ListsFrom.length_le (h : ListsFrom keys i l) : i + l.length ≤ 6 := by
  induction l generalizing i with
  | nil =>
    obtain rfl | ⟨hlt, -⟩ := h
    · exact Nat.le_refl 6
    · exact Nat.le_of_lt hlt
  | cons key l ih =>
    have hle := ih h.2.2.2
    rw [List.length_cons]
    omega

theorem handleKey_lists (last : Usbkeyinfo) (data : Keyevent) :
    ∃ l, ListsFrom (handleKey last data).1.keys 0 l ∧ l.Perm data.pressed := by
  have hall := releaseLoop_all 0 ⟨last.keys, data.keys, 0, last.repeatcount, []⟩
  unfold handleKey
  generalize releaseLoop 0 ⟨last.keys, data.keys, 0, last.repeatcount, []⟩ = s at hall
  simp only
  have hkept := (newLoop_spec 0 { s with
    pushed := s.pushed ++ procmodkey (last.modifiers &&& ~~~data.modifiers) releasebit ++
      procmodkey (data.modifiers &&& ~~~last.modifiers) 0 }).kept
  generalize newLoop 0 _ = s' at hkept
  have hperm : (contents s'.old s'.addpos).Perm data.pressed := hkept ▸ hall
  refine ⟨contents s'.old s'.addpos, ListsFrom.terminated (fun key hmem => ?_) ?_, hperm⟩
  · exact (mem_keysFrom.mp (hperm.mem_iff.mp hmem)).2
  · have hlen := hperm.length_eq
    rw [length_contents] at hlen
    rw [hlen]
    calc data.pressed.length ≤ ((List.range' 0 (6 - 0)).map data.keys).length :=
      List.length_filter_le _ _
      _ = 6 := by rw [List.length_map, List.length_range']

/-- `LastUSBkey` has the key sequence down: it is that of a key before the first empty slot, or of a
modifier. -/
def Usbkeyinfo.Records (last : Usbkeyinfo) (c : Nat) : Prop :=
  (∃ i < 6, (∀ j ≤ i, last.keys j ≠ 0) ∧ code (last.keys i) = c) ∨
    ∃ i < 8, last.modifiers.getLsbD i = true ∧ modCode i = c

/-- The report has the key sequence down. -/
def Keyevent.Lists (data : Keyevent) (c : Nat) : Prop :=
  (∃ key ∈ data.pressed, code key = c) ∨
    ∃ i < 8, data.modifiers.getLsbD i = true ∧ modCode i = c

theorem ListsFrom.mem_iff (h : ListsFrom keys i l) :
    key ∈ l ↔ ∃ k, i ≤ k ∧ k < 6 ∧ (∀ j, i ≤ j → j ≤ k → keys j ≠ 0) ∧ keys k = key := by
  induction l generalizing i with
  | nil =>
    refine iff_of_false List.not_mem_nil ?_
    rintro ⟨k, hik, hk, hne, -⟩
    obtain rfl | ⟨-, hzero⟩ := h
    · exact absurd hk (Nat.not_lt.mpr hik)
    · exact hne i (Nat.le_refl i) hik hzero
  | cons key' l ih =>
    obtain ⟨hi, rfl, hne, hrest⟩ := h
    rw [List.mem_cons, ih hrest]
    constructor
    · rintro (rfl | ⟨k, hik, hk, hbelow, rfl⟩)
      · refine ⟨i, Nat.le_refl i, hi, fun j hij hji => ?_, rfl⟩
        exact Nat.le_antisymm hij hji ▸ hne
      · refine ⟨k, Nat.le_of_succ_le hik, hk, fun j hij hjk => ?_, rfl⟩
        obtain rfl | hlt := Nat.eq_or_lt_of_le hij
        · exact hne
        · exact hbelow j hlt hjk
    · rintro ⟨k, hik, hk, hbelow, rfl⟩
      obtain rfl | hlt := Nat.eq_or_lt_of_le hik
      · exact Or.inl rfl
      · exact Or.inr ⟨k, hlt, hk, fun j hij => hbelow j (Nat.le_of_succ_le hij), rfl⟩

theorem records_handleKey (last : Usbkeyinfo) (data : Keyevent) (c : Nat) :
    (handleKey last data).1.Records c ↔ data.Lists c := by
  obtain ⟨l, hlist, hperm⟩ := handleKey_lists last data
  refine or_congr ?_ Iff.rfl
  constructor
  · rintro ⟨i, hi, hne, heq⟩
    refine ⟨_, hperm.mem_iff.mp
      (hlist.mem_iff.mpr ⟨i, Nat.zero_le i, hi, fun j _ hj => hne j hj, rfl⟩), heq⟩
  · rintro ⟨key, hmem, heq⟩
    obtain ⟨i, -, hi, hne, rfl⟩ := hlist.mem_iff.mp (hperm.mem_iff.mpr hmem)
    exact ⟨i, hi, fun j hj => hne j (Nat.zero_le j) hj, heq⟩

-- ---------------------------------------------------------------------------
-- Runs
-- ---------------------------------------------------------------------------

def eventKeys (e : Nat × Bool) : List Nat := prockeys (e.1 ||| flag e.2)

/-- Every event of a report, with the number of its first push. -/
def EachEvent (P : Nat → Nat × Bool → Prop) : Nat → List (Nat × Bool) → Prop
  | _, [] => True
  | n, e :: es => P n e ∧ EachEvent P (n + (eventKeys e).length) es

/-- Every event of a run of reports, with the report and what `LastUSBkey` is after it. -/
def EachReport (P : Keyevent → Usbkeyinfo → Nat → Nat × Bool → Prop) :
    Nat → Usbkeyinfo → List Keyevent → Prop
  | _, _, [] => True
  | n, last, data :: reports =>
    let r := handleKey last data
    EachEvent (P data r.1) n (decode r.2) ∧ EachReport P (n + r.2.length) r.1 reports

/-- The bytes of the event arrived in order or none of them did, and a release arrived if
`LastUSBkey` has the key up. -/
def Whole (polls : Nat → Polls) (last : Usbkeyinfo) (n : Nat) (e : Nat × Bool) : Prop :=
  let arrived := keydata (pushKeys polls n (eventKeys e))
  (arrived = eventKeys e ∨ arrived = []) ∧ (e.2 = true → ¬ last.Records e.1 → arrived = eventKeys e)

/-- The 8042 was ready in time for every push of the event; or for none, and the event is not the
release of a key that the report has up. -/
def InTime (polls : Nat → Polls) (data : Keyevent) (n : Nat) (e : Nat × Bool) : Prop :=
  (∀ i < (eventKeys e).length, (polls (n + i)).Ready) ∨
    (∀ i < (eventKeys e).length, ¬ (polls (n + i)).Ready) ∧ (e.2 = true → data.Lists e.1)

theorem prockeys_ne_nil (keys : Nat) : prockeys keys ≠ [] := by
  unfold prockeys
  simp only
  split
  · split
    · exact List.cons_ne_nil _ _
    · exact List.cons_ne_nil _ _
  · exact List.cons_ne_nil _ _

theorem whole_iff (polls : Nat → Polls) {last : Usbkeyinfo} {data : Keyevent}
    (h : last.Records e.1 ↔ data.Lists e.1) : Whole polls last n e ↔ InTime polls data n e := by
  have hself := @delivered_eq_self_iff Nat (fun i => (polls i).Ready) _ n (eventKeys e)
  have hnil := @delivered_eq_nil_iff Nat (fun i => (polls i).Ready) _ n (eventKeys e)
  rw [Whole, InTime, keydata_pushKeys, ← hself, ← hnil, h]
  constructor
  · rintro ⟨hall | hnone, hrelease⟩
    · exact Or.inl hall
    · refine Or.inr ⟨hnone, fun hup => ?_⟩
      by_contra hlost
      exact prockeys_ne_nil _ ((hrelease hup hlost).symm.trans hnone)
  · rintro (hall | ⟨hnone, hrelease⟩)
    · exact ⟨Or.inl hall, fun _ _ => hall⟩
    · exact ⟨Or.inr hnone, fun hup hlost => absurd (hrelease hup) hlost⟩

theorem EachEvent.congr {P Q : Nat → Nat × Bool → Prop} (h : ∀ n e, P n e ↔ Q n e) :
    EachEvent P n es ↔ EachEvent Q n es := by
  induction es generalizing n with
  | nil => exact Iff.rfl
  | cons e es ih => exact and_congr (h n e) ih

/-- In a run of reports every event arrives whole or not at all, no release being lost, exactly when
each event finds the 8042 ready for all of its bytes, or for none without being a release of a key
that is up. -/
theorem events_whole_iff (polls : Nat → Polls) (n : Nat) (last : Usbkeyinfo)
    (reports : List Keyevent) :
    EachReport (fun _ => Whole polls) n last reports ↔
      EachReport (fun data _ => InTime polls data) n last reports := by
  induction reports generalizing n last with
  | nil => exact Iff.rfl
  | cons data reports ih =>
    refine and_congr (EachEvent.congr fun m e => whole_iff polls ?_) (ih _ _)
    exact records_handleKey last data e.1

/-- The right arrow key is pressed and the 8042 is busy at the second push. -/
def rightArrow : Keyevent := ⟨0, fun i => if i = 0 then 0x4f else 0⟩

def readyOnce (n : Nat) : Polls :=
  if n = 0 then ⟨fun _ => 0, fun _ => 0, fun _ => 0⟩ else ⟨fun _ => 2, fun _ => 2, fun _ => 2⟩

/-- Only the prefix of the key arrives. -/
theorem events_whole_rightArrow :
    ¬ EachReport (fun _ => Whole readyOnce) 0 ⟨0, 0, fun _ => 0⟩ [rightArrow] := by
  have hready : (readyOnce 0).Ready :=
    ⟨⟨0, by decide, by decide⟩, ⟨0, by decide, by decide⟩, ⟨0, by decide, by decide⟩⟩
  have hbusy : ¬ (readyOnce 1).Ready := by
    rintro ⟨⟨i, -, hidle⟩, -⟩
    have hfull : (2 : BitVec 8) &&& (i8042StrIbf ||| i8042StrObf) ≠ 0 := by decide
    exact hfull hidle
  have hevents : decode (handleKey ⟨0, 0, fun _ => 0⟩ rightArrow).2 = [(0xe04d, false)] := by
    decide +kernel
  have hkeys : eventKeys (0xe04d, false) = [0xe0, 0x4d] := by decide
  rintro ⟨hevent, -⟩
  rw [hevents] at hevent
  have harrived := hevent.1.1
  rw [keydata_pushKeys, hkeys, delivered_of_ok hready, delivered_of_not_ok hbusy] at harrived
  exact absurd harrived (by decide)

end ItxLlama.Seabios.UsbHid
